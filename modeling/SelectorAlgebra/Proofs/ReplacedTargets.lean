import Mathlib
import SelectorAlgebra.Proofs.OneShotTargets
import SelectorAlgebra.Proofs.SecretExtensions

/-!
# Proofs/ReplacedTargets — replacing takes its target away

Let a condition without argument, not that of an element, be replaced by selectors that do not
mention it, in selectors without arguments.

* `replace_removes` — the result does not mention it; or nothing can be put in its place in any
  selector, and the list stays as it is.

The engine is `extendItem_replacing`: what a compound becomes is made of the extenders and of what
may stay of it, and where targets give way no target may stay.  That a condition is absent is
hereditary, so unifying, weaving and trimming do not bring it back.
-/

namespace SelectorAlgebra

/-- The condition gives way to the choices of the source. -/
def replacing (source : SelectorList) (t : Simple) (span : Span) : ExtendContext :=
  ⟨.replace, .empty, extensionsOf source [t] span, none⟩

section Replacing

variable {l source : SelectorList} {t : Simple} {span : Span} {c : Complex}
  {inner : SelectorList → Extending (Option SelectorList)} {authored : List Complex}

/-! ## What is free of the target -/

/-- Not mentioning a target is being clear of it at every depth. -/
theorem isClearOf_iff_not_mentions : (∀ c ∈ l, c.IsClearOf (· == t)) ↔ ¬ l.Mentions t := by
  have occurs : ∀ x, OccursIn x l ↔ ∃ c ∈ l, x ∈ c.simples := by
    intro x
    rw [← mem_simples_iff, SelectorList.simples, simplesOfList_eq_flatMap, List.mem_flatMap]
  simp only [SelectorList.Mentions, occurs, Complex.IsClearOf]
  constructor
  · rintro clear ⟨x, ⟨c, hc, hx⟩, same⟩
    rw [clear c hc x hx] at same
    cases same
  · intro absent c hc x hx
    exact Bool.eq_false_iff.2 fun same => absent ⟨x, ⟨c, hc, hx⟩, same⟩

/-- An atomic target is not made up by unification, so its absence is hereditary. -/
theorem isHereditary_absent (atomic : t.isAtomic = true) :
    IsHereditary (Simple.IsClearOf (· == t)) (fun d => ∀ s ∈ d, s.IsClearOf (· == t))
      (Complex.IsClearOf (· == t)) :=
  isHereditary_isClearOf fun _ same => (Simple.isAtomic_congr same).trans atomic

theorem replacing_all (absent : ¬ source.Mentions t) :
    (replacing source t span).All fun d => ∀ s ∈ d, s.IsClearOf (· == t) :=
  fun e he => Complex.isClearOf_iff.1
    (isClearOf_iff_not_mentions.2 absent e.extender (extender_mem_of_holds he))

theorem contains_replacing (s : Simple) :
    (replacing source t span).extensions.contains s = (s == t) := by
  rw [replacing, contains_extensionsOf, List.contains_cons, List.contains_nil, Bool.or_false]

theorem enoughTargets_replacing (parts : List (Simple × Option (List Simple))) :
    (replacing source t span).enoughTargets parts = true := by
  have size : (replacing source t span).extensions.size = 1 := size_extensionsOf
  simp [ExtendContext.enoughTargets, size]

/-- A condition without argument is free of the target unless it is the target. -/
theorem isClearOf_of_plain {s : Simple} (plain : s.argument? = none) (other : (s == t) = false) :
    s.IsClearOf (· == t) := by
  intro x hx
  rcases Simple.mem_simples.1 hx with rfl | ⟨l, hl, -⟩
  · exact other
  · rw [plain] at hl
    cases hl

theorem argument?_eq_none_of_isFlat {d : Compound} (flat : (Item.compound d).isFlat = true) :
    ∀ s ∈ d, s.argument? = none :=
  fun s hs => Option.isNone_iff_eq_none.1 (List.all_eq_true.1 flat s hs)

/-! ## What items and selectors become -/

theorem outcomeFrom_parts_of_isFlat {d : Compound} (flat : (Item.compound d).isFlat = true) :
    outcomeFrom (d.mapM fun s => do return (s, ← s.extendArgument inner) : Extending _) authored
      = (.ok (d.map fun s => (s, none)), authored) := by
  refine ExtendContext.outcomeFrom_parts fun s hs l hl => ?_
  rw [argument?_eq_none_of_isFlat flat s hs] at hl
  cases hl

/-- **Nothing that an item becomes has the target**, nor has the item if it stays. -/
theorem extendItem_replacing (atomic : t.isAtomic = true) (absent : ¬ source.Mentions t)
    {item : Item} (flat : item.isFlat = true) (itself : Bool) (authored : List Complex) :
    Ensures (fun _ _ => True) ((replacing source t span).extendItem inner itself item) authored
      fun found _ => ∀ d ∈ found.getD [⟨[item], false⟩],
        AllCompounds (fun d => ∀ s ∈ d, s.IsClearOf (· == t)) d.items := by
  cases item with
  | combinator k => exact .pure (List.forall_mem_singleton.2 (allCompounds_combinators [k]))
  | compound d =>
    have lasting := (isHereditary_absent atomic).toIsLasting
    have clear : ∀ s ∈ d, (replacing source t span).extensions.contains s = false →
        s.IsClearOf (· == t) := by
      intro s hs untargeted
      rw [contains_replacing] at untargeted
      exact isClearOf_of_plain (argument?_eq_none_of_isFlat flat s hs) untargeted
    refine (Ensures.of_eq (Q := fun parts _ => parts = d.map fun s => (s, none))
      (outcomeFrom_parts_of_isFlat flat) trivial rfl).bind fun parts _ _ hparts => ?_
    subst hparts
    cases hchoices : (replacing source t span).compoundChoices (d.map fun s => (s, none)) with
    | none =>
      have untargeted := ExtendContext.compoundChoices_eq_none_iff.1 hchoices
      exact .pure (List.forall_mem_singleton.2
        (allCompounds_compound fun s hs => clear s hs (untargeted s hs)))
    | some choices =>
      have parts : ∀ part ∈ d.map fun s => (s, (none : Option (List Simple))),
          IsPart (fun s => (replacing source t span).Keeps s → s.IsClearOf (· == t)) part :=
        List.forall_mem_map.2 fun s hs => ⟨fun stays => clear s hs (stays rfl), nofun, nofun⟩
      -- a condition that stays is no target, and the extenders do not bring the target in
      have all := ExtendContext.all_of_mem_compoundChoices_of_keeps lasting
        (replacing_all absent) parts hchoices
      dsimp only
      rw [if_pos (enoughTargets_replacing _)]
      refine (Ensures.ofExcept fun found hfound => ?_).bind fun found _ _ hfound => .pure hfound
      exact ExtendContext.allCompounds_of_complexesOfChoices lasting all (absurd rfl) hfound

/-- The target alone is replaced by the extenders. -/
theorem compoundChoices_target : (replacing source t span).compoundChoices [(t, none)]
    = some [(extendersOf source t span).values.map .extended] := by
  have found : (replacing source t span).extensions.get? t = some (extendersOf source t span) := by
    rw [replacing, extensionsOf, OrderedMap.ofList, OrderedMap.get?_insertAll]
    simp [extendersOf]
  have choices : (replacing source t span).choicesFor (t, none)
      = some [(extendersOf source t span).values.map .extended] := by
    rw [ExtendContext.choicesFor, ExtendContext.substitutes?, found]
    rfl
  simp [ExtendContext.compoundChoices, choices]

/-- What the target itself becomes: the choices of the source, up to equivalence. -/
theorem extendItem_target (plain : t.argument? = none) {d : Complex} (hd : d ∈ source)
    (itself : Bool) (authored : List Complex) :
    Ensures (fun _ _ => True)
      ((replacing source t span).extendItem inner itself (.compound [t])) authored
      fun found _ => ∃ d' ∈ found.getD [], (d' == d) = true := by
  have flat : (Item.compound [t]).isFlat = true := by simp [Item.isFlat, plain]
  refine (Ensures.of_eq (Q := fun parts _ => parts = [(t, none)])
    (outcomeFrom_parts_of_isFlat flat) trivial rfl).bind fun parts _ _ hparts => ?_
  subst hparts
  rw [compoundChoices_target]
  dsimp only
  rw [if_pos (enoughTargets_replacing _)]
  refine (Ensures.ofExcept fun found hfound => ?_).bind fun found _ _ hfound => .pure hfound
  obtain ⟨e, he, -, same⟩ := exists_extender_of_mem hd t span
  obtain ⟨d', hd', eq⟩ := exists_mem_of_forall₂ (forall₂_of_mapM_ok hfound) (List.mem_map_of_mem he)
  obtain ⟨_, -, eq⟩ := exists_of_bind_ok eq
  obtain rfl := Except.ok.inj eq
  exact ⟨_, hd', same⟩

/-- The selectors `part` that replacing puts in the place of `c` are free of the target, and so
is `c` if it stays.  Nothing is put there only if `c` has the target and more than it, or if
the source has nothing. -/
structure IsReplaced (source : SelectorList) (t : Simple) (c : Complex)
    (part : Option (List Complex)) :
    Prop where
  clear : ∀ d ∈ part.getD [c], d.IsClearOf (· == t)
  mentioned : part ≠ none → SelectorList.Mentions [c] t
  filled : c.items = [.compound [t]] → part.getD [c] = [] → ∀ d ∈ source, d.items = []

/-- What a flat selector becomes is clear of the target. -/
theorem extendComplexWith_clear (atomic : t.isAtomic = true) (absent : ¬ source.Mentions t)
    (flat : c.isFlat = true) (authored : List Complex) :
    Ensures (fun _ _ => True) ((replacing source t span).extendComplexWith inner c) authored
      fun part _ => ∀ d ∈ part.getD [c], d.IsClearOf (· == t) := by
  have hereditary := isHereditary_absent atomic
  refine (ExtendContext.extendComplexWith_of_items hereditary.toIsLasting fun item hitem =>
    extendItem_replacing atomic absent (List.all_eq_true.1 flat item hitem)).mono
      fun part _ _ becomes => ?_
  cases part with
  | none => exact List.forall_mem_singleton.2 (Complex.isClearOf_iff.2 (becomes.2 rfl))
  | some l => exact fun d hd => hereditary.ofRow d (becomes.1 l rfl d hd)

/-- A selector that does not have the target stays. -/
theorem extendComplexWith_mentioned (flat : c.isFlat = true) (authored : List Complex) :
    Ensures (fun _ _ => True) ((replacing source t span).extendComplexWith inner c) authored
      fun part _ => part ≠ none → SelectorList.Mentions [c] t := by
  by_cases mentioned : SelectorList.Mentions [c] t
  · exact ⟨trivial, fun _ _ _ => mentioned⟩
  have clear := isClearOf_iff_not_mentions.2 mentioned c (List.mem_singleton_self c)
  have idle : outcomeFrom ((replacing source t span).extendComplexWith inner c) authored
      = (.ok none, authored) := by
    refine ExtendContext.extendComplexWith_idle
      (fun d hd => ExtendContext.leavesAlone_of_untargeted fun s hs => ?_) fun d hd s hs l hl => ?_
    · rw [contains_replacing]
      exact Complex.isClearOf_iff.1 clear d hd s hs s (Simple.mem_simples.2 (.inl rfl))
    · rw [argument?_eq_none_of_isFlat (List.all_eq_true.1 flat _ hd) s hs] at hl
      cases hl
  exact .of_eq idle trivial fun changed => absurd rfl changed

theorem items_ne_nil_of_beq {d d' : Complex} (same : (d' == d) = true) (h : d.items ≠ []) :
    d'.items ≠ [] := by
  intro empty
  have items := congrArg Complex.items (Complex.beq_iff.1 same)
  rw [Complex.items_canonical, Complex.items_canonical, empty, List.map_nil, eq_comm,
    List.map_eq_nil_iff] at items
  exact h items

/-- One compound with its choices weaves to the choices that are not empty. -/
theorem mem_weaveChoices_single {options : List Complex} {d : Complex} (hd : d ∈ options)
    (filled : d.items ≠ []) (lineBreak : Bool) :
    ⟨d.items, lineBreak || d.lineBreak⟩ ∈ ExtendContext.weaveChoices lineBreak [options] := by
  have woven : d.items ∈ (weave [d.items]).filter (!·.isEmpty) := by
    simp [weave, weaveWith, filled]
  refine List.mem_flatMap.2
    ⟨[d], mem_selections.2 (.cons hd .nil), List.mem_map.2 ⟨d.items, woven, ?_⟩⟩
  simp

/-- Something is put in the place of the target alone, if the source has something. -/
theorem extendComplexWith_filled (plain : t.argument? = none) (items : c.items = [.compound [t]])
    {d : Complex} (hd : d ∈ source) (filled : d.items ≠ []) (authored : List Complex) :
    Ensures (fun _ _ => True) ((replacing source t span).extendComplexWith inner c) authored
      fun part _ => part.getD [c] ≠ [] := by
  refine ExtendContext.extendComplexWith_result
    (S := fun _ part => ∃ d' ∈ part.getD [], (d' == d) = true)
    (fun item hitem itself authored' => ?_)
    (fun _ _ _ => List.cons_ne_nil _ _) fun parts hparts => ?_
  · rw [items, List.mem_singleton] at hitem
    subst hitem
    exact extendItem_target plain hd itself authored'
  · rw [items] at hparts ⊢
    obtain ⟨part, rest, ⟨d', hd', same⟩, others, rfl⟩ := List.forall₂_cons_left_iff.1 hparts
    obtain rfl := List.forall₂_nil_left_iff.1 others
    cases part with
    | none => cases hd'
    | some options =>
      have filled' := items_ne_nil_of_beq same filled
      exact List.ne_nil_of_mem (mem_weaveChoices_single hd' filled' _)

/-- What a flat selector becomes, all cases together. -/
theorem extendComplexWith_isReplaced (atomic : t.isAtomic = true) (absent : ¬ source.Mentions t)
    (flat : c.isFlat = true) (authored : List Complex) :
    Ensures (fun _ _ => True) ((replacing source t span).extendComplexWith inner c) authored
      fun part _ => IsReplaced source t c part := by
  have plain : t.argument? = none := by
    rw [Simple.isAtomic, Bool.and_eq_true] at atomic
    exact Option.isNone_iff_eq_none.1 atomic.2
  refine ⟨trivial, fun part hpart => ?_⟩
  exact {
    clear := (extendComplexWith_clear atomic absent flat authored).2 part hpart
    mentioned := (extendComplexWith_mentioned flat authored).2 part hpart
    filled := fun items empty d hd => not_not.1 fun filled =>
      (extendComplexWith_filled plain items hd filled authored).2 part hpart empty }

/-! ## The whole list -/

/-- **The target is gone, or the list stays** because nothing is left of any of its selectors. -/
theorem extendListWith_replacing
    (each : ∀ c ∈ l, ∀ authored, Ensures (fun _ _ => True)
      ((replacing source t span).extendComplexWith inner c) authored
        fun part _ => IsReplaced source t c part) :
    Ensures (fun _ _ => True) ((replacing source t span).extendListWith inner l) authored
      fun found _ =>
      ¬ SelectorList.Mentions (found.getD l) t ∨ found = none ∧
      ∀ c ∈ l, SelectorList.Mentions [c] t ∧
        (c.items = [.compound [t]] → ∀ d ∈ source, d.items = []) := by
  refine ExtendContext.extendListWith_result each (fun parts hparts empty => .inl ?_)
    (fun parts hparts empty => .inr ⟨rfl, fun c hc => ?_⟩) fun parts found hparts _ sub => .inl ?_
  · refine isClearOf_iff_not_mentions.1 fun c hc => ?_
    obtain ⟨part, hpart, replaced⟩ := exists_mem_of_forall₂ hparts hc
    obtain rfl := empty part hpart
    exact replaced.clear c (List.mem_singleton_self c)
  · -- nothing is left of any selector, so none of them stayed
    have became : List.Forall₂ (fun c choice => choice = [] → SelectorList.Mentions [c] t ∧
        (c.items = [.compound [t]] → ∀ d ∈ source, d.items = [])) l
        (List.zipWith (fun c part => part.getD [c]) l parts) := by
      refine forall₂_zipWith hparts fun c _ part replaced empty => ?_
      refine ⟨replaced.mentioned ?_, fun items => replaced.filled items empty⟩
      rintro rfl
      cases empty
    obtain ⟨choice, hchoice, h⟩ := exists_mem_of_forall₂ became hc
    exact h (List.flatten_eq_nil_iff.1 empty choice hchoice)
  · refine isClearOf_iff_not_mentions.1 fun d hd => ?_
    have became : List.Forall₂ (fun _ choice => ∀ d ∈ choice, d.IsClearOf (· == t)) l
        (List.zipWith (fun c part => part.getD [c]) l parts) :=
      forall₂_zipWith hparts fun _ _ _ replaced => replaced.clear
    obtain ⟨choice, hchoice, hd⟩ := List.mem_flatten.1 (sub hd)
    obtain ⟨c, -, clear⟩ := exists_mem_of_forall₂ became.flip hchoice
    exact clear d hd

end Replacing

/-- **Replacing takes its target away.**  In selectors without arguments let a condition without
argument, not that of an element, be replaced by selectors that do not mention it.  The result does
not mention it; or the list stays, and then every selector has the target, and none is the target
alone unless the source has nothing to put in its place. -/
theorem replace_removes {l source : SelectorList} {t : Simple} (flat : ∀ c ∈ l, c.isFlat = true)
    (atomic : t.isAtomic = true) (absent : ¬ source.Mentions t) (span : Span) :
    ∃ r, l.replace source [.ofCompound [t]] span = .ok r ∧
      (¬ r.Mentions t ∨ r = l ∧ ∀ c ∈ l, SelectorList.Mentions [c] t ∧
        (c.items = [.compound [t]] → ∀ d ∈ source, d.items = [])) := by
  refine exists_applyTargets_single fun authored => ?_
  have replaced : Ensures (fun _ _ => True) ((replacing source t span).extendList l) authored
    fun found _ =>
      ¬ SelectorList.Mentions (found.getD l) t ∨ found = none ∧
        ∀ c ∈ l, SelectorList.Mentions [c] t ∧
        (c.items = [.compound [t]] → ∀ d ∈ source, d.items = []) :=
    extendListWith_replacing fun c hc => extendComplexWith_isReplaced atomic absent (flat c hc)
  refine (applyTarget_yields l authored).of_ensures (replaced.bind fun found _ _ result => .pure ?_)
  refine result.imp_right ?_
  rintro ⟨rfl, every⟩
  exact ⟨rfl, every⟩

/-- In `.t, #i.t > .a.t:hover`, with `.x ~ .y` and `:not(.z)` in the place of `.t`. -/
theorem replace_removes_everywhere :
    let t : Simple := .className "t"
    let l : SelectorList := [.ofCompound [t], ⟨[.compound [.idName "i", t], .combinator .child,
      .compound [.className "a", t, .pseudo (.ofClass "hover")]], false⟩]
    let source : SelectorList := [⟨[.compound [.className "x"], .combinator .followingSibling,
      .compound [.className "y"]], false⟩,
      .ofCompound [.pseudo (.around "not" [.ofCompound [.className "z"]])]]
    (∀ c ∈ l, c.isFlat = true) ∧ t.isAtomic = true ∧ ¬ source.Mentions t ∧
      ∃ r, l.replace source [.ofCompound [t]] default = .ok r ∧ ¬ r.Mentions t := by
  intro t l source
  have flat : ∀ c ∈ l, c.isFlat = true := by decide
  have atomic : t.isAtomic = true := by decide
  have absent : ¬ source.Mentions t := by
    rw [mentions_iff, Bool.not_eq_true]
    decide +kernel
  obtain ⟨r, run, removed | ⟨-, every⟩⟩ := replace_removes flat atomic absent default
  · exact ⟨flat, atomic, absent, r, run, removed⟩
  · have empty := (every (.ofCompound [t]) List.mem_cons_self).2 rfl _ List.mem_cons_self
    cases empty

/-- `#i.t` stays: an element with the id `i` cannot have the id `j`, too. -/
example : ((SelectorList.replace [.ofCompound [.idName "i", .className "t"]]
    [.ofCompound [.idName "j"]] [.ofCompound [.className "t"]] default).toOption.map
      (List.map Complex.text)) = some ["#i.t"] := by decide +kernel

end SelectorAlgebra
