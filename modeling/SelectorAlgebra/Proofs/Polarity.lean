import Mathlib
import SelectorAlgebra.Proofs.ClassSubstitution
import SelectorAlgebra.Proofs.OneShotTargets
import SelectorAlgebra.Proofs.Reflexivity

/-!
# Proofs/Polarity — extending inside an argument widens `:is` and narrows `:not`

`extend_respects_polarity`: let compounds of classes extend a class that stands in the argument of a
pseudo-class, a list of compounds of classes.  Around alternatives, `:is` and its kin, the result is
above what was extended; around what is excluded, `:not`, it is below.

The argument becomes the substitution in it, which has more choices (Proofs/ClassSubstitution).  It
may be dealt out to several `:not`, but to one pseudo selector of any other kind (`Pseudo.Shares`).
So the result is known, and the two directions are two rules about pseudo selectors around lists:
alternatives are above alternatives that they are above (`isSuperselector_alternatives`), and
exclusions are above exclusions that exclude more (`isSuperselector_exclusions`).
-/

namespace SelectorAlgebra

/-! ## The same pseudo selector around several lists -/

/-- The pseudo selector once around each of the lists. -/
def Pseudo.aroundEach (p : Pseudo) (lists : List SelectorList) : Compound :=
  lists.map fun l => .pseudo (p.withSelector l)

/-- The kinds whose argument lists alternatives. -/
def PseudoKind.isAlternatives : PseudoKind → Bool
  | .is | .matchesAny | .any | .whereAny => true
  | _ => false

section Around

variable {p : Pseudo} {l l' : SelectorList} {lists lists' : List SelectorList}

theorem Pseudo.aroundEach_self (hl : p.selector = some l) : p.aroundEach [l] = [.pseudo p] := by
  cases p
  cases hl
  rfl

/-- Pseudos of one name around several lists are covered one by one. -/
theorem covers_aroundEach {sup : ItemsRelation} {parents : List Item}
    (met : ∀ l ∈ lists, (p.withSelector l).metBy sup l (p.aroundEach lists') parents = true) :
    covers sup (p.aroundEach lists) (p.aroundEach lists') parents = true := by
  rw [covers, Bool.and_eq_true, List.all_eq_true, List.all_eq_true]
  refine ⟨List.forall_mem_map.2 met, List.forall_mem_map.2 fun l _ => ?_⟩
  simp [Simple.isPlainPseudoElement, Pseudo.withSelector]

/-- **Alternatives are above those that they are above.** -/
theorem isSuperselector_alternatives (kind : p.kind.isAlternatives = true)
    (isClass : p.isClass = true) (h : l.isSuperselector l' = true) :
    Compound.isSuperselector (p.aroundEach [l]) (p.aroundEach [l']) = true := by
  refine covers_aroundEach (List.forall_mem_singleton.2 ?_)
  have argument : l' ∈ (p.aroundEach [l']).argumentsOf p.name p.isElement :=
    Compound.mem_argumentsOf (p := p.withSelector l') (List.mem_singleton_self _) rfl
  have element : p.isElement = false := by simpa [Pseudo.isClass_eq_not_isElement] using isClass
  rw [element] at argument
  have among := List.any_eq_true.2 ⟨l', argument, h⟩
  rw [Pseudo.metBy, show (p.withSelector l).kind = p.kind from rfl]
  cases which : p.kind with
  | is | matchesAny | any | whereAny => exact Bool.or_eq_true_iff.2 (.inl among)
  | _ =>
    rw [which] at kind
    cases kind

/-- **Exclusions are above those that exclude more.** -/
theorem isSuperselector_exclusions (kind : p.kind = .not)
    (h : SelectorList.isSuperselector lists'.flatten lists.flatten = true) :
    Compound.isSuperselector (p.aroundEach lists) (p.aroundEach lists') = true := by
  refine covers_aroundEach fun l hl => ?_
  rw [Pseudo.metBy, show (p.withSelector l).kind = .not from kind]
  refine List.all_eq_true.2 fun branch hbranch => List.any_eq_true.2 ?_
  obtain ⟨c, hc, above⟩ := List.any_eq_true.1
    (List.all_eq_true.1 h branch (List.mem_flatten.2 ⟨l, hl, hbranch⟩))
  obtain ⟨l', hl', hc⟩ := List.mem_flatten.1 hc
  refine ⟨.pseudo (p.withSelector l'), List.mem_map_of_mem hl', ?_⟩
  have excluded : listCovers itemsSuperselector l' [branch] = true :=
    List.all_eq_true.2 (List.forall_mem_singleton.2 (List.any_eq_true.2 ⟨c, hc, above⟩))
  simp [Simple.rulesOut, Pseudo.withSelector, excluded]

end Around

/-! ## What stands for an argument -/

/-- The lists share out the substitution in the argument `l` of `p`, and only a `:not` has
several. -/
structure Pseudo.Shares (p : Pseudo) (source : SelectorList) (target : List String)
    (l : SelectorList) (lists : List SelectorList) : Prop where
  substitution : IsSubstitution source target l lists.flatten
  filled : lists ≠ []
  alone : p.kind ≠ .not → ∃ l', lists = [l']

/-- The selector is the pseudo selector once around each list that shares out the substitution. -/
def Complex.IsGrown (c : Complex) (p : Pseudo) (source : SelectorList) (t : String)
    (l : SelectorList) :
    Prop :=
  ∃ lists, p.Shares source [t] l lists ∧ c.items = [.compound (p.aroundEach lists)]

section Shares

variable {p : Pseudo} {source l extended : SelectorList} {target : List String}

theorem Pseudo.flattenChoice_classes {c : Complex} (hc : c.IsClassCompound) :
    p.flattenChoice c = [c] := by
  obtain ⟨names, hc⟩ := hc
  have single : c.singleCompound? = some (classes names) := Complex.singleCompound?_eq_some_iff.2 hc
  rw [Pseudo.flattenChoice, single]
  split
  · rename_i inner same
    have mem : .pseudo inner ∈ classes names := by simp [Option.some.inj same]
    obtain ⟨name, -, ⟨⟩⟩ := List.mem_map.1 mem
  · rfl

/-- Compounds of classes have nothing to flatten, so the extended argument is used as it is. -/
theorem Pseudo.choicesFor_classes (h : AreClassCompounds extended) :
    p.choicesFor l extended = extended := by
  have short : (extended.filter fun c => c.items.length ≤ 1) = extended :=
    List.filter_eq_self.2 fun c hc => by simp [(h c hc).items_eq]
  have flat : extended.flatMap p.flattenChoice = extended :=
    (List.flatMap_congr fun c hc => Pseudo.flattenChoice_classes (h c hc)).trans (by simp)
  rw [Pseudo.choicesFor, short, ite_self, flat]

/-- Extending the argument leaves some choices of it, and they are shared out. -/
theorem Pseudo.exists_withExtended (h : IsSubstitution source target l extended)
    (filled : extended ≠ []) :
    ∃ lists, p.Shares source target l lists ∧
      (p.withExtended l extended).map (·.map .pseudo) = some (p.aroundEach lists) := by
  obtain ⟨c, rest, rfl⟩ := List.exists_cons_of_ne_nil filled
  rw [Pseudo.withExtended, Pseudo.choicesFor_classes h.areClasses]
  dsimp only
  split
  · rename_i split
    refine ⟨(c :: rest).map ([·]), ⟨?_, by simp, fun other => ?_⟩, ?_⟩
    · rwa [← List.flatMap_def, List.flatMap_singleton']
    · simp [other] at split
    · simp [Pseudo.aroundEach]
  · exact ⟨[c :: rest], ⟨by simpa using h, by simp, fun _ => ⟨_, rfl⟩⟩, rfl⟩

theorem Pseudo.shares_self (h : IsSubstitution source target l l) : p.Shares source target l [l] :=
  ⟨by simpa using h, by simp, fun _ => ⟨l, rfl⟩⟩

/-- **The argument of a pseudo selector becomes the substitution in it, shared out.** -/
theorem extendArgument_classes {inner : SelectorList → Extending (Option SelectorList)}
    {authored : List Complex} (hl : p.selector = some l)
    (h : Yields (inner l) authored fun found _ => IsSubstitution source target l (found.getD l)) :
    Yields ((Simple.pseudo p).extendArgument inner) authored fun replaced _ =>
      ∃ lists, p.Shares source target l lists ∧
        replaced.getD [.pseudo p] = p.aroundEach lists := by
  have self : IsSubstitution source target l l → ∃ lists, p.Shares source target l lists ∧
      [.pseudo p] = p.aroundEach lists := fun own =>
    ⟨[l], Pseudo.shares_self own, (Pseudo.aroundEach_self hl).symm⟩
  simp only [Simple.extendArgument, hl]
  refine h.bind fun found _ hfound => ?_
  cases found with
  | none => exact .pure (self hfound)
  | some extended =>
    rw [Option.getD_some] at hfound
    refine .pure ?_
    rcases eq_or_ne extended [] with rfl | filled
    · obtain rfl := hfound.eq_nil
      have unchanged : p.withExtended [] [] = none := by
        rw [Pseudo.withExtended, Pseudo.choicesFor_classes hfound.areClasses]
      rw [unchanged]
      exact self hfound
    · obtain ⟨lists, shares, same⟩ := Pseudo.exists_withExtended (p := p) hfound filled
      exact ⟨lists, shares, by rw [same]; rfl⟩

end Shares

/-! ## Compounds of one pseudo selector -/

namespace ExtendContext

variable {inner : SelectorList → Extending (Option SelectorList)} {authored : List Complex}
  {source l : SelectorList} {t : String} {span : Span} {p : Pseudo}

/-- Conditions that only stand for themselves make up their own compound. -/
theorem complexesOfChoices_kept {ctx : ExtendContext} (hm : ctx.mode ≠ .replace) (own : Bool)
    {kept : List Compound} (filled : kept ≠ []) :
    ctx.complexesOfChoices own (kept.map fun conditions => [.kept conditions])
      = .ok [.ofCompound kept.flatten] := by
  have all : selections (kept.map fun conditions => [Substitute.kept conditions])
      = [kept.map Substitute.kept] := by
    rw [← selections_singletons, List.map_map]
    rfl
  unfold complexesOfChoices
  split
  · rename_i only same
    obtain ⟨conditions, rfl, rfl⟩ := List.map_eq_singleton_iff.1 same
    rw [List.flatten_singleton]
    rfl
  · rw [complexesOfSelections_cons hm all, complexesOf_kept]
    exact congrArg Except.ok (trim_singleton _)

/-- The choices for a compound of one condition are those for the condition. -/
theorem compoundChoices_singleton (ctx : ExtendContext) (part : Simple × Option (List Simple)) :
    ctx.compoundChoices [part] = ctx.choicesFor part := by
  cases h : ctx.choicesFor part <;> simp [compoundChoices, h]

/-- No pseudo is a target of a substitution for classes. -/
theorem substitutes?_pseudo {target : List String} (q : Pseudo) :
    (substitution source target span).substitutes? (.pseudo q) = none := by
  have other : (extensionsOf source (classes target) span).contains (.pseudo q) = false := by
    rw [contains_extensionsOf, List.contains_eq_any_beq, List.any_eq_false]
    intro s hs same
    obtain ⟨name, -, rfl⟩ := List.mem_map.1 hs
    rcases q with ⟨_, _, _ | l⟩ <;> cases Simple.beq_iff.1 same
  rw [OrderedMap.contains_eq_isSome, Option.isSome_eq_false_iff, Option.isNone_iff_eq_none] at other
  rw [substitutes?, substitution, other]
  rfl

/-- A pseudo selector is no target, so it is kept around each of the lists. -/
theorem choicesFor_aroundEach {target : List String} (lists : List SelectorList) :
    (substitution source target span).choicesFor (.pseudo p, some (p.aroundEach lists))
      = some (((p.aroundEach lists).map ([·])).map fun conditions => [.kept conditions]) := by
  simp [choicesFor, Pseudo.aroundEach, substitutes?_pseudo]

section Argument

variable (hp : p.selector = some l)
  (h : ∀ authored, Yields (inner l) authored fun found _ =>
    IsSubstitution source [t] l (found.getD l))

include hp h

/-- **A pseudo selector becomes the same one around the substitution in its
argument**, shared out. -/
theorem extendCompound_pseudo (own : Bool) :
    Yields ((substitution source [t] span).extendCompound inner own [.pseudo p]) authored
      fun found _ =>
      ∃ lists, p.Shares source [t] l lists ∧
        found.getD [.ofCompound [.pseudo p]] = [.ofCompound (p.aroundEach lists)] := by
  simp only [extendCompound, List.mapM_cons, List.mapM_nil, bind_assoc, pure_bind,
    compoundChoices_singleton]
  refine (extendArgument_classes hp (h _)).bind fun replaced _ hreplaced => ?_
  obtain ⟨lists, shares, same⟩ := hreplaced
  cases replaced with
  | none =>
    have unchosen : (substitution source [t] span).choicesFor (.pseudo p, none) = none := by
      rw [choicesFor, substitutes?_pseudo]
      rfl
    rw [unchosen]
    exact .pure ⟨lists, shares, congrArg (fun c => [Complex.ofCompound c]) same⟩
  | some conditions =>
    obtain rfl : conditions = p.aroundEach lists := same
    have enough : (substitution source [t] span).enoughTargets
        [(.pseudo p, some (p.aroundEach lists))] = true := by
      have size : (substitution source [t] span).extensions.size = 1 := size_extensionsOf
      simp [enoughTargets, size]
    have mode : (substitution source [t] span).mode ≠ .replace := by simp [substitution]
    have filled : (p.aroundEach lists).map ([·]) ≠ [] := by
      simpa [Pseudo.aroundEach] using shares.filled
    rw [choicesFor_aroundEach]
    dsimp only
    rw [if_pos enough, complexesOfChoices_kept mode own filled, ← List.flatMap_def,
      List.flatMap_singleton']
    exact .pure ⟨lists, shares, rfl⟩

/-- A selector of one pseudo grows into a selector of pseudos of its name. -/
theorem extendComplexWith_pseudo {c : Complex} (hc : c.items = [.compound [.pseudo p]]) :
    Yields ((substitution source [t] span).extendComplexWith inner c) authored fun found _ =>
      ∃ d : Complex, d.IsGrown p source t l ∧ found.getD [c] = [d] := by
  refine (extendComplexWith_single hc (fun own _ => extendCompound_pseudo hp h own)
    fun found hfound d hd empty => ?_).mono fun found _ hfound => ?_
  · obtain ⟨lists, -, same⟩ := hfound
    obtain rfl : found = [.ofCompound (p.aroundEach lists)] := same
    obtain rfl := List.mem_singleton.1 hd
    cases empty
  · obtain ⟨part, ⟨lists, shares, same⟩, rfl⟩ := hfound
    cases part with
    | none =>
      refine ⟨c, ⟨lists, shares, ?_⟩, rfl⟩
      rw [hc]
      simpa [Complex.ofCompound] using same
    | some found =>
      obtain rfl : found = [.ofCompound (p.aroundEach lists)] := same
      exact ⟨_, ⟨lists, shares, rfl⟩, rfl⟩

/-- **A list of one such selector grows with it.** -/
theorem extendListWith_pseudo {c : Complex} (hc : c.items = [.compound [.pseudo p]]) :
    Yields ((substitution source [t] span).extendListWith inner [c]) authored fun found _ =>
      ∃ d : Complex, d.IsGrown p source t l ∧ found.getD [c] = [d] := by
  have grown : Yields ((substitution source [t] span).extendListWith inner [c]) authored
    fun found _ =>
      List.Forall₂ (fun _ d : Complex => d.IsGrown p source t l) [c] (found.getD [c]) := by
    refine extendListWith_yields (P := List.Forall₂ fun _ d : Complex => d.IsGrown p source t l)
      .nil (fun h h' => List.rel_append h h') (fun {m} authored hm => ?_) (fun rest => ?_)
      fun c' hc' _ => ?_
    · obtain ⟨d, _, hd, rest, rfl⟩ := List.forall₂_cons_left_iff.1 hm
      obtain rfl := List.forall₂_nil_left_iff.1 rest
      rw [trim_singleton]
      exact hm
    · cases rest
    · obtain rfl := List.mem_singleton.1 hc'
      refine (extendComplexWith_pseudo hp h hc).mono fun found _ hfound => ?_
      obtain ⟨d, hd, same⟩ := hfound
      rw [same]
      exact .cons hd .nil
  refine grown.mono fun found _ hfound => ?_
  obtain ⟨d, _, hd, rest, same⟩ := List.forall₂_cons_left_iff.1 hfound
  obtain rfl := List.forall₂_nil_left_iff.1 rest
  exact ⟨d, hd, same⟩

end Argument

/-- The same at the depth the list needs. -/
theorem extendList_pseudo (hs : AreClassCompounds source) (hp : p.selector = some l)
    (hl : AreClassCompounds l) {c : Complex} (hc : c.items = [.compound [.pseudo p]]) :
    Yields ((substitution source [t] span).extendList [c]) authored fun found _ =>
      ∃ d : Complex, d.IsGrown p source t l ∧ found.getD [c] = [d] := by
  have nested : SelectorList.nesting [c] = nestingOfList l + 1 := by
    obtain ⟨items, lineBreak⟩ := c
    obtain rfl : items = [.compound [.pseudo p]] := hc
    rcases p with ⟨_, _, _ | _⟩
    · cases hp
    · cases hp
      simp [SelectorList.nesting, nestingOfList, nestingOfItems, nestingOfCompound, Simple.nesting]
  rw [extendList, nested]
  exact extendListWith_pseudo hp (fun authored => extendListWith_classes hs hl) hc

end ExtendContext

/-! ## The two directions -/

section Directions

variable {p : Pseudo} {source l m : SelectorList} {target : List String} {lists : List SelectorList}

/-- A substitution is above everything that substitution on names gives. -/
theorem IsSubstitution.isSuperselector {found : SelectorList}
    (h : IsSubstitution source target l found) (hl : AreClassCompounds l)
    (sub : m ⊆ l.substituted source target) :
    found.isSuperselector m = true :=
  isSuperselector_of_subsets h.areClasses
    (fun d hd => areClassCompounds_substituted hl target d (sub hd))
    fun d hd => h.reaches d (sub hd)

/-- And below it. -/
theorem IsSubstitution.isSuperselector_substituted {found : SelectorList}
    (h : IsSubstitution source target l found) (hl : AreClassCompounds l) :
    (l.substituted source target).isSuperselector found = true :=
  isSuperselector_of_subsets (areClassCompounds_substituted hl target) h.areClasses h.within

theorem subset_substituted :
    l ⊆ l.substituted source target := fun _ hc => mem_substituted.2 (.inl hc)

namespace Pseudo.Shares

theorem exists_alternatives (h : p.Shares source target l lists)
    (kind : p.kind.isAlternatives = true) :
    ∃ l', lists = [l'] ∧ IsSubstitution source target l l' := by
  obtain ⟨l', rfl⟩ := h.alone fun not => by
    rw [not] at kind
    cases kind
  exact ⟨l', rfl, by simpa using h.substitution⟩

/-- **Alternatives become more.** -/
theorem alternatives_above (h : p.Shares source target l lists) (hl : AreClassCompounds l)
    (kind : p.kind.isAlternatives = true) (isClass : p.isClass = true)
    (sub : m ⊆ l.substituted source target) :
    Compound.isSuperselector (p.aroundEach lists) (p.aroundEach [m]) = true := by
  obtain ⟨l', rfl, hl'⟩ := h.exists_alternatives kind
  exact isSuperselector_alternatives kind isClass (hl'.isSuperselector hl sub)

/-- For alternatives the extended list is no larger than substitution on names. -/
theorem alternatives_below (h : p.Shares source target l lists) (hl : AreClassCompounds l)
    (kind : p.kind.isAlternatives = true) (isClass : p.isClass = true) :
    Compound.isSuperselector (p.aroundEach [l.substituted source target]) (p.aroundEach lists)
      = true := by
  obtain ⟨l', rfl, hl'⟩ := h.exists_alternatives kind
  exact isSuperselector_alternatives kind isClass (hl'.isSuperselector_substituted hl)

/-- **More is excluded.** -/
theorem exclusions_below (h : p.Shares source target l lists) (hl : AreClassCompounds l)
    (kind : p.kind = .not) (sub : m ⊆ l.substituted source target) :
    Compound.isSuperselector (p.aroundEach [m]) (p.aroundEach lists) = true := by
  refine isSuperselector_exclusions kind ?_
  rw [List.flatten_singleton]
  exact h.substitution.isSuperselector hl sub

/-- For exclusions the direction turns around. -/
theorem exclusions_above (h : p.Shares source target l lists) (hl : AreClassCompounds l)
    (kind : p.kind = .not) :
    Compound.isSuperselector (p.aroundEach lists) (p.aroundEach [l.substituted source target])
      = true := by
  refine isSuperselector_exclusions kind ?_
  rw [List.flatten_singleton]
  exact h.substitution.isSuperselector_substituted hl

end Pseudo.Shares

end Directions

theorem isSuperselector_compound {c d : Complex} {x y : Compound} (hc : c.items = [.compound x])
    (hd : d.items = [.compound y]) :
    SelectorList.isSuperselector [c] [d] = x.isSuperselector y := by
  simp [SelectorList.isSuperselector, listCovers, hc, hd, itemsSuperselector_compound]

theorem isAlternatives_of_name {p : Pseudo}
    (h : p.normalizedName ∈ ["is", "matches", "any", "where"]) :
    p.kind.isAlternatives = true := by
  rw [Pseudo.kind]
  simp only [List.mem_cons, List.not_mem_nil, or_false] at h
  rcases h with h | h | h | h <;> rw [h] <;> rfl

/-- **Extending a class in the argument of a pseudo-class widens alternatives and narrows
exclusions**: it means the same as the pseudo-class around the substitution in the argument. -/
theorem extend_respects_polarity {p : Pseudo} {l source : SelectorList} {t : String}
    {target : Complex} (isClass : p.isClass = true) (hp : p.selector = some l)
    (hl : AreClassCompounds l) (hs : AreClassCompounds source)
    (ht : target.items = [.compound [.className t]]) (lineBreak : Bool) (span : Span) :
    let selector : SelectorList := [⟨[.compound [.pseudo p]], lineBreak⟩]
    let substituted : SelectorList :=
      [.ofCompound [.pseudo (p.withSelector (l.substituted source [t]))]]
    ∃ r : SelectorList, selector.extend source [target] span = .ok r ∧
      (p.normalizedName ∈ ["is", "matches", "any", "where"] → r.isSuperselector selector = true ∧
        r.isSuperselector substituted = true ∧ substituted.isSuperselector r = true) ∧
      (p.normalizedName = "not" → selector.isSuperselector r = true ∧
        r.isSuperselector substituted = true ∧ substituted.isSuperselector r = true) := by
  intro selector substituted
  obtain ⟨r, run, d, ⟨lists, shares, hd⟩, rfl⟩ : ∃ r, selector.extend source [target] span = .ok r ∧
      ∃ d, Complex.IsGrown d p source t l ∧ r = [d] :=
    exists_applyTargets_of_single (Complex.singleCompound?_eq_some_iff.2 ht) fun _ =>
      (ExtendContext.extendList_pseudo hs hp hl rfl).bind fun found _ h => .pure h
  have itself : [.pseudo p] = p.aroundEach [l] := (Pseudo.aroundEach_self hp).symm
  refine ⟨[d], run, fun name => ?_, fun name => ?_⟩
  · have kind := isAlternatives_of_name name
    rw [isSuperselector_compound hd rfl, isSuperselector_compound hd rfl,
      isSuperselector_compound rfl hd, itself]
    exact ⟨shares.alternatives_above hl kind isClass subset_substituted,
      shares.alternatives_above hl kind isClass (List.Subset.refl _),
      shares.alternatives_below hl kind isClass⟩
  · have kind : p.kind = .not := by
      rw [Pseudo.kind, name]
      rfl
    rw [isSuperselector_compound rfl hd, isSuperselector_compound hd rfl,
      isSuperselector_compound rfl hd, itself]
    exact ⟨shares.exclusions_below hl kind subset_substituted, shares.exclusions_above hl kind,
      shares.exclusions_below hl kind (List.Subset.refl _)⟩

/-- With `.x` extending `.a`, the selector `:not(.a.b)` is narrowed to `:not(.a.b):not(.b.x)`, and
`:-moz-any(.a.b)` is widened to `:-moz-any(.a.b, .b.x)`. -/
theorem extend_respects_polarity_not_any :
    let around (name : String) : SelectorList :=
      [.ofCompound [.pseudo (.around name [.ofCompound (classes ["a", "b"])])]]
    let source : SelectorList := [.ofCompound (classes ["x"])]
    let target : Complex := .ofCompound [.className "a"]
    (∃ r : SelectorList, (around "not").extend source [target] default = .ok r ∧
      r.text = ":not(.a.b):not(.b.x)" ∧ (around "not").isSuperselector r = true) ∧
    ∃ r : SelectorList, (around "-moz-any").extend source [target] default = .ok r ∧
      r.text = ":-moz-any(.a.b, .b.x)" ∧ r.isSuperselector (around "-moz-any") = true := by
  intro around source target
  have areClasses : AreClassCompounds [.ofCompound (classes ["a", "b"])] := by
    simp [AreClassCompounds]
  have sources : AreClassCompounds source := by simp [AreClassCompounds, source]
  have single : target.items = [.compound [.className "a"]] := rfl
  have excluded : ((around "not").extend source [target] default).toOption.map SelectorList.text
      = some ":not(.a.b):not(.b.x)" := by decide +kernel
  have listed : ((around "-moz-any").extend source [target] default).toOption.map SelectorList.text
      = some ":-moz-any(.a.b, .b.x)" := by decide +kernel
  refine ⟨?_, ?_⟩
  · obtain ⟨r, run, -, below⟩ := extend_respects_polarity (p := .around "not" _)
      (by decide +kernel) rfl areClasses sources single false default
    rw [show (around "not").extend source [target] default = .ok r from run] at excluded
    exact ⟨r, run, Option.some.inj excluded, (below (by decide +kernel)).1⟩
  · obtain ⟨r, run, above, -⟩ := extend_respects_polarity (p := .around "-moz-any" _)
      (by decide +kernel) rfl areClasses sources single false default
    rw [show (around "-moz-any").extend source [target] default = .ok r from run] at listed
    exact ⟨r, run, Option.some.inj listed, (above (by decide +kernel)).1⟩

end SelectorAlgebra
