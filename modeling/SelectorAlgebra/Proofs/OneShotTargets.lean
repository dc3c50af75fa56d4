import Mathlib
import SelectorAlgebra.Proofs.Frame
import SelectorAlgebra.Proofs.MediaFree
import SelectorAlgebra.Proofs.MetTargets

/-!
# Proofs/OneShotTargets — the targets of extending and replacing outside a style sheet

* `refused_iff_complex_target` — the two operations are refused exactly if a target is not a single
  compound, and for no other reason: the error names the first such target.
* `unmet_targets_change_nothing` — a selector stays as it is if no compound in it, at any depth, has
  all conditions of a target.

The targets are taken one after the other, so both follow from what holds of one
(`exists_applyTargets`).  The engine of the second is `leavesAlone_iff`: a compound is left alone
exactly if it does not have the whole target.  Which conditions are met is only counted, and the
count is right because neither side counts a condition twice.
-/

namespace SelectorAlgebra

section OneShot

variable {mode : ExtendMode} {l source targets : SelectorList} {target : Compound} {span : Span}

/-! ## One target after the other -/

theorem isMediaFree_extensionsOf {sources : SourceSpecificity} {media : Option MediaContext} :
    ExtendContext.IsMediaFree ⟨mode, sources, extensionsOf source target span, media⟩ := by
  intro e he
  obtain ⟨s, -, c, -, rfl⟩ := exists_of_holds he
  rfl

/-- One target is always applied, since a one-shot extension has no media context. -/
theorem applyTarget_yields (l : SelectorList) (authored : List Complex) :
    Yields (applyTarget mode source span l target) authored fun _ _ => True :=
  (ExtendContext.extendList_mediaFree isMediaFree_extensionsOf l authored).bind fun _ _ _ =>
    .pure trivial

/-- **What every target keeps, all of them keep**, and there is a result. -/
theorem exists_applyTargets {I : SelectorList → Prop}
    (step : ∀ c ∈ targets, ∃ target, c.singleCompound? = some target ∧
      ∀ reached authored, I reached →
      Yields (applyTarget mode source span reached target) authored fun found _ => I found)
    (start : I l) : ∃ found, applyTargets mode l source targets span = .ok found ∧ I found := by
  obtain ⟨compounds, hcompounds, steps⟩ : ∃ compounds, targets.compoundTargets = .ok compounds ∧
      List.Forall₂ (fun _ target => ∀ reached authored, I reached →
        Yields (applyTarget mode source span reached target) authored fun found _ => I found)
        targets compounds := by
    refine exists_mapM_ok fun c hc => ?_
    obtain ⟨target, single, h⟩ := step c hc
    exact ⟨target, by rw [single], h⟩
  have keeps : ∀ target ∈ compounds, ∀ reached authored, I reached →
      Yields (applyTarget mode source span reached target) authored fun found _ => I found := by
    intro target mem
    obtain ⟨_, -, h⟩ := exists_mem_of_forall₂ steps.flip mem
    exact h
  obtain ⟨found, _, run, hfound⟩ := Yields.foldlM keeps start
    (s := if l.isInvisible then [] else List.foldl addDistinct [] l)
  refine ⟨found, ?_, hfound⟩
  rw [applyTargets, hcompounds]
  exact congrArg Prod.fst run

/-- What holds of the one target there is. -/
theorem exists_applyTargets_of_single {Q : SelectorList → Prop} {c : Complex}
    (hc : c.singleCompound? = some target)
    (h : ∀ authored, Yields (applyTarget mode source span l target) authored
      fun found _ => Q found) :
    ∃ found, applyTargets mode l source [c] span = .ok found ∧ Q found := by
  have targets : SelectorList.compoundTargets [c] = .ok [target] := by
    rw [SelectorList.compoundTargets, List.mapM_cons, hc]
    rfl
  obtain ⟨found, _, run, hfound⟩ : Yields ([target].foldlM (applyTarget mode source span) l)
      (if l.isInvisible then [] else List.foldl addDistinct [] l) fun found _ => Q found :=
    (h _).bind fun _ _ hfound => .pure hfound
  refine ⟨found, ?_, hfound⟩
  rw [applyTargets, targets]
  exact congrArg Prod.fst run

theorem exists_applyTargets_single {Q : SelectorList → Prop}
    (h : ∀ authored, Yields (applyTarget mode source span l target) authored
      fun found _ => Q found) :
    ∃ found, applyTargets mode l source [.ofCompound target] span = .ok found ∧ Q found :=
  exists_applyTargets_of_single rfl h

/-! ## Refusals -/

/-- The first target that is not a single compound is named. -/
theorem compoundTargets_refused {before after : SelectorList} {c : Complex}
    (single : ∀ d ∈ before, ∃ target, d.singleCompound? = some target)
    (h : c.singleCompound? = none) :
    SelectorList.compoundTargets (before ++ c :: after) = .error (.complexTarget c) := by
  induction before with
  | nil =>
    rw [List.nil_append, SelectorList.compoundTargets, List.mapM_cons, h]
    rfl
  | cons d before ih =>
    obtain ⟨target, hd⟩ := single d List.mem_cons_self
    have rest := ih fun d' hd' => single d' (List.mem_cons_of_mem _ hd')
    rw [SelectorList.compoundTargets] at rest ⊢
    rw [List.cons_append, List.mapM_cons, hd, rest]
    rfl

/-- The first target that is not a compound is the one that is reported. -/
theorem applyTargets_refused {before after : SelectorList} {c : Complex}
    (single : ∀ d ∈ before, ∃ target, d.singleCompound? = some target)
    (h : c.singleCompound? = none) :
    applyTargets mode l source (before ++ c :: after) span = .error (.complexTarget c) := by
  rw [applyTargets, compoundTargets_refused single h]
  rfl

theorem applyTargets_accepted (single : ∀ c ∈ targets, ∃ target, c.singleCompound? = some target) :
    ∃ found, applyTargets mode l source targets span = .ok found := by
  have step : ∀ c ∈ targets, ∃ target, c.singleCompound? = some target ∧ ∀ reached authored, True →
      Yields (applyTarget mode source span reached target) authored fun _ _ => True := by
    intro c hc
    obtain ⟨target, htarget⟩ := single c hc
    exact ⟨target, htarget, fun reached authored _ => applyTarget_yields reached authored⟩
  obtain ⟨found, run, -⟩ := exists_applyTargets step trivial
  exact ⟨found, run⟩

/-- The targets are single compounds, or there is a first one that is not. -/
theorem single_or_first_complex (targets : SelectorList) :
    (∀ c ∈ targets, ∃ target, c.singleCompound? = some target) ∨
      ∃ before c after, targets = before ++ c :: after ∧
        (∀ d ∈ before, ∃ target, d.singleCompound? = some target) ∧ c.singleCompound? = none := by
  induction targets with
  | nil => exact .inl (List.forall_mem_nil _)
  | cons c targets ih =>
    cases hc : c.singleCompound? with
    | none => exact .inr ⟨[], c, targets, rfl, List.forall_mem_nil _, hc⟩
    | some target =>
      rcases ih with single | ⟨before, d, after, rfl, single, hd⟩
      · exact .inl (List.forall_mem_cons.2 ⟨⟨target, hc⟩, single⟩)
      · exact .inr ⟨c :: before, d, after, rfl, List.forall_mem_cons.2 ⟨⟨target, hc⟩, single⟩, hd⟩

end OneShot

/-- **Only targets that are not single compounds are refused**, and the first of them is what the
error names: neither media nor the nesting of arguments can make the operations fail. -/
theorem refused_iff_complex_target
    {operation : SelectorList → SelectorList → SelectorList → Span →
      Except SelectorError SelectorList}
    (known : operation = SelectorList.extend ∨ operation = SelectorList.replace)
    (l source targets : SelectorList) (span : Span) :
    ((∃ e, operation l source targets span = .error e) ↔
      ∃ c ∈ targets, ∀ target, c.items ≠ [.compound target]) ∧
    ∀ e, operation l source targets span = .error e → ∃ before c after,
      targets = before ++ c :: after ∧ (∀ d ∈ before, ∃ target, d.items = [.compound target]) ∧
      (∀ target, c.items ≠ [.compound target]) ∧ e = .complexTarget c ∧
      e.message = "Can't extend complex selector " ++ c.text ++ "." := by
  obtain ⟨mode, rfl⟩ : ∃ mode, operation = applyTargets mode := by
    rcases known with rfl | rfl
    · exact ⟨.allTargets, rfl⟩
    · exact ⟨.replace, rfl⟩
  rcases single_or_first_complex targets with single | ⟨before, c, after, rfl, single, hc⟩
  · obtain ⟨found, run⟩ : ∃ found, applyTargets mode l source targets span = .ok found :=
      applyTargets_accepted single
    simp only [Complex.singleCompound?_eq_some_iff] at single
    rw [run]
    refine ⟨iff_of_false ?_ ?_, ?_⟩
    · rintro ⟨e, ⟨⟩⟩
    · rintro ⟨c, hc, complex⟩
      obtain ⟨target, items⟩ := single c hc
      exact complex target items
    · rintro e ⟨⟩
  · have complex : ∀ target, c.items ≠ [.compound target] := by
      intro target items
      rw [Complex.singleCompound?_eq_some_iff.2 items] at hc
      cases hc
    rw [applyTargets_refused single hc]
    simp only [Complex.singleCompound?_eq_some_iff] at single
    refine ⟨iff_of_true ⟨_, rfl⟩ ⟨c, by simp, complex⟩, ?_⟩
    rintro e ⟨⟩
    exact ⟨before, c, after, rfl, single, complex, rfl, rfl⟩

/-- Extending `:not(:is(.a .b))` is refused for the second target, `.a > .b`, and not for a later
one; without the two it is not. -/
theorem refused_iff_complex_target_second :
    let a : Compound := [.className "a"]
    let b : Compound := [.className "b"]
    let within (name : String) (l : SelectorList) : SelectorList :=
      [.ofCompound [.pseudo (.around name l)]]
    let l := within "not" (within "is" [⟨[.compound a, .compound b], false⟩])
    let child : Complex := ⟨[.compound a, .combinator .child, .compound b], false⟩
    let sibling : Complex := ⟨[.compound a, .combinator .followingSibling, .compound b], false⟩
    (∃ e, l.extend [.ofCompound b] [.ofCompound a, child, sibling] default = .error e) ∧
      l.extend [.ofCompound b] [.ofCompound a, child, sibling] default
      = .error (.complexTarget child) ∧
      ¬ ∃ e, l.extend [.ofCompound b] [.ofCompound a] default = .error e := by
  intro a b within l child sibling
  refine ⟨(refused_iff_complex_target (.inl rfl) ..).1.2 ⟨child, by simp, by simp [child]⟩, rfl,
    fun refused => ?_⟩
  obtain ⟨c, hc, complex⟩ := (refused_iff_complex_target (.inl rfl) ..).1.1 refused
  rw [List.mem_singleton] at hc
  subst hc
  exact complex a rfl

/-! ## Targets that no compound has -/

section Unmet

variable {mode : ExtendMode} {sources : SourceSpecificity} {media : Option MediaContext}
  {l source : SelectorList} {target c : Compound} {span : Span}

/-- **A compound is left alone unless it has all of the target.** -/
theorem leavesAlone_iff (hm : mode ≠ .normal) :
    ExtendContext.LeavesAlone ⟨mode, sources, extensionsOf source target span, media⟩ c ↔
      target = [] ∨ ∃ s ∈ target, List.contains c s = false := by
  by_cases meets : ∃ s ∈ c, target.contains s = true
  · have filled : target ≠ [] := by
      rintro rfl
      obtain ⟨s, -, targeted⟩ := meets
      cases targeted
    have chosen : ExtendContext.compoundChoices
        ⟨mode, sources, extensionsOf source target span, media⟩
        (c.map fun s => (s, none)) ≠ none := by
      rw [Ne, ExtendContext.compoundChoices_eq_none_iff]
      simpa only [contains_extensionsOf, not_forall, Bool.not_eq_false, exists_prop] using meets
    rw [ExtendContext.LeavesAlone, or_iff_right chosen, or_iff_right filled, ← Bool.not_eq_true,
      enoughTargets_iff hm meets]
    simp
  · have unmet : ∀ s ∈ c, target.contains s = false := by simpa using meets
    refine iff_of_true (ExtendContext.leavesAlone_of_untargeted fun s hs => ?_) ?_
    · rw [contains_extensionsOf, unmet s hs]
    · rcases target with _ | ⟨s, target⟩
      · exact .inl rfl
      · refine .inr ⟨s, List.mem_cons_self, ?_⟩
        by_contra met
        rw [Bool.not_eq_false, List.contains_iff_exists_mem_beq] at met
        obtain ⟨s', hs', same⟩ := met
        have other := unmet s' hs'
        rw [List.contains_cons, BEq.symm same] at other
        cases other

/-- A target that no compound has changes nothing, at any depth. -/
theorem applyTarget_unmet (hm : mode ≠ .normal)
    (unmet : ∀ d ∈ compoundsOfList l, ∃ s ∈ target, List.contains d s = false)
    (authored : List Complex) :
    Yields (applyTarget mode source span l target) authored fun found _ => found = l := by
  have idle : outcomeFrom (ExtendContext.extendList
      ⟨mode, .empty, extensionsOf source target span, none⟩ l) authored = (.ok none, authored) := by
    refine ExtendContext.extendListWithin_idle
      (P := fun l => ∀ d ∈ compoundsOfList l, ∃ s ∈ target, List.contains d s = false)
      (fun l h c hc d hd => ?_) (fun l h c hc d hd s hs l' hl' e he => ?_) _ unmet
    · exact (leavesAlone_iff hm).2 (.inr (h d (mem_compoundsOfList.2
        ⟨c, hc, mem_compoundsOfItems.2 ⟨d, hd, .inl rfl⟩⟩)))
    · rw [← Simple.innerCompounds_eq hl'] at he
      exact h e (mem_compoundsOfList.2 ⟨c, hc, mem_compoundsOfItems.2 ⟨d, hd, .inr ⟨s, hs, he⟩⟩⟩)
  refine ⟨l, authored, ?_, rfl⟩
  rw [applyTarget, outcomeFrom_bind, idle]
  rfl

theorem applyTargets_unmet {targets : SelectorList} (hm : mode ≠ .normal)
    (unmet : ∀ c ∈ targets, ∃ target, c.items = [.compound target] ∧
      ∀ d ∈ compoundsOfList l, ∃ s ∈ target, List.contains d s = false) :
    applyTargets mode l source targets span = .ok l := by
  have step : ∀ c ∈ targets, ∃ target, c.singleCompound? = some target ∧ ∀ reached authored,
      reached = l → Yields (applyTarget mode source span reached target) authored
        fun found _ => found = l := by
    intro c hc
    obtain ⟨target, items, unmet⟩ := unmet c hc
    refine ⟨target, Complex.singleCompound?_eq_some_iff.2 items, fun reached authored same => ?_⟩
    subst same
    exact applyTarget_unmet hm unmet authored
  obtain ⟨found, run, rfl⟩ := exists_applyTargets (I := (· = l)) step rfl
  exact run

end Unmet

/-- **Targets that no compound has change nothing**: every compound, at any depth, lacks a
condition of every target. -/
theorem unmet_targets_change_nothing {l targets : SelectorList}
    (unmet : ∀ c ∈ targets, ∃ target, c.items = [.compound target] ∧
      ∀ d ∈ compoundsOfList l, ∃ s ∈ target, List.contains d s = false)
    (source : SelectorList) (span : Span) :
    l.extend source targets span = .ok l ∧ l.replace source targets span = .ok l :=
  ⟨applyTargets_unmet (by decide) unmet, applyTargets_unmet (by decide) unmet⟩

/-- `:not(.a:is(.b)) > .c` has `.a`, `.b` and `.c`, but in no compound two of them. -/
theorem unmet_targets_change_nothing_apart :
    let a : Simple := .className "a"
    let b : Simple := .className "b"
    let c : Simple := .className "c"
    let within (name : String) (d : Compound) : Simple := .pseudo (.around name [.ofCompound d])
    let l : SelectorList :=
      [⟨[.compound [within "not" [a, within "is" [b]]], .combinator .child, .compound [c]], false⟩]
    let targets : SelectorList := [.ofCompound [a, b], .ofCompound [c, a], .ofCompound [b, c, b]]
    (∀ e ∈ targets, ∃ target, e.items = [.compound target] ∧
      ∀ d ∈ compoundsOfList l, ∃ s ∈ target, List.contains d s = false) ∧
    l.extend [.ofCompound [.idName "i"]] targets default = .ok l ∧
      l.replace [.ofCompound [.idName "i"]] targets default = .ok l := by
  intro a b c within l targets
  have unmet : ∀ e ∈ targets, ∃ target, e.items = [.compound target] ∧
      ∀ d ∈ compoundsOfList l, ∃ s ∈ target, List.contains d s = false := by
    intro e he
    simp only [targets, List.mem_cons, List.not_mem_nil, or_false] at he
    rcases he with rfl | rfl | rfl
    · exact ⟨_, rfl, by decide +kernel⟩
    · exact ⟨_, rfl, by decide +kernel⟩
    · exact ⟨_, rfl, by decide +kernel⟩
  exact ⟨unmet, unmet_targets_change_nothing unmet _ _⟩

end SelectorAlgebra
