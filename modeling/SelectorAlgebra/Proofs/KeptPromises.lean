import Mathlib
import SelectorAlgebra.Proofs.ExtenderIndex
import SelectorAlgebra.Proofs.ExtensionTables
import SelectorAlgebra.Proofs.RowPositions
import SelectorAlgebra.Proofs.WholeResults

/-!
# Proofs/KeptPromises — no operation breaks a promise

Three promises go with the types of selectors and extensions: no compound, complex selector or
list is empty; only extensions with the same extender and target are merged; and no item is
looked at that is not there.

* `promises_kept` — whole selectors given, every operation keeps them.  For stores this goes for any
  calls, failed ones and imports included (`Arises`), and for any number of rounds of settling.

The engine is the invariant `IsOrderly` of stores: every extension is **filed** under its own target
and extender, and all extenders and selectors are whole.  Merging finds both extensions under one
pair, so they are extensions of that pair (`IsFiledUnder.merge`).  `Honours` is the judgement that
carries the invariant through operations that fail half way and tells their failures apart.
-/

namespace SelectorAlgebra

/-! ## Operations that keep an invariant and fail only for good reasons -/

/-- However the operation ends, the state it leaves satisfies `I`; a result satisfies `Q`, and a
failure satisfies `E`. -/
structure Honours {ε σ α : Type} (I : σ → Prop) (E : ε → Prop) (m : ExceptT ε (StateM σ) α) (s : σ)
    (Q : α → Prop) : Prop where
  state : I (outcomeFrom m s).2
  result : ∀ a, (outcomeFrom m s).1 = .ok a → Q a
  failure : ∀ e, (outcomeFrom m s).1 = .error e → E e

namespace Honours

variable {ε σ α β γ : Type} {I : σ → Prop} {E : ε → Prop} {s : σ} {Q Q' : α → Prop} {P : β → Prop}
  {m : ExceptT ε (StateM σ) α} {f : α → ExceptT ε (StateM σ) β}

theorem mono (h : Honours I E m s Q) (imp : ∀ a, Q a → Q' a) : Honours I E m s Q' :=
  ⟨h.state, fun a ha => imp a (h.result a ha), h.failure⟩

theorem pure {a : α} (hs : I s) (h : Q a) :
    Honours I E (Pure.pure a : ExceptT ε (StateM σ) α) s Q :=
  ⟨hs, fun _ ha => Except.ok.inj ha ▸ h, fun _ he => by cases he⟩

/-- Failing is allowed for the given reasons, as long as the invariant holds. -/
theorem throw {e : ε} (hs : I s) (h : E e) :
    Honours I E (throwThe ε e : ExceptT ε (StateM σ) α) s Q :=
  ⟨hs, fun _ ha => (by cases ha), fun _ he => Except.error.inj he ▸ h⟩

/-- A step that only computes. -/
theorem ofExcept {e : Except ε α} (hs : I s) (h : ∀ a, e = .ok a → Q a)
    (h' : ∀ cause, e = .error cause → E cause) :
    Honours I E (ExceptT.mk (Pure.pure e) : ExceptT ε (StateM σ) α) s Q :=
  ⟨hs, h, h'⟩

/-- A change is followed at once by what depends on it, so the invariant may be broken in
between. -/
theorem modify_bind {change : σ → σ} {f : Unit → ExceptT ε (StateM σ) β}
    (h : Honours I E (f ()) (change s) P) : Honours I E (modify change >>= f) s P :=
  ⟨h.state, h.result, h.failure⟩

/-- A change, and a result. -/
theorem modify_pure {change : σ → σ} {a : α} (hs : I (change s)) (h : Q a) :
    Honours I E (do modify change; Pure.pure a : ExceptT ε (StateM σ) α) s Q :=
  modify_bind (pure hs h)

theorem modify {change : σ → σ} {Q : Unit → Prop} (hs : I (change s)) (h : Q ()) :
    Honours I E (modify change : ExceptT ε (StateM σ) Unit) s Q :=
  ⟨hs, fun _ _ => h, fun _ he => by cases he⟩

/-- Only the outcome matters. -/
theorem of_eq {s' : σ} {m' : ExceptT ε (StateM σ) α} (h : Honours I E m' s' Q)
    (same : outcomeFrom m s = outcomeFrom m' s') : Honours I E m s Q := by
  obtain ⟨state, result, failure⟩ := h
  rw [← same] at state result failure
  exact ⟨state, result, failure⟩

theorem get_bind {f : σ → ExceptT ε (StateM σ) β} (h : Honours I E (f s) s P) :
    Honours I E (get >>= f) s P :=
  h.of_eq (outcomeFrom_get_bind f s)

/-- Each step starts where the invariant holds, with what is known of the last result. -/
theorem bind (h : Honours I E m s Q) (next : ∀ a s', I s' → Q a → Honours I E (f a) s' P) :
    Honours I E (m >>= f) s P := by
  obtain ⟨state, result, failure⟩ := h
  rcases hm : outcomeFrom m s with ⟨cause | a, s'⟩
  · rw [hm] at state failure
    have outcome : outcomeFrom (m >>= f) s = outcomeFrom (throwThe ε cause) s' := by
      rw [outcomeFrom_bind, hm]
      rfl
    exact (throw state (failure cause rfl)).of_eq outcome
  · rw [hm] at state result
    exact (next a s' state (result a rfl)).of_eq (by rw [outcomeFrom_bind, hm])

/-- Over a list, by induction; the invariant is carried from member to member. -/
theorem mapM {g : γ → ExceptT ε (StateM σ) α} : ∀ {xs : List γ} {s : σ}, I s →
    (∀ x ∈ xs, ∀ s', I s' → Honours I E (g x) s' Q) →
    Honours I E (xs.mapM g) s fun as => ∀ a ∈ as, Q a
  | [], _, hs, _ => by
    rw [List.mapM_nil]
    exact pure hs (List.forall_mem_nil _)
  | x :: xs, s, hs, h => by
    rw [List.forall_mem_cons] at h
    rw [List.mapM_cons]
    exact (h.1 s hs).bind fun a s' hs' ha => (mapM hs' h.2).bind fun as s'' hs'' has =>
      pure hs'' (List.forall_mem_cons.2 ⟨ha, has⟩)

theorem forM {g : γ → ExceptT ε (StateM σ) PUnit} : ∀ {xs : List γ} {s : σ}, I s →
    (∀ x ∈ xs, ∀ s', I s' → Honours I E (g x) s' fun _ => True) →
    Honours I E (xs.forM g) s fun _ => True
  | [], _, hs, _ => pure hs trivial
  | x :: xs, s, hs, h => by
    rw [List.forall_mem_cons] at h
    exact (h.1 s hs).bind fun _ s' hs' _ => forM hs' h.2

/-- With an accumulator that has a property of its own. -/
theorem foldlM {g : α → γ → ExceptT ε (StateM σ) α} : ∀ {xs : List γ} {s : σ} {a : α}, I s → Q a →
    (∀ x ∈ xs, ∀ a s', I s' → Q a → Honours I E (g a x) s' Q) → Honours I E (xs.foldlM g a) s Q
  | [], _, _, hs, ha, _ => pure hs ha
  | x :: xs, s, a, hs, ha, h => by
    rw [List.forall_mem_cons] at h
    rw [List.foldlM_cons]
    exact (h.1 a s hs ha).bind fun a' s' hs' ha' => foldlM hs' ha' h.2

end Honours

/-! ## Extensions under their own target and extender -/

/-- The extension is one of this target by this extender, up to equivalence, and the extender is
whole. -/
structure Extension.IsFiledUnder (target : Simple) (extender : Complex) (e : Extension) : Prop where
  target : (e.target == target) = true
  extender : (e.extender == extender) = true
  whole : e.extender.isWhole = true

/-- Every extension is under its own target and extender. -/
abbrev IsFiled (m : ExtensionMap) : Prop :=
  EachExtension (fun target extender e => e.IsFiledUnder target extender) m

section Filed

variable {m : ExtensionMap} {target : Simple} {extender : Complex} {left right : Extension}

/-- Filing does not see what equality ignores. -/
theorem isFacing_isFiledUnder : IsFacing fun target extender e => e.IsFiledUnder target extender :=
  ⟨fun ht hc h => ⟨BEq.trans h.target ht, BEq.trans h.extender hc, h.whole⟩⟩

/-- A rule with a whole extender is filed under its own target and extender. -/
theorem isFiledUnder_rule {r : ExtendRule} (h : r.extender.isWhole = true) :
    (Extension.rule r).IsFiledUnder r.target r.extender :=
  ⟨BEq.rfl, BEq.rfl, h⟩

theorem isFiled_mapOfRules {rules : List ExtendRule} (h : ∀ r ∈ rules, r.extender.isWhole = true) :
    IsFiled (Store.mapOfRules rules) :=
  eachExtension_mapOfRules isFacing_isFiledUnder fun r hr => isFiledUnder_rule (h r hr)

/-- **Extensions of one pair are merged without a fault**, and what they become is one of the
pair. -/
theorem Extension.IsFiledUnder.merge (hl : left.IsFiledUnder target extender)
    (hr : right.IsFiledUnder target extender) :
    (∀ fault, left.merge right ≠ .error (.broken fault)) ∧
      ∀ merged, left.merge right = .ok merged → merged.IsFiledUnder target extender := by
  have alike : (left.extender == right.extender && left.target == right.target) = true := by
    rw [Bool.and_eq_true]
    exact ⟨BEq.trans hl.extender (BEq.symm hr.extender), BEq.trans hl.target (BEq.symm hr.target)⟩
  refine ⟨fun fault h => ?_, fun merged h => ?_⟩
  · unfold Extension.merge at h
    rw [alike] at h
    split at h
    · contradiction
    split at h
    · cases h
    split at h
    · cases h
    split at h
    · cases h
    · cases h
  · rcases Extension.merge_cases h with ⟨-, rfl⟩ | ⟨-, -, rfl⟩ | ⟨-, -, rfl⟩
    · exact hl
    · exact hr
    · exact ⟨hl.target, hl.extender, hl.whole⟩

/-- The extenders that a selector is extended by are whole. -/
theorem IsFiled.isWhole (h : IsFiled m) (mode : ExtendMode) (specificities : SourceSpecificity)
    (media : Option MediaContext) : ExtendContext.IsWhole ⟨mode, specificities, m, media⟩ := by
  rintro e ⟨target, sources, found, he⟩
  obtain ⟨target', hentry, -⟩ := OrderedMap.exists_mem_of_get? found
  obtain ⟨pair, hpair, rfl⟩ := List.mem_map.1 he
  exact (h _ hentry pair hpair).whole

end Filed

/-! ## Orderly stores -/

namespace Store

/-- All selectors and extenders are whole, and all extensions are where they belong. -/
structure IsOrderly (s : Store) : Prop where
  slots : ∀ slot ∈ s.slots, slot.value.isWhole = true
  filed : IsFiled s.extensions
  rules : ∀ x, ∀ r ∈ (s.byExtender.get? x).getD [], r.extender.isWhole = true

/-- The failure is not a fault. -/
def IsNoFault (failure : Failure) : Prop := ∀ fault, failure ≠ .broken fault

/-- The operation leaves an orderly store and fails without a fault, if at all. -/
abbrev IsSafe {α : Type} (m : Storing α) (s : Store) (Q : α → Prop) : Prop :=
  Honours IsOrderly IsNoFault m s Q

variable {s : Store} {pending new : ExtensionMap} {r : ExtendRule}

theorem isOrderly_empty (mode : ExtendMode) (limit : ℕ) : IsOrderly (.empty mode limit) :=
  ⟨fun _ mem => (by cases mem), eachExtension_empty, fun _ _ mem => by cases mem⟩

/-- Only the table of extensions has to be looked at again. -/
theorem IsOrderly.alter (h : IsOrderly s) {extensions : ExtensionMap} (filed : IsFiled extensions) :
    IsOrderly { s with extensions := extensions } :=
  ⟨h.slots, filed, h.rules⟩

/-- An extension that is filed under its own target and extender may be put. -/
theorem IsOrderly.putExtension (h : IsOrderly s) {target : Simple} {extender : Complex}
    {e : Extension} (he : e.IsFiledUnder target extender) :
    IsOrderly (s.putExtension target extender e) :=
  h.alter (h.filed.setExtension isFacing_isFiledUnder he)

theorem IsOrderly.ensureTarget (h : IsOrderly s) (target : Simple) :
    IsOrderly (s.ensureTarget target) :=
  h.alter (h.filed.insertNew isFacing_isFiledUnder target)

theorem IsOrderly.dropExtension (h : IsOrderly s) (target : Simple) (extender : Complex) :
    IsOrderly (s.dropExtension target extender) :=
  h.alter (h.filed.erase isFacing_isFiledUnder target extender)

/-- A rule with a whole extender may be indexed. -/
theorem IsOrderly.indexRule (h : IsOrderly s) (hr : r.extender.isWhole = true)
    (conditions : List Simple) :
    IsOrderly (s.indexRule r conditions) := by
  refine ⟨h.slots, h.filed, fun x r' hr' => ?_⟩
  rcases mem_rulesUnder_indexRule.1 hr' with old | ⟨-, rfl⟩
  · exact h.rules x r' old
  · exact hr

theorem IsOrderly.pushSlot (h : IsOrderly s) {slot : Slot} (hs : slot.value.isWhole = true) :
    IsOrderly (s.pushSlot slot) :=
  ⟨List.forall_mem_append.2 ⟨h.slots, List.forall_mem_singleton.2 hs⟩, h.filed, h.rules⟩

/-- A whole selector may be stored. -/
theorem IsOrderly.setSelector (h : IsOrderly s) (id : ℕ) (slot : Slot) {value : SelectorList}
    (hv : value.isWhole = true) : IsOrderly (s.setSelector id slot value) := by
  refine ⟨fun slot' hslot' => ?_, h.filed, h.rules⟩
  rcases List.mem_or_eq_of_mem_set hslot' with old | rfl
  · exact h.slots slot' old
  · exact hv

/-! ## Operations -/

/-- A run of extension inside a store changes no table, and fails only as extension fails. -/
theorem extending_isSafe {α : Type} {extensions : ExtensionMap} {span : Span}
    {media : Option MediaContext} {step : ExtendContext → Extending α} {Q : α → Prop}
    (h : IsOrderly s)
    (ensures : Ensures (fun _ _ => True) (step ⟨s.mode, s.sources, extensions, media⟩) s.authored
      fun a _ => Q a) :
    IsSafe (Storing.extending extensions span media step) s Q := by
  refine ⟨?_, fun a ha => ?_, fun failure hf fault same => ?_⟩
  · rw [outcomeFrom_extending]
    exact ⟨h.slots, h.filed, h.rules⟩
  · rw [outcomeFrom_extending] at ha
    rcases run : outcomeFrom (step ⟨s.mode, s.sources, extensions, media⟩) s.authored
      with ⟨_ | b, authored⟩
    · rw [run] at ha
      cases ha
    · rw [run] at ha
      obtain rfl : b = a := Except.ok.inj ha
      exact ensures.2 b (by rw [run])
  · rw [outcomeFrom_extending] at hf
    rcases run : outcomeFrom (step ⟨s.mode, s.sources, extensions, media⟩) s.authored
      with ⟨_ | b, authored⟩
    · rw [run] at hf
      subst same
      cases hf
    · rw [run] at hf
      cases hf

/-- One more extension for a pair that is there. -/
theorem merge_isSafe {α : Type} {target : Simple} {extender : Complex} {existing e : Extension}
    {a : Extension → α} {Q : α → Prop} (h : IsOrderly s)
    (found : existing.IsFiledUnder target extender) (he : e.IsFiledUnder target extender)
    (ha : ∀ merged : Extension, merged.IsFiledUnder target extender → Q (a merged)) :
    IsSafe (do
      let merged ← Storing.ofExcept (existing.merge e)
      modify (·.putExtension target extender merged)
      return a merged : Storing α) s Q := by
  obtain ⟨safe, filed⟩ := found.merge he
  refine (Honours.ofExcept h filed fun cause hc fault same => ?_).bind fun merged s' hs' hm =>
    Honours.modify_pure (hs'.putExtension hm) (ha merged hm)
  exact safe fault (same ▸ hc)

/-- A derived extension is put under its own target and extender, or merged with one that is
there. -/
theorem addDerived_isSafe (h : IsOrderly s) (hr : r.extender.isWhole = true) :
    IsSafe (addDerived pending r) s fun found => ∀ r' ∈ found, r'.extender.isWhole = true := by
  refine Honours.get_bind ?_
  split
  · rename_i existing found
    split
    · exact .pure h (by simp)
    · exact merge_isSafe h (h.filed.of_get? isFacing_isFiledUnder found) (isFiledUnder_rule hr)
        (by simp)
  · refine Honours.modify_pure ((h.indexRule hr _).putExtension (isFiledUnder_rule hr)) ?_
    intro r' hr'
    split at hr'
    · exact Option.mem_some.1 hr' ▸ hr
    · cases hr'

/-- **Extending a rule** gives rules with whole extenders. -/
theorem extendRule_isSafe (h : IsOrderly s) (hp : IsFiled pending)
    (hr : r.extender.isWhole = true) :
    IsSafe (extendRule pending r) s fun found => ∀ r' ∈ found, r'.extender.isWhole = true := by
  refine (extending_isSafe h
    (ExtendContext.extendComplex_isMadeOf isHereditary_isWhole (hp.isWhole _ _ _).all
    (isHereditary_isWhole.row _ hr) s.authored)).bind fun found s₁ h₁ made => ?_
  split
  · exact .pure h₁ (List.forall_mem_nil _)
  rename_i found
  refine Honours.get_bind ?_
  split
  · exact .pure h₁ (List.forall_mem_nil _)
  dsimp only
  have others : ∀ c ∈ if found.head?.any (· == r.extender) then found.tail else found,
      c.isWhole = true := by
    intro c hc
    refine Complex.isWhole_iff.2 (made found rfl c ?_)
    split at hc
    · exact List.mem_of_mem_tail hc
    · exact hc
  refine (Honours.mapM h₁ fun c hc s' hs' => addDerived_isSafe hs' (others c hc)).bind
    fun added s₂ h₂ hadded => ?_
  have rules : ∀ r' ∈ added.filterMap id, r'.extender.isWhole = true := by
    intro r' hr'
    obtain ⟨found, mem, hr'⟩ := List.mem_filterMap.1 hr'
    exact hadded found mem r' hr'
  split
  · exact Honours.modify_pure (h₂.dropExtension _ _) rules
  · exact .pure h₂ rules

/-- Every number of rounds is safe; rules and tables stay whole from round to round. -/
theorem settleWithin_isSafe (limit : ℕ) : ∀ (n : ℕ) {s : Store} {rules : List ExtendRule}
    {pending new : ExtensionMap}, IsOrderly s → (∀ r ∈ rules, r.extender.isWhole = true) →
    IsFiled pending → IsFiled new → IsSafe (settleWithin limit n rules pending new) s IsFiled
  | _, _, [], _, _, h, _, _, hn => by
    unfold settleWithin
    exact .pure h hn
  | 0, _, _ :: _, _, _, h, _, _, _ => .throw h fun fault same => by cases same
  | n + 1, s, r :: rules, pending, new, h, hr, hp, hn => by
    refine (Honours.mapM h fun r hr' s' hs' => extendRule_isSafe hs' hp (hr r hr')).bind
      fun added s₁ h₁ hadded => ?_
    have filed : IsFiled (mapOfRules added.flatten) := isFiled_mapOfRules fun r' hr' => by
      obtain ⟨found, mem, hr'⟩ := List.mem_flatten.1 hr'
      exact hadded found mem r' hr'
    dsimp only
    split
    · exact .pure h₁ hn
    · refine Honours.get_bind (settleWithin_isSafe limit n h₁ (fun r' hr' => ?_) filed
        (hn.addAll isFacing_isFiledUnder filed))
      obtain ⟨target, -, hr'⟩ := List.mem_flatMap.1 (List.mem_of_mem_filter hr')
      exact h₁.rules target r' hr'

theorem settle_isSafe (h : IsOrderly s) {rules : List ExtendRule}
    (hr : ∀ r ∈ rules, r.extender.isWhole = true) (hn : IsFiled new) :
    IsSafe (settle rules new) s IsFiled :=
  Honours.get_bind (settleWithin_isSafe _ _ h hr hn hn)

/-! ## Selectors -/

/-- Extending a whole selector gives a whole one. -/
theorem extendList_isSafe {l : SelectorList} {span : Span} {media : Option MediaContext}
    (h : IsOrderly s) (hn : IsFiled new) (hl : l.isWhole = true) :
    IsSafe (Storing.extending new span media (·.extendList l)) s fun found =>
      ∀ l', found = some l' → l'.isWhole = true :=
  (extending_isSafe h
    (ExtendContext.extendList_givesFilled isHereditary_isWhole (hn.isWhole _ _ _).all
    (SelectorList.isWhole_iff.1 hl).2 s.authored)).mono fun _ filled l' hl' =>
      SelectorList.isWhole_iff.2 (filled l' hl')

/-- Every slot is given a whole selector. -/
theorem extendSelectors_isSafe (h : IsOrderly s) (hn : IsFiled new) (ids : List ℕ) :
    IsSafe (extendSelectors new ids) s fun _ => True := by
  refine Honours.forM h fun id _ s₁ h₁ => Honours.get_bind ?_
  split
  · exact .pure h₁ trivial
  rename_i slot hslot
  refine (extendList_isSafe h₁ hn (h₁.slots slot (List.mem_of_getElem? hslot))).bind
    fun found s₂ h₂ whole => ?_
  split
  · exact .pure h₂ trivial
  split
  · exact .pure h₂ trivial
  · exact .modify (h₂.setSelector _ _ (whole _ rfl)) trivial

/-- A new selector is stored as extended by what is known. -/
theorem addSelector_isSafe (h : IsOrderly s) {l : SelectorList} (hl : l.isWhole = true)
    (span : Span) (media : Option MediaContext) :
    IsSafe (addSelector l span media) s fun _ => True := by
  have placed : ∀ {s₁ : Store}, IsOrderly s₁ →
      IsSafe (placeSelector l span media) s₁ fun _ => True := by
    intro s₁ h₁
    refine Honours.get_bind ?_
    split
    · exact Honours.modify_pure (h₁.pushSlot hl) trivial
    · refine (extendList_isSafe h₁ h₁.filed hl).bind fun found s₂ h₂ whole =>
        Honours.modify_pure (h₂.pushSlot ?_) trivial
      cases found with
      | none => exact hl
      | some l' => exact whole l' rfl
  rw [addSelector_eq]
  split
  · exact placed h
  · exact Honours.modify_bind (placed ⟨h.slots, h.filed, h.rules⟩)

theorem addRule_isSafe (h : IsOrderly s) (hr : r.extender.isWhole = true) :
    IsSafe (addRule r) s fun found => ∀ r' ∈ found, r'.extender.isWhole = true := by
  refine Honours.get_bind ?_
  split
  · rename_i existing found
    exact merge_isSafe h (h.filed.of_get? isFacing_isFiledUnder found) (isFiledUnder_rule hr)
      (by simp)
  · have put := (h.putExtension (isFiledUnder_rule hr)).indexRule hr r.extender.simples
    exact Honours.modify_pure ⟨put.slots, put.filed, put.rules⟩ fun r' hr' =>
      Option.mem_some.1 hr' ▸ hr

/-- An extension by whole selectors. -/
theorem addExtension_isSafe (h : IsOrderly s) {extender : SelectorList}
    (he : extender.isWhole = true) (extenderSpan : Span) (target : Simple) (span : Span)
    (media : Option MediaContext) (optional : Bool) :
    IsSafe (addExtension extender extenderSpan target span media optional) s fun _ => True := by
  refine Honours.get_bind (Honours.modify_bind ?_)
  refine (Honours.mapM (h.ensureTarget target) fun c hc s' hs' => addRule_isSafe hs'
    ((SelectorList.isWhole_iff.1 he).2 c (List.mem_of_mem_filter hc))).bind
    fun added s₁ h₁ hadded => ?_
  split
  · exact .pure h₁ trivial
  split
  · exact .pure h₁ trivial
  · refine (settle_isSafe h₁ (fun r hr => h.rules target r hr)
      (isFiled_mapOfRules fun r hr => ?_)).bind
      fun new s₂ h₂ hn => Honours.get_bind (extendSelectors_isSafe h₂ hn _)
    obtain ⟨found, mem, hr⟩ := List.mem_filterMap.1 hr
    exact hadded found mem r hr

/-! ## Other style sheets -/

/-- What an import has found so far is in order. -/
structure Import.IsOrderly (found : Import) : Prop where
  filed : IsFiled found.new
  rules : ∀ r ∈ found.rules, r.extender.isWhole = true

/-- Importing one target, whose extensions are in order in the other store. -/
theorem importTarget_isSafe (h : IsOrderly s) {found : Import} (hf : found.IsOrderly)
    {entry : Simple × OrderedMap Complex Extension}
    (he : ∀ pair ∈ entry.2.entries, pair.2.IsFiledUnder entry.1 pair.1) :
    IsSafe (importTarget found entry) s Import.IsOrderly := by
  obtain ⟨target, sources⟩ := entry
  simp only [importTarget]
  split
  · exact .pure h hf
  refine Honours.get_bind (Honours.modify_bind ?_)
  refine (Honours.mapM (Q := fun pair => pair.2.IsFiledUnder target pair.1) (h.ensureTarget target)
    fun pair hpair s₁ h₁ => Honours.get_bind ?_).bind fun added s₂ h₂ hadded => .pure h₂ ⟨?_, ?_⟩
  · split
    · rename_i existing found
      exact merge_isSafe h₁ (h₁.filed.of_get? isFacing_isFiledUnder found) (he pair hpair)
        fun _ filed => filed
    · exact Honours.modify_pure (h₁.putExtension (he pair hpair)) (he pair hpair)
  · split
    · exact hf.filed.foldl_setExtension isFacing_isFiledUnder hadded
    · exact hf.filed
  · exact List.forall_mem_append.2 ⟨hf.rules, h.rules target⟩

theorem importStore_isSafe (h : IsOrderly s) {found : Import} (hf : found.IsOrderly) {other : Store}
    (ho : IsFiled other.extensions) : IsSafe (importStore found other) s Import.IsOrderly := by
  unfold importStore
  split
  · exact .pure h hf
  · exact Honours.modify_bind
      (.foldlM ⟨h.slots, h.filed, h.rules⟩ hf fun entry hentry found' s' hs' hf' =>
        importTarget_isSafe hs' hf' (ho entry hentry))

/-- Importing stores that are in order. -/
theorem addExtensions_isSafe (h : IsOrderly s) {others : List Store}
    (ho : ∀ other ∈ others, IsFiled other.extensions) :
    IsSafe (addExtensions others) s fun _ => True := by
  refine (Honours.foldlM (Q := Import.IsOrderly) h ⟨eachExtension_empty, List.forall_mem_nil _⟩
    fun other mem found s' hs' hf => importStore_isSafe hs' hf (ho other mem)).bind
    fun found s₁ h₁ hf => ?_
  split
  · exact .pure h₁ trivial
  · exact (settle_isSafe h₁ hf.rules hf.filed).bind fun new s₂ h₂ hn =>
      extendSelectors_isSafe h₂ hn _

/-! ## Runs -/

/-- The selectors that a call is made with. -/
def Call.selectors : Call → List SelectorList
  | .addSelector l _ _ => [l]
  | .addExtension extender _ _ _ _ _ => [extender]
  | .addExtensions _ => []

/-- The stores that a call imports. -/
def Call.others : Call → List Store
  | .addExtensions others => others
  | _ => []

/-- The stores that calls with whole selectors lead to, failed calls included, importing from each
other. -/
inductive Arises : Store → Prop where
  | empty (mode : ExtendMode) (limit : ℕ) : Arises (.empty mode limit)
  | call {s : Store} (h : Arises s) {call : Call} (own : ∀ l ∈ call.selectors, l.isWhole = true)
      (others : ∀ other ∈ call.others, Arises other) : Arises (outcomeFrom call.operation s).2

/-- **Every call is safe** in an orderly store, on whole selectors and orderly stores. -/
theorem Call.isSafe (h : IsOrderly s) {call : Call} (own : ∀ l ∈ call.selectors, l.isWhole = true)
    (others : ∀ other ∈ call.others, IsOrderly other) : IsSafe call.operation s fun _ => True := by
  cases call with
  | addSelector l span media =>
    exact (addSelector_isSafe h (own l (List.mem_singleton_self l)) span media).bind fun _ _ h' _ =>
      .pure h' trivial
  | addExtension extender extenderSpan target span media optional =>
    exact addExtension_isSafe h (own extender (List.mem_singleton_self extender))
      extenderSpan target span media optional
  | addExtensions stores => exact addExtensions_isSafe h fun other mem => (others other mem).filed

/-- **Every store that arises is orderly.** -/
theorem Arises.isOrderly (h : Arises s) : IsOrderly s := by
  induction h with
  | empty mode limit => exact isOrderly_empty mode limit
  | call _ own _ ih ihOthers => exact (Call.isSafe ih own ihOthers).state

end Store

/-! ## All promises -/

/-- **No promise is ever broken.**  Whole selectors only give whole selectors, those included that
are later trimmed; and nothing is looked at out of range. -/
theorem promises_kept :
    -- Unifying and weaving.
    (∀ c₁ c₂ c, Compound.isWhole c₁ = true → Compound.isWhole c₂ = true →
      Compound.unify c₁ c₂ = some c → Compound.isWhole c = true) ∧
    (∀ rows, (∀ row ∈ rows, IsWholeRow row) →
      (∀ base, unifyBases rows = some base → Compound.isWhole base = true) ∧
      (∀ found, unifyRows rows = some found → ∀ row ∈ found, IsWholeRow row) ∧
      ∀ row ∈ weave rows, IsWholeRow row) ∧
    (∀ c₁ c₂ found, Complex.isWhole c₁ = true → Complex.isWhole c₂ = true →
      c₁.unify c₂ = some found → AreWhole found) ∧
    (∀ l₁ l₂ l, SelectorList.isWhole l₁ = true → SelectorList.isWhole l₂ = true →
      l₁.unify l₂ = some l → l.isWhole = true) ∧
    -- Extending: what replaces conditions, what stands for them, the candidates before they are
    -- trimmed.
    (∀ ctx : ExtendContext, ctx.IsWhole → ∀ n c authored parts, Compound.isWhole c = true →
      (outcomeFrom (ctx.partsOf n c) authored).1 = .ok parts →
      (∀ part ∈ parts, ∀ replaced, part.2 = some replaced →
        replaced ≠ [] ∧ ∀ s ∈ replaced, s.isWhole = true) ∧
      ∀ choices, ctx.compoundChoices parts = some choices →
        (∀ choice ∈ choices, ∀ o ∈ choice, o.complex.isWhole = true) ∧
        ∀ found, ctx.complexesOfSelections choices = .ok found →
          ∀ l, some l ∈ found → ∀ d ∈ l, d.isWhole = true) ∧
    (∀ mode l source targets span found, SelectorList.isWhole l = true →
      SelectorList.isWhole source = true → applyTargets mode l source targets span = .ok found →
      found.isWhole = true) ∧
    -- Nesting.
    (∀ l parent implicit found, SelectorList.isWhole l = true →
      (∀ p, parent = some p → SelectorList.isWhole p = true) →
      l.resolveParents parent implicit = .ok found → found.isWhole = true) ∧
    -- Stores.
    (∀ s, Store.Arises s → s.IsOrderly ∧ ∀ call : Store.Call,
      (∀ l ∈ call.selectors, l.isWhole = true) → (∀ other ∈ call.others, Store.Arises other) →
      ∀ fault, (outcomeFrom call.operation s).1 ≠ .error (.broken fault)) ∧
    -- Positions.
    (∀ upper lower, rowCoversAt (covers itemsSuperselector) upper lower
      = some (itemsSuperselector upper lower)) ∧
    ∀ rows, unifyRowsAt rows = some (unifyRows rows) := by
  refine ⟨unifyKeeps_isWhole, fun rows h => ⟨fun base => ?_, fun found => isWholeRow_of_unifyRows h,
    isWholeRow_of_mem_weave h⟩, fun c₁ c₂ found h₁ h₂ => Complex.areWhole_of_unify h₁ h₂,
    fun l₁ l₂ l h₁ h₂ => SelectorList.isWhole_of_unify h₁ h₂,
    fun ctx h n c authored parts hc run => ?_,
    fun mode l source targets span found hl hs => isWhole_of_applyTargets hs hl,
    fun l parent implicit found => SelectorList.isWhole_of_resolveParents,
    fun s h => ⟨h.isOrderly, fun call own others fault failed => ?_⟩, fun upper lower => ?_,
    unifyRowsAt_eq⟩
  · exact of_unifyBases unifyKeeps_isWhole fun row hrow => (h row hrow).2
  · have hp := (ExtendContext.partsOf_isPart h n hc authored).2 parts run
    refine ⟨fun part hpart replaced eq => ?_, fun choices hchoices =>
      ⟨ExtendContext.isWhole_of_mem_compoundChoices h hp hchoices, fun found =>
        ExtendContext.isWhole_of_complexesOfSelections h hp hchoices⟩⟩
    exact ⟨fun empty => (hp part hpart).filled (empty ▸ eq), (hp part hpart).replaced replaced eq⟩
  · have safe := Store.Call.isSafe h.isOrderly own fun other mem => (others other mem).isOrderly
    exact safe.failure _ failed fault rfl
  · rw [rowCoversAt_eq, itemsSuperselector_eq]

/-- The selector `.a:not(.b)`, for a name `b`. -/
def notOf (name : String) : SelectorList :=
  [.ofCompound [.className "a", .pseudo (.around "not" [.ofCompound [.className name]])]]

/-- A call for `.a:not(.b)` to extend `.t`. -/
def notCall : Store.Call := .addExtension (notOf "b") default (.className "t") default none false

/-- Replacing `.b` by `.c` inside `.a:not(.b)`, and one extension asked for twice. -/
theorem promises_kept_not :
    ((notOf "b").isWhole = true ∧ applyTargets .replace (notOf "b") [.ofCompound [.className "c"]]
        [.ofCompound [.className "b"]] default = .ok (notOf "c") ∧ (notOf "c").isWhole = true) ∧
    (∀ l ∈ notCall.selectors, l.isWhole = true) ∧
      ∀ fault, (outcomeFrom notCall.operation
        (outcomeFrom notCall.operation (.empty .normal 10)).2).1 ≠ .error (.broken fault) := by
  obtain ⟨-, -, -, -, -, extending, -, stores, -⟩ := promises_kept
  have whole : (notOf "b").isWhole = true := by decide
  have own : ∀ l ∈ notCall.selectors, l.isWhole = true := List.forall_mem_singleton.2 whole
  have arises := Store.Arises.call (.empty .normal 10) own (List.forall_mem_nil _)
  have run : applyTargets .replace (notOf "b") [.ofCompound [.className "c"]]
      [.ofCompound [.className "b"]] default = .ok (notOf "c") := by cbv
  exact ⟨⟨whole, run, extending _ _ _ _ _ _ whole (by decide) run⟩, own,
    (stores _ arises).2 notCall own (List.forall_mem_nil _)⟩

end SelectorAlgebra
