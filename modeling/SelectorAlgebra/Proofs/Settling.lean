import Mathlib
import SelectorAlgebra.Proofs.Operation
import SelectorAlgebra.Proofs.Tables
import SelectorAlgebra.Store.Update

/-!
# Proofs/Settling — what extending extenders does to a store

Settling reads selectors and writes extensions.  All that it does to a store is done by steps
of four kinds (`Rewrite`):

    note     the record of author-written selectors
    merge    one more rule for a pair that is there
    derive   a new pair, found by extending an extender
    drop     one pair less

* `settle_rewrites` — settling is a sequence of such steps, drops nothing but pairs of rules it was
  to extend, and its result has no targets but those it began with.

The rules that a later round extends are looked up in the store as it is by then, so which pairs may
be dropped is a parameter, `drops`, asked of the index in every store on the way.

Before that come two facts that all accounts of a store share: what one step of extending
leaves of it (`outcomeFrom_extending`), and that a selector is put on record first and placed
then (`addSelector_eq`).
-/

namespace SelectorAlgebra

/-! ## Targets of maps -/

section Targets

variable {m new : ExtensionMap} {rules : List ExtendRule} {x : Simple}

/-- The targets after a run of rules: those before, and those of the rules. -/
theorem contains_foldl_setExtension :
    (rules.foldl (fun m r => Store.setExtension m r.target r.extender (.rule r)) m).contains x
        = true ↔
      m.contains x = true ∨ ∃ r ∈ rules, (r.target == x) = true := by
  induction rules generalizing m with
  | nil => simp
  | cons r rules ih =>
    rw [List.foldl_cons, ih, Store.setExtension, OrderedMap.contains_alter, Bool.or_eq_true]
    simp [or_assoc, or_left_comm]

theorem contains_mapOfRules :
    (Store.mapOfRules rules).contains x = true ↔ ∃ r ∈ rules, (r.target == x) = true :=
  contains_foldl_setExtension.trans (or_iff_right Bool.false_ne_true)

/-- Adding a table adds its targets. -/
theorem contains_addAll :
    (Store.addAll m new).contains x = true ↔ m.contains x = true ∨ new.contains x = true := by
  obtain ⟨entries⟩ := new
  simp only [Store.addAll]
  induction entries generalizing m with
  | nil => simp [OrderedMap.contains]
  | cons e entries ih =>
    rw [List.foldl_cons, ih, OrderedMap.contains_alter]
    simp [OrderedMap.contains, or_assoc, or_left_comm]

theorem contains_of_mem_keys (h : x ∈ m.keys) : m.contains x = true := by
  obtain ⟨e, mem, rfl⟩ := List.mem_map.1 h
  exact List.any_eq_true.2 ⟨e, mem, BEq.rfl⟩

/-- Being a target does not see what equality ignores. -/
theorem contains_of_beq {t : Simple} (h : m.contains t = true) (same : (t == x) = true) :
    m.contains x = true := by
  rw [OrderedMap.contains_eq_isSome] at h ⊢
  rwa [← m.get?_congr same]

end Targets

/-! ## Extending inside a store -/

section Extending

variable {α : Type} {extensions : ExtensionMap} {span : Span} {media : Option MediaContext}
  {step : ExtendContext → Extending α} {s : Store}

/-- Extending changes nothing in a store but the record of author-written selectors, and a refusal
says where the selector stands. -/
theorem outcomeFrom_extending : outcomeFrom (Storing.extending extensions span media step) s =
    let out := outcomeFrom (step ⟨s.mode, s.sources, extensions, media⟩) s.authored
    (out.1.mapError fun cause => .refused (.nested span cause), { s with authored := out.2 }) := by
  rw [Storing.extending, outcomeFrom_get_bind]
  dsimp only [outcomeFrom]
  generalize (step ⟨s.mode, s.sources, extensions, media⟩).run.run s.authored = out
  obtain ⟨_ | a, authored⟩ := out <;> rfl

/-- A run of extension inside a store, for relations that do not see the authored choices. -/
theorem Ensures.extending {R : Store → Store → Prop} {Q : α → Store → Prop}
    (hR : R s { s with
      authored := (outcomeFrom (step ⟨s.mode, s.sources, extensions, media⟩) s.authored).2 })
    (hQ : ∀ a authored, outcomeFrom (step ⟨s.mode, s.sources, extensions, media⟩) s.authored
      = (.ok a, authored) → Q a { s with authored := authored }) :
    Ensures R (Storing.extending extensions span media step) s Q := by
  rw [Ensures, outcomeFrom_extending]
  refine ⟨hR, fun a ha => ?_⟩
  rcases h : outcomeFrom (step ⟨s.mode, s.sources, extensions, media⟩) s.authored
    with ⟨_ | b, authored⟩
  · rw [h] at ha
    cases ha
  · rw [h] at ha
    obtain rfl : b = a := Except.ok.inj ha
    exact hQ b authored h

/-- The same for a run whose outcome is known. -/
theorem Yields.extending {a : α} {authored : List Complex}
    (run : outcomeFrom (step ⟨s.mode, s.sources, extensions, media⟩) s.authored
      = (.ok a, authored)) :
    Yields (Storing.extending extensions span media step) s fun b s' =>
      b = a ∧ s' = { s with authored := authored } := by
  refine ⟨a, _, ?_, rfl, rfl⟩
  rw [outcomeFrom_extending, run]
  rfl

end Extending

namespace Store

/-- Extends a selector by all extensions there are, and puts it behind the others. -/
def placeSelector (l : SelectorList) (span : Span) (media : Option MediaContext) : Storing ℕ := do
  let s ← get
  let extended ←
    if s.extensions.isEmpty then pure none
    else Storing.extending s.extensions span media (·.extendList l)
  modify (·.pushSlot ⟨extended.getD l, span, media⟩)
  return s.count

/-- A selector is put on record, if it is visible, and placed. -/
theorem addSelector_eq (l : SelectorList) (span : Span) (media : Option MediaContext) :
    addSelector l span media = if l.isInvisible then placeSelector l span media
      else (do modify (·.addAuthored l); placeSelector l span media) := by
  unfold addSelector
  cases l.isInvisible <;> rfl

/-! ## Settling -/

/-- One step of settling. -/
inductive Rewrite (drops : Simple → Complex → Prop) : Store → Store → Prop where
  | note (s : Store) (authored : List Complex) : Rewrite drops s { s with authored := authored }
  | merge {s : Store} {target : Simple} {extender : Complex} {existing e merged : Extension}
    (known : (s.extensions.get? target).bind (·.get? extender) = some existing)
    (h : existing.merge e = .ok merged) : Rewrite drops s (s.putExtension target extender merged)
  | derive {s : Store} {r : ExtendRule}
    (new : (s.extensions.get? r.target).bind (·.get? r.extender) = none) :
    Rewrite drops s
      ((s.indexRule r r.extender.compounds.flatten).putExtension r.target r.extender (.rule r))
  | drop {s : Store} {target : Simple} {extender : Complex} (h : drops target extender) :
    Rewrite drops s (s.dropExtension target extender)

/-- Any number of steps. -/
abbrev Rewrites (drops : Simple → Complex → Prop) : Store → Store → Prop :=
  Relation.ReflTransGen (Rewrite drops)

variable {drops : Simple → Complex → Prop} {s : Store} {pending new : ExtensionMap} {r : ExtendRule}

theorem extending_rewrites {α : Type} {extensions : ExtensionMap} {span : Span}
    {media : Option MediaContext} {step : ExtendContext → Extending α} :
    Ensures (Rewrites drops) (Storing.extending extensions span media step) s fun _ _ => True :=
  .extending (.single (.note s _)) fun _ _ _ => trivial

/-- A derived rule is passed on only if its target is pending. -/
theorem addDerived_rewrites (pending : ExtensionMap) (r : ExtendRule) :
    Ensures (Rewrites drops) (addDerived pending r) s fun found _ =>
      ∀ r' ∈ found, pending.contains r'.target = true := by
  refine Ensures.get_bind ?_
  split
  · rename_i existing known
    split
    · exact .pure (by simp)
    · refine (Ensures.ofExcept
        (Q := fun merged s' => existing.merge (.rule r) = .ok merged ∧ s' = s)
        fun merged h => ⟨h, rfl⟩).bind fun merged s' _ ⟨h, hs⟩ => .modify_pure ?_ (by simp)
      exact hs ▸ .single (.merge known h)
  · rename_i new
    refine Ensures.modify_pure (.single (.derive new)) ?_
    split
    · rename_i target
      simpa using target
    · simp

/-- Extending a rule gives up no pair but its own, and returns rules of pending targets only. -/
theorem extendRule_rewrites (pending : ExtensionMap) (h : drops r.target r.extender) :
    Ensures (Rewrites drops) (extendRule pending r) s fun added _ =>
      ∀ r' ∈ added, pending.contains r'.target = true := by
  refine extending_rewrites.bind fun found s' _ _ => ?_
  split
  · exact .pure (by simp)
  refine Ensures.get_bind ?_
  split
  · exact .pure (by simp)
  refine (Ensures.mapM_forall fun c _ s'' _ => addDerived_rewrites pending _).bind
    fun added s'' _ hadded => ?_
  have targets : ∀ r' ∈ added.filterMap id, pending.contains r'.target = true := by
    intro r' hr'
    obtain ⟨found, mem, hfound⟩ := List.mem_filterMap.1 hr'
    exact hadded found mem r' hfound
  dsimp only
  split
  · exact .modify_pure (.single (.drop h)) targets
  · exact .pure targets

/-- Rounds of settling.  Every rule to be extended may be dropped: the given ones, and those that
the index has under one of the targets in any store on the way. -/
theorem settleWithin_rewrites (limit : ℕ) (isTarget : Simple → Prop) : ∀ (n : ℕ) {s : Store}
    (rules : List ExtendRule) (pending new : ExtensionMap),
    (∀ r ∈ rules, drops r.target r.extender) →
    (∀ x, pending.contains x = true → isTarget x) → (∀ x, new.contains x = true → isTarget x) →
    (∀ s', Rewrites drops s s' → ∀ x, isTarget x → ∀ r ∈ (s'.byExtender.get? x).getD [],
      drops r.target r.extender) →
    Ensures (Rewrites drops) (settleWithin limit n rules pending new) s fun new' _ =>
      ∀ x, new'.contains x = true → isTarget x
  | _, _, [], _, _, _, _, hnew, _ => by
    unfold settleWithin
    exact .pure hnew
  | 0, _, _ :: _, _, _, _, _, _, _ => .throw _
  | n + 1, s, r :: rules, pending, new, hrules, hpending, hnew, index => by
    refine (Ensures.mapM_forall fun r hr s' _ => extendRule_rewrites pending (hrules r hr)).bind
      fun added s' reached hadded => ?_
    have targets : ∀ x, (mapOfRules added.flatten).contains x = true → isTarget x := by
      intro x hx
      obtain ⟨r', hr', same⟩ := contains_mapOfRules.1 hx
      obtain ⟨part, mem, hr'⟩ := List.mem_flatten.1 hr'
      exact hpending x (contains_of_beq (hadded part mem r' hr') same)
    dsimp only
    split
    · exact .pure hnew
    refine Ensures.get_bind (settleWithin_rewrites limit isTarget n _ _ _ (fun r' hr' => ?_) targets
      (fun x hx => (contains_addAll.1 hx).elim (hnew x) (targets x))
      fun s'' reached' => index s'' (reached.trans reached'))
    obtain ⟨target, mem, hr'⟩ := List.mem_flatMap.1 (List.mem_filter.1 hr').1
    exact index s' reached target (targets target (contains_of_mem_keys mem)) r' hr'

/-- **Settling only rewrites extensions**, drops nothing but what it may, and its result has no
targets but those it began with. -/
theorem settle_rewrites (drops : Simple → Complex → Prop) (isTarget : Simple → Prop)
    {rules : List ExtendRule} (hrules : ∀ r ∈ rules, drops r.target r.extender)
    (hnew : ∀ x, new.contains x = true → isTarget x)
    (index : ∀ s', Rewrites drops s s' → ∀ x, isTarget x → ∀ r ∈ (s'.byExtender.get? x).getD [],
      drops r.target r.extender) :
    Ensures (Rewrites drops) (settle rules new) s fun new' _ =>
      ∀ x, new'.contains x = true → isTarget x :=
  Ensures.get_bind (settleWithin_rewrites _ isTarget _ rules new new hrules hnew hnew index)

end Store

end SelectorAlgebra
