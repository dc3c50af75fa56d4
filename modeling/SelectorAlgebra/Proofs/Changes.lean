import Mathlib
import SelectorAlgebra.Proofs.Authorship
import SelectorAlgebra.Proofs.Settling

/-!
# Proofs/Changes — the changes that calls are made of

Everything a call does to a store, it does by changes of nine kinds (`Change`):

    note, push, select     author-written selectors and source specificities, selectors
    target, drop           an empty entry for a target, one extension less
    merge                  one more rule for a pair that is there
    write, derive, bring   a new pair: written, found by extending an extender, from another store

* `afterCalls_reaches` — the store after any calls, failed ones included, is reached by such
  changes.

So a property of all reachable stores is one that each kind of change keeps.  Which pairs another
store may bring is a parameter, `brings`.
-/

namespace SelectorAlgebra.Store

/-- The extension of `target` by `extender`, if there is one. -/
def extension? (s : Store) (target : Simple) (extender : Complex) : Option Extension :=
  (s.extensions.get? target).bind (·.get? extender)

/-- One change to a store. -/
inductive Change (brings : Simple → Complex → Prop) : Store → Store → Prop where
  | note (s : Store) (sources : SourceSpecificity) (authored : List Complex) :
    Change brings s { s with sources := sources, authored := authored }
  | push (s : Store) (slot : Slot) : Change brings s (s.pushSlot slot)
  | select {s : Store} {id : ℕ} {slot : Slot} (h : s.slots[id]? = some slot)
    (value : SelectorList) : Change brings s (s.setSelector id slot value)
  | target (s : Store) (target : Simple) : Change brings s (s.ensureTarget target)
  | drop (s : Store) (target : Simple) (extender : Complex) :
    Change brings s (s.dropExtension target extender)
  | merge {s : Store} {target : Simple} {extender : Complex} {existing e merged : Extension}
    (known : s.extension? target extender = some existing) (h : existing.merge e = .ok merged) :
    Change brings s (s.putExtension target extender merged)
  | write {s : Store} {r : ExtendRule} (new : s.extension? r.target r.extender = none) :
    Change brings s ((s.putExtension r.target r.extender (.rule r)).indexRule r r.extender.simples)
  | derive {s : Store} {r : ExtendRule} (new : s.extension? r.target r.extender = none) :
    Change brings s
      ((s.indexRule r r.extender.compounds.flatten).putExtension r.target r.extender (.rule r))
  | bring {s : Store} {target : Simple} {extender : Complex} (h : brings target extender)
    (e : Extension) : Change brings s (s.putExtension target extender e)

/-- Any number of changes. -/
abbrev Reaches (brings : Simple → Complex → Prop) : Store → Store → Prop :=
  Relation.ReflTransGen (Change brings)

/-- What every change keeps, any number of them keep. -/
theorem Reaches.keeps {brings : Simple → Complex → Prop} {P : Store → Prop}
    (step : ∀ s s', Change brings s s' → P s → P s') {s s' : Store} (h : Reaches brings s s')
    (start : P s) : P s' := by
  induction h with
  | refl => exact start
  | tail _ change ih => exact step _ _ change ih

variable {brings : Simple → Complex → Prop} {s s' : Store}

theorem reaches_noteSources (s : Store) (extender : Complex) :
    Reaches brings s (s.noteSources extender) :=
  .single (.note s _ s.authored)

/-- A run of extension changes only the authored choices. -/
theorem extending_reaches {α : Type} {extensions : ExtensionMap} {span : Span}
    {media : Option MediaContext} {step : ExtendContext → Extending α} :
    Ensures (Reaches brings) (Storing.extending extensions span media step) s
      fun _ s' => s'.slots = s.slots :=
  .extending (.single (.note s s.sources _)) fun _ _ _ => rfl

/-- One more rule for a pair that is there. -/
theorem merge_reaches {α : Type} {target : Simple} {extender : Complex} {existing e : Extension}
    {a : α} (known : s.extension? target extender = some existing) :
    Ensures (Reaches brings) (do
      let merged ← Storing.ofExcept (existing.merge e)
      modify (·.putExtension target extender merged)
      return a : Storing α) s fun _ _ => True := by
  refine (Ensures.ofExcept (Q := fun merged s' => existing.merge e = .ok merged ∧ s' = s)
    fun merged h => ⟨h, rfl⟩).bind fun merged s' _ ⟨h, hs⟩ => .modify_pure ?_ trivial
  subst hs
  exact .single (.merge known h)

/-! ## Extending extenders -/

/-- A step of settling is a change. -/
theorem Rewrite.change {drops : Simple → Complex → Prop} (h : Rewrite drops s s') :
    Change brings s s' := by
  cases h with
  | note authored => exact .note s s.sources authored
  | merge known h => exact .merge known h
  | derive new => exact .derive new
  | drop => exact .drop s _ _

/-- Rewritten extenders are changes one after another. -/
theorem Rewrites.reaches {drops : Simple → Complex → Prop} (h : Rewrites drops s s') :
    Reaches brings s s' :=
  Relation.ReflTransGen.mono (fun _ _ step => step.change) s s' h

/-- Settling rewrites extenders and nothing else. -/
theorem settle_reaches (rules : List ExtendRule) (new : ExtensionMap) :
    Ensures (Reaches brings) (settle rules new) s fun _ _ => True :=
  ((settle_rewrites (fun _ _ => True) (fun _ => True) (fun _ _ => trivial)
    (fun _ _ => trivial) fun _ _ _ _ _ _ => trivial).weaken fun _ => Rewrites.reaches).mono
      fun _ _ _ _ => trivial

/-! ## Selectors -/

theorem extendSelectors_reaches (new : ExtensionMap) (ids : List ℕ) :
    Ensures (Reaches brings) (extendSelectors new ids) s fun _ _ => True := by
  refine Ensures.forM fun id _ s' _ => Ensures.get_bind ?_
  split
  · exact .pure trivial
  rename_i slot hslot
  refine extending_reaches.bind fun found s'' _ hs => ?_
  split
  · exact .pure trivial
  split
  · exact .pure trivial
  · exact .modify (.single (.select (hs ▸ hslot) _)) trivial

theorem addSelector_reaches (l : SelectorList) (span : Span) (media : Option MediaContext) :
    Ensures (Reaches brings) (addSelector l span media) s fun _ _ => True := by
  have placed : ∀ {s₁ : Store}, Ensures (Reaches brings) (placeSelector l span media) s₁
      fun _ _ => True := by
    intro s₁
    refine Ensures.get_bind ?_
    split
    · exact .modify_pure (.single (.push s₁ _)) trivial
    · exact extending_reaches.bind fun found s₂ _ _ => .modify_pure (.single (.push s₂ _)) trivial
  rw [addSelector_eq]
  split
  · exact placed
  · exact .modify_bind (.single (.note s s.sources _)) placed

theorem addRule_reaches (r : ExtendRule) :
    Ensures (Reaches brings) (addRule r) s fun _ _ => True := by
  refine Ensures.get_bind ?_
  split
  · rename_i existing known
    exact merge_reaches known
  · rename_i new
    exact .modify_pure (.trans (.single (.write new)) (reaches_noteSources _ _)) trivial

/-- What comes after the rules of an extension have been added. -/
theorem applyRules_reaches (rules : List ExtendRule) (new : ExtensionMap) (target : Simple) :
    Ensures (Reaches brings) (do
      let new ← settle rules new
      extendSelectors new (((← get).bySimple.get? target).getD [])) s fun _ _ => True :=
  (settle_reaches rules new).bind fun _ _ _ _ => Ensures.get_bind (extendSelectors_reaches _ _)

/-- An extension notes its rules and then applies them. -/
theorem addExtension_reaches (extender : SelectorList) (extenderSpan : Span) (target : Simple)
    (span : Span) (media : Option MediaContext) (optional : Bool) :
    Ensures (Reaches brings) (addExtension extender extenderSpan target span media optional) s
      fun _ _ => True := by
  refine Ensures.get_bind ?_
  dsimp only
  refine Ensures.modify_bind (.single (.target s target)) ?_
  refine (Ensures.mapM (S := fun _ _ => True) fun c _ s' _ => addRule_reaches _).bind
    fun added s₂ _ _ => ?_
  split
  · exact .pure trivial
  split
  · exact .pure trivial
  · exact applyRules_reaches _ _ target

/-! ## Other style sheets -/

/-- A store has an extension for the pair, up to equivalence. -/
def Holds (s : Store) (target : Simple) (extender : Complex) : Prop :=
  ∃ entry ∈ s.extensions.entries, (entry.1 == target) = true ∧
    ∃ e ∈ entry.2.entries, (e.1 == extender) = true

/-- Importing a target puts only the extensions it has. -/
theorem importTarget_reaches (found : Import) (entry : Simple × OrderedMap Complex Extension)
    (h : ∀ e ∈ entry.2.entries, brings entry.1 e.1) :
    Ensures (Reaches brings) (importTarget found entry) s fun _ _ => True := by
  obtain ⟨target, sources⟩ := entry
  simp only [importTarget]
  split
  · exact .pure trivial
  refine Ensures.get_bind ?_
  refine Ensures.modify_bind (.single (.target s target)) ?_
  refine (Ensures.mapM (S := fun _ _ => True) fun e mem s' _ => ?_).bind
    fun added s₂ _ _ => .pure trivial
  refine Ensures.get_bind ?_
  split
  · refine (Ensures.ofExcept (Q := fun _ _ => True) fun _ _ => trivial).bind fun merged s'' _ _ =>
      .modify_pure (.single (.bring (h e mem) merged)) trivial
  · exact .modify_pure (.single (.bring (h e mem) e.2)) trivial

theorem importStore_reaches (found : Import) (other : Store)
    (h : ∀ target extender, other.Holds target extender → brings target extender) :
    Ensures (Reaches brings) (importStore found other) s fun _ _ => True := by
  unfold importStore
  split
  · exact .pure trivial
  · exact .modify_bind (.single (.note s _ s.authored)) (.foldlM (I := fun _ => True)
      (fun entry mem found s' _ _ => importTarget_reaches found entry fun e he =>
        h _ _ ⟨entry, mem, BEq.rfl, e, he, BEq.rfl⟩) trivial)

/-- Importing stores puts only what they hold, and applies it. -/
theorem addExtensions_reaches (others : List Store)
    (h : ∀ other ∈ others, ∀ target extender, other.Holds target extender →
      brings target extender) :
    Ensures (Reaches brings) (addExtensions others) s fun _ _ => True := by
  refine (Ensures.foldlM (I := fun _ => True) (fun other mem found s' _ _ =>
    importStore_reaches found other (h other mem)) trivial).bind fun found s₁ _ _ => ?_
  split
  · exact .pure trivial
  · exact (settle_reaches _ _).bind fun new s₂ _ _ => extendSelectors_reaches _ _

/-! ## Calls -/

/-- Some call adds the extensions of a store that has the pair. -/
def Imports (calls : List Call) (target : Simple) (extender : Complex) : Prop :=
  ∃ others, Call.addExtensions others ∈ calls ∧ ∃ other ∈ others, other.Holds target extender

/-- **Every call is a run of changes**, with the extensions it imports. -/
theorem Call.reaches {call : Call} (h : ∀ target extender, Imports [call] target extender →
    brings target extender) : Reaches brings s (outcomeFrom call.operation s).2 := by
  cases call with
  | addSelector l span media =>
    exact ((addSelector_reaches l span media).bind fun _ _ _ _ =>
      Ensures.pure (Q := fun _ _ => True) trivial).1
  | addExtension extender extenderSpan target span media optional =>
    exact (addExtension_reaches extender extenderSpan target span media optional).1
  | addExtensions others =>
    exact (addExtensions_reaches others fun other mem target extender holds =>
      h target extender ⟨others, List.mem_singleton_self _, other, mem, holds⟩).1

/-- **Any calls are a sequence of changes**, and what other stores bring is what they held. -/
theorem afterCalls_reaches {calls : List Call}
    (h : ∀ target extender, Imports calls target extender →
    brings target extender) : Reaches brings s (afterCalls calls s) := by
  induction calls generalizing s with
  | nil => exact .refl
  | cons call calls ih =>
    refine .trans (Call.reaches fun target extender imported => ?_)
      (ih fun target extender imported => ?_)
    · obtain ⟨others, mem, holds⟩ := imported
      exact h target extender ⟨others, List.mem_cons.2 (.inl (List.mem_singleton.1 mem)), holds⟩
    · obtain ⟨others, mem, holds⟩ := imported
      exact h target extender ⟨others, List.mem_cons_of_mem call mem, holds⟩

end SelectorAlgebra.Store
