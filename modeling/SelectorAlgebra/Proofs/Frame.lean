import Mathlib
import SelectorAlgebra.Proofs.Changes
import SelectorAlgebra.Proofs.Occurrence

/-!
# Proofs/Frame — selectors that a call does not touch

* `unmentioned_selectors_kept` — a selector that mentions no target of the added extensions stays as
  it is, in any store and whether the call fails or not.

Two facts are behind it.  Extending a list that mentions no target gives nothing and leaves the
record of author-written selectors, on every level of arguments (`extendList_idle`).  And settling,
which may find many new extensions, never finds one of another target (`settle_spares`).
-/

namespace SelectorAlgebra

/-! ## Extending what no extension is about -/

namespace ExtendContext

variable {ctx : ExtendContext} {inner : SelectorList → Extending (Option SelectorList)}
  {authored : List Complex}

/-- An argument that is left alone leaves its condition alone. -/
theorem extendArgument_idle {s : Simple}
    (h : ∀ l, s.argument? = some l → outcomeFrom (inner l) authored = (.ok none, authored)) :
    outcomeFrom (s.extendArgument inner) authored = (.ok none, authored) := by
  unfold Simple.extendArgument
  split
  · split
    · rename_i l hl
      rw [outcomeFrom_bind, h l hl]
      rfl
    · rfl
  · rfl

/-- A compound has no choices exactly when none of its conditions is a target. -/
theorem compoundChoices_eq_none_iff {c : Compound} :
    ctx.compoundChoices (c.map fun s => (s, none)) = none ↔
      ∀ s ∈ c, ctx.extensions.contains s = false := by
  have none_iff : ctx.compoundChoices (c.map fun s => (s, none)) = none ↔
      (c.map fun s => (s, (none : Option (List Simple)))).dropWhile
        (fun part => (ctx.choicesFor part).isNone) = [] := by
    unfold compoundChoices
    dsimp only
    split
    · rename_i rest
      exact iff_of_true rfl rest
    · rename_i rest
      exact iff_of_false (Option.some_ne_none _) rest
  rw [none_iff, List.dropWhile_eq_nil_iff, List.forall_mem_map]
  exact forall₂_congr fun s _ => choicesFor_isNone_iff

/-- Extending has nothing to do with the compound: none of its conditions is a target, or they do
not meet as many as the mode asks for. -/
def LeavesAlone (ctx : ExtendContext) (c : Compound) : Prop :=
  ctx.compoundChoices (c.map fun s => (s, none)) = none ∨
    ctx.enoughTargets (c.map fun s => (s, none)) = false

theorem leavesAlone_of_untargeted {c : Compound} (h : ∀ s ∈ c, ctx.extensions.contains s = false) :
    ctx.LeavesAlone c :=
  .inl (compoundChoices_eq_none_iff.2 h)

/-- No part of a compound is replaced if no argument in it is extended. -/
theorem outcomeFrom_parts {c : Compound}
    (hin : ∀ s ∈ c, ∀ l, s.argument? = some l → outcomeFrom (inner l) authored
      = (.ok none, authored)) :
    outcomeFrom (c.mapM fun s => do return (s, ← s.extendArgument inner) : Extending _) authored
      = (.ok (c.map fun s => (s, none)), authored) := by
  refine outcomeFrom_mapM fun s hs => ?_
  rw [outcomeFrom_bind, extendArgument_idle (hin s hs)]
  rfl

/-- A compound that is left alone, with arguments that are. -/
theorem extendCompound_idle {c : Compound} (own : Bool) (h : ctx.LeavesAlone c)
    (hin : ∀ s ∈ c, ∀ l, s.argument? = some l → outcomeFrom (inner l) authored
      = (.ok none, authored)) :
    outcomeFrom (ctx.extendCompound inner own c) authored = (.ok none, authored) := by
  rw [extendCompound, outcomeFrom_bind, outcomeFrom_parts hin]
  dsimp only
  split
  · rfl
  · rename_i choices hchoices
    rw [h.resolve_left (by simp [hchoices])]
    rfl

theorem extendComplexWith_idle {c : Complex} (h : ∀ d, .compound d ∈ c.items → ctx.LeavesAlone d)
    (hin : ∀ d, .compound d ∈ c.items → ∀ s ∈ d, ∀ l, s.argument? = some l →
      outcomeFrom (inner l) authored = (.ok none, authored)) :
    outcomeFrom (ctx.extendComplexWith inner c) authored = (.ok none, authored) := by
  have parts : outcomeFrom (c.items.mapM (ctx.extendItem inner (authored.contains c))) authored
      = (.ok (c.items.map fun _ => none), authored) := by
    refine outcomeFrom_mapM fun item hitem => ?_
    cases item with
    | compound d => exact extendCompound_idle _ (h d hitem) (hin d hitem)
    | combinator k => rfl
  show outcomeFrom (_ >>= _) authored = _
  rw [outcomeFrom_bind]
  show outcomeFrom (_ >>= _) authored = _
  rw [outcomeFrom_bind, parts]
  dsimp only
  rw [if_pos (by simp)]
  rfl

theorem extendListWith_idle {l : SelectorList}
    (h : ∀ c ∈ l, ∀ d, .compound d ∈ c.items → ctx.LeavesAlone d)
    (hin : ∀ c ∈ l, ∀ d, .compound d ∈ c.items → ∀ s ∈ d, ∀ l', s.argument? = some l' →
      outcomeFrom (inner l') authored = (.ok none, authored)) :
    outcomeFrom (ctx.extendListWith inner l) authored = (.ok none, authored) := by
  have parts : outcomeFrom (l.mapM (ctx.extendComplexWith inner)) authored
      = (.ok (l.map fun _ => none), authored) :=
    outcomeFrom_mapM fun c hc => extendComplexWith_idle (h c hc) (hin c hc)
  rw [extendListWith, outcomeFrom_bind, parts]
  dsimp only
  rw [if_pos (by simp)]
  rfl

/-- **A list in which every compound is left alone is left alone**, on every level of arguments.
What is known of the list, `P`, has to go on to the arguments in it. -/
theorem extendListWithin_idle {P : SelectorList → Prop}
    (leaves : ∀ l, P l → ∀ c ∈ l, ∀ d, .compound d ∈ c.items → ctx.LeavesAlone d)
    (inside : ∀ l, P l → ∀ c ∈ l, ∀ d, .compound d ∈ c.items → ∀ s ∈ d, ∀ l',
      s.argument? = some l' → P l') (n : ℕ) {l : SelectorList} (h : P l) :
    outcomeFrom (ctx.extendListWithin n l) authored = (.ok none, authored) := by
  induction n generalizing l with
  | zero => rfl
  | succ n ih =>
    exact extendListWith_idle (leaves l h) fun c hc d hd s hs l' hl' =>
      ih (inside l h c hc d hd s hs l' hl')

/-- **A list that mentions no target at any depth is left as it is.** -/
theorem extendList_idle {l : SelectorList}
    (h : ∀ x ∈ SelectorList.simples l, ctx.extensions.contains x = false) :
    outcomeFrom (ctx.extendList l) authored = (.ok none, authored) := by
  refine extendListWithin_idle
    (P := fun l => ∀ x ∈ SelectorList.simples l, ctx.extensions.contains x = false)
    (fun l h c hc d hd => ?_) (fun l h c hc d hd s hs l' hl' x hx => ?_) _ h
  · exact leavesAlone_of_untargeted fun s hs => h s (mem_simples.2 ⟨c, hc, d, hd, s, hs, .inl rfl⟩)
  · exact h x (mem_simples.2 ⟨c, hc, d, hd, s, hs, .inr ⟨l', hl', hx⟩⟩)

end ExtendContext

/-! ## Selectors that are spared -/

namespace Store

variable {spared : SelectorList → Prop} {s s' : Store}

/-- Every selector for which `spared` holds is still in its place. -/
def Spares (spared : SelectorList → Prop) (s s' : Store) : Prop :=
  ∀ (id : ℕ) (slot : Slot), s.slots[id]? = some slot → spared slot.value →
    s'.slots[id]? = some slot

instance reflSpares : Std.Refl (Spares spared) := ⟨fun _ _ _ hslot _ => hslot⟩

instance isTransSpares : IsTrans Store (Spares spared) :=
  ⟨fun _ _ _ first second id slot hslot h => second id slot (first id slot hslot h) h⟩

theorem spares_of_slots (h : s'.slots = s.slots) : Spares spared s s' :=
  fun _ _ hslot _ => h ▸ hslot

/-- Changing a slot spares the selectors that are not changed. -/
theorem spares_setSelector {id : ℕ} {slot : Slot} (hslot : s.slots[id]? = some slot)
    (h : ¬ spared slot.value) (value : SelectorList) :
    Spares spared s (s.setSelector id slot value) := by
  intro id' slot' hslot' h'
  have other : id ≠ id' := by
    rintro rfl
    obtain rfl := Option.some.inj (hslot.symm.trans hslot')
    exact h h'
  rw [setSelector, List.getElem?_set_ne other, hslot']

/-- The steps of settling leave all selectors. -/
theorem Rewrites.slots {drops : Simple → Complex → Prop} (h : Rewrites drops s s') :
    s'.slots = s.slots := by
  induction h with
  | refl => rfl
  | tail _ step ih => cases step <;> exact ih

/-- Settling changes no slot, and adds no target. -/
theorem settle_spares {isTarget : Simple → Prop} {rules : List ExtendRule} {new : ExtensionMap}
    (h : ∀ x, new.contains x = true → isTarget x) :
    Ensures (Spares spared) (settle rules new) s fun new' _ =>
      ∀ x, new'.contains x = true → isTarget x :=
  (settle_rewrites (fun _ _ => True) isTarget (fun _ _ => trivial) h
    fun _ _ _ _ _ _ => trivial).weaken fun _ reached => spares_of_slots (Rewrites.slots reached)

/-- The lists that mention no target. -/
def Unmentioned (isTarget : Simple → Prop) (l : SelectorList) : Prop :=
  ∀ t, isTarget t → ¬ l.Mentions t

/-- Extending the slots spares what mentions no target. -/
theorem extendSelectors_spares {isTarget : Simple → Prop} {new : ExtensionMap}
    (h : ∀ x, new.contains x = true → isTarget x) (ids : List ℕ) :
    Ensures (Spares (Unmentioned isTarget)) (extendSelectors new ids) s fun _ _ => True := by
  refine Ensures.forM fun id _ s' _ => Ensures.get_bind ?_
  split
  · exact .pure trivial
  rename_i slot hslot
  by_cases free : Unmentioned isTarget slot.value
  · -- such a selector may be visited all the same, since the index never forgets
    have idle : ∀ x ∈ SelectorList.simples slot.value, new.contains x = false := by
      intro x hx
      by_contra target
      exact free x (h x (by simpa using target)) ⟨x, mem_simples_iff.1 hx, BEq.rfl⟩
    refine (Ensures.extending (Q := fun found _ => found = none) (spares_of_slots rfl)
      fun found authored out => ?_).bind fun found s'' _ hfound => ?_
    · rw [ExtendContext.extendList_idle idle] at out
      exact (Except.ok.inj (Prod.mk.inj out).1).symm
    · subst hfound
      exact .pure trivial
  · refine (Ensures.extending (Q := fun _ s'' => s''.slots[id]? = some slot)
      (spares_of_slots rfl) fun _ _ _ => hslot).bind fun found s'' _ hslot' => ?_
    split
    · exact .pure trivial
    split
    · exact .pure trivial
    · exact .modify (spares_setSelector hslot' free _) trivial

/-! ## Adding an extension -/

theorem addRule_spares (r : ExtendRule) : Ensures (Spares spared) (addRule r) s fun found _ =>
    ∀ r' ∈ found, r' = r := by
  refine Ensures.get_bind ?_
  split
  · exact (Ensures.ofExcept (Q := fun _ _ => True) fun _ _ => trivial).bind fun merged s' _ _ =>
      .modify_pure (spares_of_slots rfl) (by simp)
  · exact .modify_pure (spares_of_slots rfl) (by simp)

/-- Adding rules for one target spares all selectors, and what it returns is for that target. -/
theorem addRules_spares (rule : Complex → ExtendRule) {target : Simple}
    (h : ∀ c, (rule c).target = target) (choices : SelectorList) :
    Ensures (Spares spared) (choices.mapM fun c => addRule (rule c)) s fun added _ =>
      ∀ x, (mapOfRules (added.filterMap id)).contains x = true → (target == x) = true := by
  refine (Ensures.mapM_forall (P := fun found => ∀ r ∈ found, r.target = target) fun c _ s' _ =>
    (addRule_spares _).mono fun found _ _ same r hr => same r hr ▸ h c).mono
      fun added _ _ hadded x hx => ?_
  obtain ⟨r, hr, same⟩ := contains_mapOfRules.1 hx
  obtain ⟨found, mem, hfound⟩ := List.mem_filterMap.1 hr
  rwa [← hadded found mem r hfound]

/-- An extension spares the selectors that do not mention its target. -/
theorem addExtension_spares (extender : SelectorList) (extenderSpan : Span) (target : Simple)
    (span : Span) (media : Option MediaContext) (optional : Bool) :
    Ensures (Spares (Unmentioned fun x => (target == x) = true))
      (addExtension extender extenderSpan target span media optional) s fun _ _ => True := by
  refine Ensures.get_bind (.modify_bind (spares_of_slots rfl) ?_)
  refine (addRules_spares (.written · extenderSpan target span media optional)
    (fun _ => rfl) _).bind fun added s' _ targets => ?_
  split
  · exact .pure trivial
  split
  · exact .pure trivial
  · exact (settle_spares targets).bind fun new s'' _ hnew =>
      Ensures.get_bind (extendSelectors_spares hnew _)

/-! ## Adding other style sheets -/

theorem contains_foldl_insert {added : List (Complex × Extension)} {m : ExtensionMap}
    {target x : Simple}
    (h : (added.foldl (fun m (extender, e) => setExtension m target extender e) m).contains x
      = true) :
    m.contains x = true ∨ (target == x) = true := by
  induction added generalizing m with
  | nil => exact .inl h
  | cons e added ih =>
    obtain ⟨extender, e⟩ := e
    rcases ih h with old | new
    · dsimp only at old
      rw [setExtension, OrderedMap.contains_alter, Bool.or_eq_true] at old
      exact old.symm
    · exact .inr new

/-- Importing a target adds it to the new ones, unless it is a private placeholder. -/
theorem importTarget_spares {isTarget : Simple → Prop} {found : Import}
    (hfound : ∀ x, found.new.contains x = true → isTarget x)
    {entry : Simple × OrderedMap Complex Extension}
    (h : entry.1.isPrivatePlaceholder = false → ∀ x, (entry.1 == x) = true → isTarget x) :
    Ensures (Spares spared) (importTarget found entry) s fun found' _ =>
      ∀ x, found'.new.contains x = true → isTarget x := by
  obtain ⟨target, sources⟩ := entry
  simp only [importTarget]
  split
  · exact .pure hfound
  rename_i visible
  refine Ensures.get_bind (.modify_bind (spares_of_slots rfl) ?_)
  refine (Ensures.mapM (S := fun _ _ => True) fun e _ s' _ => Ensures.get_bind ?_).bind
    fun added s' _ _ => .pure fun x hx => ?_
  · split
    · exact (Ensures.ofExcept (Q := fun _ _ => True) fun _ _ => trivial).bind fun merged s'' _ _ =>
        .modify_pure (spares_of_slots rfl) trivial
    · exact .modify_pure (spares_of_slots rfl) trivial
  · dsimp only at hx
    split at hx
    · exact (contains_foldl_insert hx).elim (hfound x) (h (by simpa using visible) x)
    · exact hfound x hx

theorem importStore_spares {isTarget : Simple → Prop} {found : Import}
    (hfound : ∀ x, found.new.contains x = true → isTarget x) {other : Store}
    (h : ∀ t ∈ other.extensions.keys, t.isPrivatePlaceholder = false → ∀ x, (t == x) = true →
      isTarget x) :
    Ensures (Spares spared) (importStore found other) s fun found' _ =>
      ∀ x, found'.new.contains x = true → isTarget x := by
  unfold importStore
  split
  · exact .pure hfound
  · exact .modify_bind (spares_of_slots rfl) (.foldlM (fun entry mem found' s' _ hfound' =>
      importTarget_spares hfound' (h entry.1 (List.mem_map_of_mem mem))) hfound)

/-- Importing stores spares the selectors that mention none of their public targets. -/
theorem addExtensions_spares {isTarget : Simple → Prop} {others : List Store}
    (h : ∀ other ∈ others, ∀ t ∈ other.extensions.keys, t.isPrivatePlaceholder = false →
      ∀ x, (t == x) = true → isTarget x) :
    Ensures (Spares (Unmentioned isTarget)) (addExtensions others) s fun _ _ => True := by
  refine (Ensures.foldlM (I := fun found : Import => ∀ x, found.new.contains x = true → isTarget x)
    (fun other mem found s' _ hfound => importStore_spares hfound (h other mem)) ?_).bind
      fun found s' _ hfound => ?_
  · exact fun x hx => absurd hx Bool.false_ne_true
  split
  · exact .pure trivial
  · exact (settle_spares hfound).bind fun new s'' _ hnew => extendSelectors_spares hnew _

/-! ## The frame of a call -/

theorem mentions_of_beq {l : SelectorList} {t x : Simple} (same : (t == x) = true)
    (h : l.Mentions x) : l.Mentions t := by
  obtain ⟨y, hy, equal⟩ := h
  exact ⟨y, hy, BEq.trans equal (BEq.symm same)⟩

/-- A spared selector is found where it was. -/
theorem Spares.selector? {id : ℕ} {l : SelectorList} (kept : Spares spared s s')
    (h : s.selector? id = some l) (hl : spared l) : s'.selector? id = some l := by
  obtain ⟨slot, hslot, rfl⟩ := Option.map_eq_some_iff.1 h
  rw [Store.selector?, kept id slot hslot hl, Option.map_some]

/-- **What a selector does not mention does not change it.**  A call that adds an extension leaves
every selector that mentions its target nowhere, and one that adds the extensions of other stores
leaves every selector that mentions none of their targets, private placeholders apart: in any store,
whether the call fails or not. -/
theorem unmentioned_selectors_kept (s : Store) {id : ℕ} {l : SelectorList}
    (h : s.selector? id = some l) :
    (∀ extender extenderSpan target span media optional, ¬ l.Mentions target →
      (outcomeFrom (addExtension extender extenderSpan target span media optional) s).2.selector? id
        = some l) ∧
    ∀ others : List Store, (∀ other ∈ others, ∀ target ∈ other.extensions.keys,
        target.isPrivatePlaceholder = false → ¬ l.Mentions target) →
      (outcomeFrom (addExtensions others) s).2.selector? id = some l := by
  refine ⟨fun extender extenderSpan target span media optional free => ?_, fun others free => ?_⟩
  · exact (addExtension_spares extender extenderSpan target span media optional).1.selector? h
      fun x same mentions => free (mentions_of_beq same mentions)
  · -- the targets are known up to equivalence only
    let isTarget := fun x => ∃ other ∈ others, ∃ target ∈ other.extensions.keys,
      target.isPrivatePlaceholder = false ∧ (target == x) = true
    have kept : Spares (Unmentioned isTarget) s (outcomeFrom (addExtensions others) s).2 :=
      (addExtensions_spares fun other mem target htarget visible x same =>
        ⟨other, mem, target, htarget, visible, same⟩).1
    refine kept.selector? h ?_
    rintro x ⟨other, mem, target, htarget, visible, same⟩ mentions
    exact free other mem target htarget visible (mentions_of_beq same mentions)

/-- A rule `%-p` is left when an extension of `.a` fails half-way, at the second of two rules `.a`;
and when another style sheet extends both `.a` and its own `%-p`, which changes the rules `.a`. -/
theorem unmentioned_selectors_kept_placeholder :
    let a : Complex := .ofCompound [.className "a"]
    let b : Complex := .ofCompound [.className "b"]
    let p : Complex := .ofCompound [.placeholder "-p"]
    let s := afterCalls [.addSelector [p] default none, .addSelector [a] default (some ["print"]),
      .addSelector [a] default none] (.empty .normal 1)
    let failing := addExtension [b] default (.className "a") default (some ["print"]) false
    let other := afterCalls [.addExtension [b] default (.className "a") default none false,
      .addExtension [b] default (.placeholder "-p") default none false] (.empty .normal 1)
    s.selector? 0 = some [p] ∧ (outcomeFrom failing s).1.isOk = false ∧
      (outcomeFrom failing s).2.selector? 1 = some [a, b] ∧
      (outcomeFrom failing s).2.selector? 0 = some [p] ∧
      (outcomeFrom (addExtensions [other]) s).2.selector? 1 = some [a, b] ∧
      (outcomeFrom (addExtensions [other]) s).2.selector? 0 = some [p] := by
  intro a b p s failing other
  have here : s.selector? 0 = some [p] := by
    unfold s a p
    cbv
  have free : ¬ SelectorList.Mentions [p] (.className "a") := by
    rw [mentions_iff, Bool.not_eq_true]
    unfold p
    cbv
  have targets : other.extensions.keys = [.className "a", .placeholder "-p"] := by
    unfold other b
    cbv
  obtain ⟨one, all⟩ := unmentioned_selectors_kept s here
  refine ⟨here, ?_, ?_, one [b] default _ default _ _ free, ?_, all [other] ?_⟩
  · unfold failing s a b p
    cbv
  · unfold failing s a b p
    cbv
  · unfold other s a b p
    cbv
  · intro other' mem target htarget visible
    obtain rfl := List.mem_singleton.1 mem
    rw [targets, List.mem_cons, List.mem_singleton] at htarget
    rcases htarget with rfl | rfl
    · exact free
    · cases visible

end Store

end SelectorAlgebra
