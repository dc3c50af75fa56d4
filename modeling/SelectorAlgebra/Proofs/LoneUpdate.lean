import Mathlib.Data.List.Induction
import SelectorAlgebra.Proofs.LoneStore

/-!
# Proofs/LoneUpdate — what a new rule and a new extension do to a store of lone selectors

Both operations are described by the two relations `Store.Has` and `Extends`, and neither fails:

* `addSelector_lone` — the new rule has the conditions of its list and all that extend one of them;
* `addExtension_lone` — what the target extends, the target itself and every rule that has it get
  all conditions of the extender.

The second needs the store to be closed: extending is transitive, and a rule has whatever
extends one of its conditions.
-/

namespace SelectorAlgebra.Store

variable {s s' : Store}

/-! ## Selectors in their places -/

section Register

variable {index : OrderedMap Simple (List ℕ)} {x : Simple} {id : ℕ}

/-- A selector is listed under each of its conditions, once. -/
theorem get?_register (index : OrderedMap Simple (List ℕ)) (l : SelectorList) (id : ℕ)
    (x : Simple) :
    (register index l id).get? x = if (SelectorList.simples l).contains x
      then some (addDistinct ((index.get? x).getD []) id) else index.get? x := by
  have again : ∀ ids : List ℕ, addDistinct (addDistinct ids id) id = addDistinct ids id := by
    intro ids
    by_cases there : id ∈ ids <;> simp [addDistinct, there]
  unfold register
  generalize SelectorList.simples l = conditions
  induction conditions generalizing index with
  | nil => rfl
  | cons y conditions ih =>
    rw [List.foldl_cons, ih, OrderedMap.get?_alter, List.contains_cons]
    by_cases here : (y == x) = true
    · simp [here, BEq.symm here, again, index.get?_congr here]
    · have other : (x == y) = false := by rw [BEq.comm]; simpa using here
      simp [here, other]

/-- Registering a selector lists it under its own conditions and keeps what was listed. -/
theorem listed_register {l : SelectorList} {id' : ℕ} : Listed (register index l id') x id ↔
    Listed index x id ∨ (SelectorList.simples l).contains x = true ∧ id = id' := by
  unfold Listed
  rw [get?_register]
  by_cases own : (SelectorList.simples l).contains x = true
  · rw [if_pos own]
    cases index.get? x <;> simp [own, mem_addDistinct]
  · rw [if_neg own]
    simp [own]

/-- A list of lone selectors mentions what it has. -/
theorem contains_simples_lone {l : SelectorList} (hl : AreLone l) :
    (SelectorList.simples l).contains x = l.contains (lone x) := by
  rw [SelectorList.simples, simplesOfList_eq_flatMap]
  induction l with
  | nil => rfl
  | cons c l ih =>
    rw [AreLone, List.forall_mem_cons] at hl
    obtain ⟨⟨y, hc, plain⟩, hl⟩ := hl
    rw [List.flatMap_cons, simples_of_lone hc plain, List.singleton_append, List.contains_cons,
      ih hl, List.contains_cons]
    congr 1
    rw [BEq.comm, BEq.congr_right (beq_lone hc), lone_beq_lone, BEq.comm]

end Register

/-- The store `s'` has the extensions of `s`, and the rules of `s` with more conditions. -/
structure Spreads (s s' : Store) (new : ℕ → Simple → Prop) : Prop where
  isLone : IsLoneStore s'
  extensions : s'.extensions = s.extensions
  has_iff : ∀ id y, s'.Has id y ↔ s.Has id y ∨ new id y

theorem Spreads.congr {new new' : ℕ → Simple → Prop} (h : Spreads s s' new)
    (iff : ∀ id y, new id y ↔ new' id y) : Spreads s s' new' :=
  ⟨h.isLone, h.extensions, fun id y => by rw [h.has_iff, iff]⟩

/-- The store `s'` differs from `s` in what rule `id` has. -/
structure Places (s s' : Store) (id : ℕ) (value : SelectorList) : Prop where
  isLone : IsLoneStore s'
  extensions : s'.extensions = s.extensions
  count : s'.count = s.count
  has_iff : ∀ id' y, s'.Has id' y ↔
    if id' = id then value.contains (lone y) = true else s.Has id' y

/-- What a store has for a number is what the slot has. -/
theorem has_iff_of_slot {id : ℕ} {slot : Slot} (hs : s.slots[id]? = some slot) (y : Simple) :
    s.Has id y ↔ slot.value.contains (lone y) = true := by
  unfold Has
  rw [hs]
  simp

/-- A selector with the same conditions changes nothing. -/
theorem IsLoneStore.places_same (h : IsLoneStore s) {id : ℕ} {slot : Slot} {value : SelectorList}
    (hs : s.slots[id]? = some slot)
    (same : ∀ y, value.contains (lone y) = slot.value.contains (lone y)) : Places s s id value := by
  refine ⟨h, rfl, rfl, fun id' y => ?_⟩
  split
  · rename_i here
    rw [here, has_iff_of_slot hs, same]
  · rfl

/-- Storing a selector of lone choices. -/
theorem IsLoneStore.places_setSelector (h : IsLoneStore s) {id : ℕ} {slot : Slot}
    {value : SelectorList} (hs : s.slots[id]? = some slot) (hv : AreLone value) :
    Places s (s.setSelector id slot value) id value := by
  have lt := (List.getElem?_eq_some_iff.1 hs).1
  have has : ∀ id' y, (s.setSelector id slot value).Has id' y ↔
      if id' = id then value.contains (lone y) = true else s.Has id' y := by
    intro id' y
    unfold Has setSelector
    split
    · rename_i same
      subst same
      simp [List.getElem?_set_self lt]
    · rename_i other
      rw [List.getElem?_set_ne (Ne.symm other)]
  refine ⟨⟨h.mode, h.rounds, fun slot' hslot' => ?_, h.extensions, fun {id' x} hx => ?_, h.ruled,
    h.sound⟩, rfl, List.length_set, has⟩
  · rcases List.mem_or_eq_of_mem_set hslot' with old | rfl
    · exact h.slots slot' old
    · exact ⟨(h.slots slot (List.mem_of_getElem? hs)).1, hv⟩
  · rw [setSelector, listed_register, contains_simples_lone hv]
    rw [has] at hx
    split at hx
    · rename_i same
      exact .inr ⟨hx, same⟩
    · exact .inl (h.indexed hx)

/-- A new slot brings its own conditions under its own number. -/
theorem IsLoneStore.pushSlot (h : IsLoneStore s) {slot : Slot} (media : slot.media = none)
    (hv : AreLone slot.value) :
    Spreads s (s.pushSlot slot) fun id y => id = s.count ∧ slot.value.contains (lone y) = true := by
  have has : ∀ id y, (s.pushSlot slot).Has id y ↔
      s.Has id y ∨ id = s.count ∧ slot.value.contains (lone y) = true := by
    intro id y
    unfold Has Store.pushSlot count
    rcases Nat.lt_trichotomy id s.slots.length with lt | rfl | gt
    · simp [List.getElem?_append_left lt, Nat.ne_of_lt lt]
    · simp
    · have big : s.slots.length + 1 ≤ id := gt
      simp [List.getElem?_append_right (Nat.le_of_lt gt), List.getElem?_eq_none (Nat.le_of_lt gt),
        Nat.ne_of_gt gt, Nat.sub_ne_zero_of_lt gt]
  refine ⟨⟨h.mode, h.rounds, fun slot' hslot' => ?_, h.extensions, fun {id x} hx => ?_, h.ruled,
    h.sound⟩, rfl, has⟩
  · rcases List.mem_append.1 hslot' with old | new
    · exact h.slots slot' old
    · obtain rfl := List.mem_singleton.1 new
      exact ⟨media, hv⟩
  · rw [Store.pushSlot, listed_register, contains_simples_lone hv]
    exact ((has id x).1 hx).imp h.indexed And.symm

/-! ## Extending selectors -/

section Extend

variable {new : ExtensionMap} {t : Simple} {l : SelectorList}

/-- Extending a list of lone selectors inside a store. -/
theorem IsLoneStore.extending_list (h : IsLoneStore s) (hn : AreLoneExtensions new) (hl : AreLone l)
    (span : Span) :
    Yields (Storing.extending new span none (·.extendList l)) s fun found s' =>
      IsExtended new l (found.getD l) ∧ ∃ authored, s' = { s with authored := authored } :=
  extending_yields (ExtendContext.extendListWith_lone h.mode hn hl)

theorem contains_congr_of_beq : ∀ {l l' : SelectorList}, (l == l') = true → ∀ c : Complex,
    l.contains c = l'.contains c
  | [], [], _, _ => rfl
  | a :: l, b :: l', h, c => by
    rw [List.cons_beq_cons, Bool.and_eq_true] at h
    rw [List.contains_cons, List.contains_cons, contains_congr_of_beq h.2, BEq.congr_right h.1]

/-- One rule more is extended by what extends `t`. -/
theorem Spreads.extended {s₁ s₂ : Store} {before : List ℕ} {id : ℕ} {slot : Slot}
    {value : SelectorList}
    (h : Spreads s s₁ fun id y => id ∈ before ∧ s.Has id t ∧ Extends new t y)
    (only : ∀ x, new.contains x = true → (t == x) = true) (hslot : s₁.slots[id]? = some slot)
    (he : IsExtended new slot.value value) (hp : Places s₁ s₂ id value) :
    Spreads s s₂ fun id' y => id' ∈ before ++ [id] ∧ s.Has id' t ∧ Extends new t y := by
  have gets : ∀ y, value.contains (lone y) = true ↔
      s₁.Has id y ∨ s₁.Has id t ∧ Extends new t y := by
    intro y
    rw [he.2, has_iff_of_slot hslot, has_iff_of_slot hslot]
    refine or_congr_right ⟨fun ⟨x, hx, hy⟩ => ?_, fun ⟨ht, hy⟩ => ⟨t, ht, hy⟩⟩
    have same := only x hy.contains
    exact ⟨(contains_lone_congr same).trans hx, hy.congr_left (BEq.symm same)⟩
  refine ⟨hp.isLone, hp.extensions.trans h.extensions, fun id' y => ?_⟩
  rw [hp.has_iff, List.mem_append, List.mem_singleton]
  split
  · rename_i here
    subst here
    rw [gets, h.has_iff, h.has_iff]
    constructor
    · rintro ((old | ⟨-, ht, hy⟩) | ⟨ht | ⟨-, ht, -⟩, hy⟩)
      · exact .inl old
      · exact .inr ⟨.inr rfl, ht, hy⟩
      · exact .inr ⟨.inr rfl, ht, hy⟩
      · exact .inr ⟨.inr rfl, ht, hy⟩
    · rintro (old | ⟨-, ht, hy⟩)
      · exact .inl (.inl old)
      · exact .inr ⟨.inl ht, hy⟩
  · rename_i other
    rw [h.has_iff, or_iff_left other]

/-- Extending the slots for one target: every slot that has it gains its extenders. -/
theorem extendSelectors_lone (h : IsLoneStore s) (hn : AreLoneExtensions new)
    (only : ∀ x, new.contains x = true → (t == x) = true) (ids : List ℕ) :
    Yields (extendSelectors new ids) s fun _ s' => s'.count = s.count ∧
      Spreads s s' fun id y => id ∈ ids ∧ s.Has id t ∧ Extends new t y := by
  refine Yields.forM (I := fun before s' => s'.count = s.count ∧
    Spreads s s' fun id y => id ∈ before ∧ s.Has id t ∧ Extends new t y)
    (fun before id s₁ _ ⟨count, spreads⟩ => ?_) ⟨rfl, h, rfl, fun id y => by simp⟩
  refine Yields.get_bind ?_
  rcases hslot : s₁.slots[id]? with _ | slot
  · -- there is no such rule, so it had nothing before
    refine .pure ⟨count, spreads.congr fun id' y => ?_⟩
    refine and_congr_left fun ⟨ht, _⟩ => ?_
    have there : id' ≠ id := by
      rintro rfl
      obtain ⟨slot, there, -⟩ := (spreads.has_iff id' t).2 (.inl ht)
      rw [hslot] at there
      cases there
    simp [there]
  · obtain ⟨media, hl⟩ := spreads.isLone.slots slot (List.mem_of_getElem? hslot)
    dsimp only
    rw [media]
    refine (spreads.isLone.extending_list hn hl slot.span).bind
      fun found s₂ ⟨he, authored, hs⟩ => ?_
    have lone₂ : IsLoneStore s₂ := hs ▸ (spreads.isLone.gains_nothing s₁.sources authored).isLone
    have hslot₂ : s₂.slots[id]? = some slot := hs ▸ hslot
    have done : ∀ {s₃}, Places s₂ s₃ id (found.getD slot.value) → s₃.count = s.count ∧
        Spreads s s₃ fun id' y => id' ∈ before ++ [id] ∧ s.Has id' t ∧ Extends new t y := by
      subst hs
      exact fun hp => ⟨hp.count.trans count, spreads.extended only hslot he
        ⟨hp.isLone, hp.extensions, hp.count, hp.has_iff⟩⟩
    rcases found with _ | value
    · exact .pure (done (lone₂.places_same hslot₂ fun _ => rfl))
    · dsimp only
      split
      · rename_i same
        exact .pure (done (lone₂.places_same hslot₂ fun y => contains_congr_of_beq same _))
      · exact .modify (done (lone₂.places_setSelector hslot₂ he.1))

end Extend

/-- The store `s'` has one more rule than `s`, with the conditions of `l` and all that extend one of
them. -/
structure Registers (s s' : Store) (l : SelectorList) : Prop where
  isLone : IsLoneStore s'
  count : s'.count = s.count + 1
  extensions : s'.extensions = s.extensions
  has_iff : ∀ id y, s'.Has id y ↔ s.Has id y ∨ id = s.count ∧
    (l.contains (lone y) = true ∨
      ∃ x, l.contains (lone x) = true ∧ Extends s.extensions x y)

/-- A new selector is extended by what is known, and given the next number. -/
theorem addSelector_lone (h : IsLoneStore s) {l : SelectorList} (hl : AreLone l) (span : Span) :
    Yields (addSelector l span none) s fun id s' => id = s.count ∧ Registers s s' l := by
  have pushed : ∀ {value : SelectorList} (authored : List Complex),
      IsExtended s.extensions l value →
      Yields (do modify (·.pushSlot ⟨value, span, none⟩); pure s.count : Storing ℕ)
        { s with authored := authored } fun id s' => id = s.count ∧ Registers s s' l := by
    intro value authored he
    have spreads := (h.gains_nothing s.sources authored).isLone.pushSlot
      (show (⟨value, span, none⟩ : Slot).media = none from rfl) he.1
    refine Yields.modify_bind (.pure ⟨rfl, spreads.isLone, by simp [count, pushSlot], rfl, ?_⟩)
    intro id y
    rw [spreads.has_iff, he.2]
    rfl
  have placed : ∀ authored : List Complex, Yields (placeSelector l span none)
      { s with authored := authored } fun id s' => id = s.count ∧ Registers s s' l := by
    intro authored
    refine Yields.get_bind ?_
    dsimp only
    split
    · rename_i empty
      refine @pushed l authored ⟨hl, fun y => (or_iff_left ?_).symm⟩
      rintro ⟨x, -, sources, hs, -⟩
      rw [OrderedMap.get?, List.isEmpty_iff.1 empty] at hs
      cases hs
    · refine ((h.gains_nothing s.sources authored).isLone.extending_list h.extensions hl span).bind
        ?_
      rintro found s₂ ⟨he, authored', rfl⟩
      exact pushed authored' he
  rw [addSelector_eq]
  split
  · exact placed s.authored
  · exact Yields.modify_bind (placed _)

/-! ## The extensions of one call -/

section Target

variable {t : Simple}

theorem IsLoneStore.ensureTarget (h : IsLoneStore s) (t : Simple) :
    Gains s (s.ensureTarget t) fun _ _ => False := by
  have iff : ∀ x y, Extends (s.ensureTarget t).extensions x y ↔ Extends s.extensions x y := by
    intro x y
    unfold Extends Store.ensureTarget OrderedMap.insertNew
    rw [OrderedMap.get?_alter]
    by_cases ht : (t == x) = true
    · rw [if_pos ht, s.extensions.get?_congr ht]
      rcases s.extensions.get? x with _ | sources
      · simp [OrderedMap.contains, OrderedMap.empty]
      · simp
    · rw [if_neg ht]
  refine ⟨⟨h.mode, h.rounds, h.slots, fun entry mem => ?_, h.indexed,
    fun hx => h.ruled ((iff _ _).1 hx), fun r hr => ?_⟩, rfl, rfl, fun x y => by rw [iff, or_false]⟩
  · rcases OrderedMap.mem_entries_alter mem with old | ⟨sources, old, -, value⟩ | rfl
    · exact h.extensions entry old
    · rw [value]
      exact h.extensions _ old
    · exact fun e he => absurd he List.not_mem_nil
  · obtain ⟨media, lone, same, known⟩ := h.sound r hr
    exact ⟨media, lone, same, (iff _ _).2 known⟩

theorem mapOfRules_concat (rules : List ExtendRule) (r : ExtendRule) :
    mapOfRules (rules ++ [r]) = setExtension (mapOfRules rules) r.target r.extender (.rule r) := by
  rw [mapOfRules, List.foldl_append]
  rfl

/-- A table made of rules extends by exactly these rules. -/
theorem extends_mapOfRules {x y : Simple} (rules : List ExtendRule) :
    Extends (mapOfRules rules) x y ↔
      ∃ r ∈ rules, (r.target == x) = true ∧ (r.extender == lone y) = true := by
  induction rules using List.reverseRecOn with
  | nil => exact iff_of_false not_extends_empty (by simp)
  | append_singleton rules r ih =>
    rw [mapOfRules_concat, extends_setExtension, ih]
    simp only [List.mem_append, List.mem_singleton, or_and_right, exists_or, exists_eq_left]

/-- And by lone selectors, if theirs are. -/
theorem areLoneExtensions_mapOfRules {rules : List ExtendRule}
    (h : ∀ r ∈ rules, r.media = none ∧ IsLone r.extender) :
    AreLoneExtensions (mapOfRules rules) := by
  induction rules using List.reverseRecOn with
  | nil => exact fun entry mem => absurd mem List.not_mem_nil
  | append_singleton rules r ih =>
    rw [List.forall_mem_append, List.forall_mem_singleton] at h
    rw [mapOfRules_concat]
    exact (ih h.1).setExtension ⟨h.2.1, BEq.rfl, BEq.rfl, h.2.2⟩

theorem beq_of_contains_mapOfRules {x : Simple} {rules : List ExtendRule}
    (h : ∀ r ∈ rules, r.target = t) (hx : (mapOfRules rules).contains x = true) :
    (t == x) = true := by
  obtain ⟨r, hr, same⟩ := contains_mapOfRules.1 hx
  rwa [h r hr] at same

/-- From `s` on, the pairs of `t` and the selectors of `v` were brought in, and `added` are the
rules that were given back. -/
structure BringsIn (s : Store) (t : Simple) (v : List Complex) (added : List (Option ExtendRule))
    (s' : Store) : Prop where
  gains : Gains s s' fun x z => (t == x) = true ∧ v.contains (lone z) = true
  written : ∀ r, some r ∈ added →
    r.target = t ∧ r.media = none ∧ IsLone r.extender ∧ v.contains r.extender = true
  covered : ∀ z, v.contains (lone z) = true →
    Extends s.extensions t z ∨ ∃ r, some r ∈ added ∧ (r.extender == lone z) = true

/-- A rule brings in a pair, and is given back if the pair was not there. -/
theorem BringsIn.addRule {v : List Complex} {added : List (Option ExtendRule)}
    (h : BringsIn s t v added s') {c : Complex} (hc : IsLone c) (extenderSpan span : Span)
    (optional : Bool) :
    Yields (addRule (.written c extenderSpan t span none optional)) s' fun o s'' =>
      BringsIn s t (v ++ [c]) (added ++ [o]) s'' := by
  obtain ⟨y, hitems, plain⟩ := hc
  refine (addRule_lone (r := .written c extenderSpan t span none optional) h.gains.isLone rfl
    hitems plain).mono ?_
  rintro o s'' ⟨gains, known, given⟩
  refine ⟨(h.gains.trans gains).congr fun x z => ?_, fun r hr => ?_, fun z hz => ?_⟩
  · rw [contains_concat_lone_iff hitems, and_or_left]
    rfl
  · rw [List.contains_append, Bool.or_eq_true]
    rcases List.mem_append.1 hr with hr | hr
    · obtain ⟨target, media, hl, mem⟩ := h.written r hr
      exact ⟨target, media, hl, .inl mem⟩
    · rw [← List.mem_singleton.1 hr] at given
      obtain rfl := Option.some.inj (given.resolve_left (Option.some_ne_none r))
      exact ⟨rfl, rfl, ⟨y, hitems, plain⟩, .inr (by simp [ExtendRule.written])⟩
  · have keep : ∀ {z}, v.contains (lone z) = true → Extends s.extensions t z ∨
        ∃ r, some r ∈ added ++ [o] ∧ (r.extender == lone z) = true := fun hz =>
      (h.covered _ hz).imp_right (Exists.imp fun _ => And.imp_left (List.mem_append_left _))
    rcases (contains_concat_lone_iff hitems).1 hz with hz | hz
    · exact keep hz
    · rcases known with known | rfl
      · rcases (h.gains.extends_iff _ _).1 known with known | ⟨-, mem⟩
        · exact .inl (known.congr_right hz)
        · exact keep ((contains_lone_congr hz).symm.trans mem)
      · exact .inr ⟨_, List.mem_append_right _ (List.mem_singleton_self _),
          (beq_lone_iff (beq_lone hitems)).2 hz⟩

/-- The rules of one extension, one after another. -/
theorem mapM_addRule_lone (h : IsLoneStore s) {v : SelectorList} (hv : AreLone v)
    (extenderSpan span : Span) (optional : Bool) :
    Yields (v.mapM fun c => addRule (.written c extenderSpan t span none optional)) s
      (BringsIn s t v) :=
  Yields.mapM (I := BringsIn s t)
    (fun _ c _ _ hc before => before.addRule (hv c hc) extenderSpan span optional)
    ⟨⟨h, rfl, rfl, fun x z => by simp⟩, by simp, by simp⟩

/-- The rules are those of the pairs of `t` and `v` that are not in the store yet. -/
structure AreNewRules (s : Store) (t : Simple) (v : SelectorList) (rules : List ExtendRule) :
    Prop where
  target : ∀ r ∈ rules, r.target = t
  areLone : ∀ r ∈ rules, r.media = none ∧ IsLone r.extender
  sound : ∀ z, Extends (mapOfRules rules) t z → v.contains (lone z) = true
  covered : ∀ z, v.contains (lone z) = true →
    Extends s.extensions t z ∨ Extends (mapOfRules rules) t z

/-- The rules of one call bring in all pairs of the target, and those that were not there are given
back. -/
theorem addRules_lone (h : IsLoneStore s) {v : SelectorList} (hv : AreLone v)
    (extenderSpan span : Span) (optional : Bool) :
    Yields (v.mapM fun c => addRule (.written c extenderSpan t span none optional))
      (s.ensureTarget t) fun added s' =>
        Gains s s' (fun x z => (t == x) = true ∧ v.contains (lone z) = true) ∧
          AreNewRules s t v (added.filterMap id) := by
  have start := h.ensureTarget t
  refine (mapM_addRule_lone start.isLone hv extenderSpan span optional).mono
    fun added s' ⟨gains, written, covered⟩ =>
      ⟨(start.trans gains).congr fun x z => by rw [false_or], ?_⟩
  have ruled : ∀ r ∈ added.filterMap id, r.target = t ∧ r.media = none ∧ IsLone r.extender ∧
      v.contains r.extender = true := by
    intro r hr
    obtain ⟨o, mem, rfl⟩ := List.mem_filterMap.1 hr
    exact written r mem
  refine ⟨fun r hr => (ruled r hr).1, fun r hr => ⟨(ruled r hr).2.1, (ruled r hr).2.2.1⟩,
    fun z hz => ?_, fun z hz => ?_⟩
  · obtain ⟨r, hr, -, same⟩ := (extends_mapOfRules _).1 hz
    exact (List.contains_congr same).symm.trans (ruled r hr).2.2.2
  · rw [extends_mapOfRules]
    refine (covered z hz).imp (fun known => ?_) fun ⟨r, hr, same⟩ => ?_
    · exact ((start.extends_iff _ _).1 known).resolve_right not_false
    · exact ⟨r, List.mem_filterMap.2 ⟨_, hr, rfl⟩, by rw [(written r hr).1]; exact BEq.rfl, same⟩

/-! ## Extensions applied -/

/-- Lone selectors are never useless. -/
theorem filter_useless {v : SelectorList} (hv : AreLone v) : v.filter (!·.isUseless) = v := by
  refine List.filter_eq_self.2 fun c hc => ?_
  obtain ⟨x, hitems, plain⟩ := hv c hc
  have good : x.hasBogusArgument = false := by
    rcases x with _ | _ | _ | _ | _ | _ | _ | ⟨_, _, _ | _⟩ <;> first | rfl | cases plain
  rw [Complex.isUseless, hitems, hasBogusArgumentItems, hasBogusArgumentCompound, good]
  rfl

/-- Extending is transitive, and a rule has whatever extends one of its conditions. -/
structure IsClosed (s : Store) : Prop where
  isLone : IsLoneStore s
  trans : ∀ {x y z : Simple}, Extends s.extensions x y → Extends s.extensions y z →
    Extends s.extensions x z
  has : ∀ {id : ℕ} {x y : Simple}, s.Has id x → Extends s.extensions x y → s.Has id y

/-- In `s'`, the target, what it extends and the rules that have it have got all conditions of
`v`. -/
structure Links (s s' : Store) (t : Simple) (v : SelectorList) : Prop where
  isLone : IsLoneStore s'
  count : s'.count = s.count
  extends_iff : ∀ x y, Extends s'.extensions x y ↔ Extends s.extensions x y ∨
    ((t == x) = true ∨ Extends s.extensions x t) ∧ v.contains (lone y) = true
  has_iff : ∀ id y, s'.Has id y ↔ s.Has id y ∨
    s.Has id t ∧ v.contains (lone y) = true

theorem has_congr (same : s'.slots = s.slots) (id : ℕ) (y : Simple) : s'.Has id y ↔ s.Has id y := by
  rw [Has, Has, same]

section Apply

variable {s₂ : Store} {v : SelectorList} {rules : List ExtendRule}

/-- After the pairs of the target, it is enough to pass on those that are new: a closed store has
the others wherever they belong. -/
theorem Gains.links (hs : IsClosed s)
    (h : Gains s s₂ fun x z => (t == x) = true ∧ v.contains (lone z) = true)
    (new : AreNewRules s t v rules) (isLone : IsLoneStore s') (count : s'.count = s.count)
    (extends_iff : ∀ x y, Extends s'.extensions x y ↔
      Extends s₂.extensions x y ∨ Extends s.extensions x t ∧ Extends (mapOfRules rules) t y)
    (has_iff : ∀ id y, s'.Has id y ↔ s.Has id y ∨ s.Has id t ∧ Extends (mapOfRules rules) t y) :
    Links s s' t v := by
  refine ⟨isLone, count, fun x y => ?_, fun id y => ?_⟩
  · rw [extends_iff, h.extends_iff]
    constructor
    · rintro ((old | ⟨hx, hy⟩) | ⟨hx, hy⟩)
      · exact .inl old
      · exact .inr ⟨.inl hx, hy⟩
      · exact .inr ⟨.inr hx, new.sound y hy⟩
    · rintro (old | ⟨hx | hx, hy⟩)
      · exact .inl (.inl old)
      · exact .inl (.inr ⟨hx, hy⟩)
      · exact (new.covered y hy).imp (fun known => .inl (hs.trans hx known)) fun hy => ⟨hx, hy⟩
  · rw [has_iff]
    constructor
    · exact Or.imp_right fun ⟨ht, hy⟩ => ⟨ht, new.sound y hy⟩
    · rintro (old | ⟨ht, hy⟩)
      · exact .inl old
      · exact (new.covered y hy).imp (hs.has ht) fun hy => ⟨ht, hy⟩

/-- Nothing has to be passed on if there is nothing new, or nothing to pass it on to. -/
theorem Gains.links_idle (hs : IsClosed s)
    (h : Gains s s₂ fun x z => (t == x) = true ∧ v.contains (lone z) = true)
    (new : AreNewRules s t v rules)
    (idle : rules = [] ∨ (∀ id, ¬ s.Has id t) ∧ ∀ x, ¬ Extends s.extensions x t) :
    Links s s₂ t v := by
  refine h.links hs new h.isLone (congrArg List.length h.slots) (fun x y => ?_) fun id y => ?_
  · refine (or_iff_left fun ⟨hx, hy⟩ => ?_).symm
    rcases idle with rfl | ⟨-, unreached⟩
    · exact not_extends_empty hy
    · exact unreached x hx
  · rw [has_congr h.slots]
    refine (or_iff_left fun ⟨ht, hy⟩ => ?_).symm
    rcases idle with rfl | ⟨unreached, -⟩
    · exact not_extends_empty hy
    · exact unreached id ht

/-- What points to the target in the index of extenders is what the target extends. -/
theorem IsLoneStore.exists_rule_iff (h : IsLoneStore s) (x : Simple) :
    (∃ r ∈ s.rulesUnder t, (r.target == x) = true) ↔ Extends s.extensions x t := by
  refine ⟨?_, h.ruled⟩
  rintro ⟨r, hr, hx⟩
  exact (h.sound r hr).2.2.2.congr_left hx

/-- One pass over what the target extends, and one over the rules that have it, are enough. -/
theorem applyRules_lone (hs : IsClosed s)
    (h : Gains s s₂ fun x z => (t == x) = true ∧ v.contains (lone z) = true)
    (new : AreNewRules s t v rules) :
    Yields (do
      let new ← settle (s.rulesUnder t) (mapOfRules rules)
      extendSelectors new (((← get).bySimple.get? t).getD []) : Storing Unit) s₂
        fun _ s' => Links s s' t v := by
  have hp := areLoneExtensions_mapOfRules new.areLone
  have only := fun x => @beq_of_contains_mapOfRules t x _ new.target
  have dependents : ∀ r ∈ s.rulesUnder t, r.media = none ∧ IsLone r.extender ∧
      (r.extender == lone t) = true ∧ Extends s₂.extensions r.target t := by
    intro r hr
    obtain ⟨media, hl, same, known⟩ := hs.isLone.sound r hr
    exact ⟨media, hl, same, (h.extends_iff _ _).2 (.inl known)⟩
  refine (settle_lone h.isLone hp only
    (fun y hy => (h.extends_iff _ _).2 (.inr ⟨BEq.rfl, new.sound y hy⟩)) dependents).bind ?_
  rintro _ s₃ ⟨rfl, gains₃⟩
  refine Yields.get_bind ?_
  refine (extendSelectors_lone gains₃.isLone hp only _).mono fun _ s₄ ⟨count, spreads⟩ => ?_
  have same := gains₃.slots.trans h.slots
  refine h.links hs new spreads.isLone ?_ (fun x y => ?_) fun id y => ?_
  · rw [count, Store.count, same, Store.count]
  · rw [spreads.extensions, gains₃.extends_iff, hs.isLone.exists_rule_iff]
  · rw [spreads.has_iff, has_congr same, has_congr same, gains₃.bySimple, h.bySimple]
    refine or_congr_right (and_iff_right_of_imp fun ⟨ht, _⟩ => ?_)
    obtain ⟨ids, hids, mem⟩ := hs.isLone.indexed ht
    rwa [hids]

end Apply

/-- **A new extension** brings the conditions of the extender wherever they belong. -/
theorem addExtension_lone (hs : IsClosed s) {v : SelectorList} (hv : AreLone v)
    (extenderSpan span : Span) (optional : Bool) :
    Yields (addExtension v extenderSpan t span none optional) s fun _ s' => Links s s' t v := by
  refine Yields.get_bind ?_
  dsimp only
  refine Yields.modify_bind ?_
  rw [filter_useless hv]
  refine (addRules_lone hs.isLone hv extenderSpan span optional).bind
    fun added s₂ ⟨gains, new⟩ => ?_
  split
  · -- no rule has the target, and it extends nothing
    rename_i unreached
    rw [Bool.not_eq_true', Bool.or_eq_false_iff] at unreached
    refine .pure (gains.links_idle hs new (.inr ⟨fun id ht => ?_, fun x hx => ?_⟩))
    · obtain ⟨ids, hids, -⟩ := hs.isLone.indexed ht
      rw [OrderedMap.contains_eq_isSome, hids] at unreached
      cases unreached.1
    · obtain ⟨r, hr, -⟩ := hs.isLone.ruled hx
      rw [Option.isSome_eq_false_iff, Option.isNone_iff_eq_none] at unreached
      rw [rulesUnder, unreached.2] at hr
      cases hr
  split
  · rename_i old
    exact .pure (gains.links_idle hs new (.inl old))
  · exact applyRules_lone hs gains new

end Target

end SelectorAlgebra.Store
