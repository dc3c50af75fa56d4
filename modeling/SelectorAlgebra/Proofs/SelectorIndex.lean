import Mathlib
import SelectorAlgebra.Proofs.Changes
import SelectorAlgebra.Proofs.LoneUpdate
import SelectorAlgebra.Proofs.Occurrence

/-!
# Proofs/SelectorIndex — every condition leads to the selectors it occurs in

* `selectors_indexed` — in every store that calls can reach, failed calls included, a condition that
  occurs in a selector, at any depth, has the selector's position under it in the index; and every
  position in the index is that of a selector.

A selector is written by two changes only, `push` and `select`, and both register it in the same
step.  The index never forgets, so what a selector had before it was rewritten does no harm.
-/

namespace SelectorAlgebra.Store

variable {brings : Simple → Complex → Prop} {s s' : Store} {index : OrderedMap Simple (List ℕ)}
  {l : SelectorList} {x : Simple} {id id' n : ℕ}

/-! ## Registering a selector -/

/-- All positions in the index are below `n`. -/
def IsBounded (index : OrderedMap Simple (List ℕ)) (n : ℕ) : Prop :=
  ∀ entry ∈ index.entries, ∀ id ∈ entry.2, id < n

theorem IsBounded.mono (h : IsBounded index n) {m : ℕ} (le : n ≤ m) : IsBounded index m :=
  fun entry hentry id hid => (h entry hentry id hid).trans_le le

theorem IsBounded.alter (h : IsBounded index n) (lt : id < n) (y : Simple) :
    IsBounded (index.alter y fun ids => addDistinct (ids.getD []) id) n := by
  intro entry hentry id' hid'
  rcases OrderedMap.mem_entries_alter hentry with old | ⟨ids, mem, -, value⟩ | rfl
  · exact h entry old id' hid'
  · rw [value] at hid'
    rcases mem_addDistinct.1 hid' with hid' | rfl
    · exact h _ mem id' hid'
    · exact lt
  · obtain rfl : id' = id := (mem_addDistinct.1 hid').resolve_left List.not_mem_nil
    exact lt

/-- Registering a selector under a number within the bound keeps the index within it. -/
theorem IsBounded.register (h : IsBounded index n) (lt : id < n) (l : SelectorList) :
    IsBounded (register index l id) n := by
  unfold Store.register
  induction SelectorList.simples l generalizing index with
  | nil => exact h
  | cons y conditions ih => exact ih (h.alter lt y)

/-! ## The invariant -/

/-- Every condition of a selector leads to the selector, and nothing leads to a selector that is not
there. -/
structure IsRegistered (s : Store) : Prop where
  listed : ∀ {id : ℕ} {slot : Slot}, s.slots[id]? = some slot →
    ∀ x ∈ SelectorList.simples slot.value, Listed s.bySimple x id
  bounded : IsBounded s.bySimple s.count

/-- A new slot is registered under its own number. -/
theorem IsRegistered.pushSlot (h : IsRegistered s) (slot : Slot) :
    IsRegistered (s.pushSlot slot) := by
  have more : s.count < (s.pushSlot slot).count := by simp [Store.pushSlot, count]
  refine ⟨fun {id slot'} hslot x hx => listed_register.2 ?_,
    (h.bounded.mono more.le).register more _⟩
  rcases Nat.lt_or_ge id s.slots.length with lt | ge
  · rw [Store.pushSlot, List.getElem?_append_left lt] at hslot
    exact .inl (h.listed hslot x hx)
  · have last : id = s.slots.length := by
      have lt := (List.getElem?_eq_some_iff.1 hslot).1
      simp only [Store.pushSlot, List.length_append, List.length_singleton] at lt
      omega
    rw [Store.pushSlot, last, List.getElem?_concat_length] at hslot
    obtain rfl := Option.some.inj hslot
    exact .inr ⟨List.elem_eq_true_of_mem hx, last⟩

/-- A changed selector is registered again; what it no longer mentions stays listed. -/
theorem IsRegistered.setSelector (h : IsRegistered s) {slot : Slot} (hs : s.slots[id]? = some slot)
    (value : SelectorList) : IsRegistered (s.setSelector id slot value) := by
  have lt := (List.getElem?_eq_some_iff.1 hs).1
  have same : (s.setSelector id slot value).count = s.count := List.length_set
  refine ⟨fun {id' slot'} hslot x hx => listed_register.2 ?_, ?_⟩
  · by_cases here : id = id'
    · subst here
      rw [Store.setSelector, List.getElem?_set_self lt] at hslot
      obtain rfl := Option.some.inj hslot
      exact .inr ⟨List.elem_eq_true_of_mem hx, rfl⟩
    · rw [Store.setSelector, List.getElem?_set_ne here] at hslot
      exact .inl (h.listed hslot x hx)
  · rw [same]
    exact h.bounded.register lt value

/-- **Every change keeps the selectors registered.** -/
theorem IsRegistered.change (change : Change brings s s') (h : IsRegistered s) :
    IsRegistered s' := by
  cases change with
  | note | target | drop | merge | write | derive | bring => exact ⟨h.listed, h.bounded⟩
  | push slot => exact h.pushSlot slot
  | select hs value => exact h.setSelector hs value

theorem isRegistered_empty (mode : ExtendMode) (limit : ℕ) : IsRegistered (.empty mode limit) :=
  ⟨fun hslot => absurd hslot (by simp [empty]), List.forall_mem_nil _⟩

/-- **Every store reached from the empty one is registered**, by the changes its calls make. -/
theorem afterCalls_isRegistered (mode : ExtendMode) (limit : ℕ) (calls : List Call) :
    IsRegistered (afterCalls calls (.empty mode limit)) := by
  have reached : Reaches (fun _ _ => True) (.empty mode limit)
    (afterCalls calls (.empty mode limit)) :=
    afterCalls_reaches fun _ _ _ => trivial
  exact reached.keeps (fun _ _ => IsRegistered.change) (isRegistered_empty mode limit)

/-! ## Every reachable store -/

/-- **The index of selectors misses nothing.**  After any calls, failed ones included, every
condition that occurs in a selector at any depth is in the index with the selector's position under
it; and there is a selector at every position that is under any condition. -/
theorem selectors_indexed (mode : ExtendMode) (limit : ℕ) (calls : List Call) :
    let s := afterCalls calls (.empty mode limit)
    (∀ id < s.count, ∃ l, s.selector? id = some l ∧
      ∀ x, OccursIn x l → ∃ ids, s.bySimple.get? x = some ids ∧ id ∈ ids) ∧
    ∀ entry ∈ s.bySimple.entries, ∀ id ∈ entry.2, id < s.count := by
  intro s
  have registered : IsRegistered s := afterCalls_isRegistered mode limit calls
  refine ⟨fun id lt => ?_, registered.bounded⟩
  have hslot : s.slots[id]? = some s.slots[id] := List.getElem?_eq_getElem lt
  exact ⟨s.slots[id].value, by rw [selector?, hslot, Option.map_some], fun x hx =>
    registered.listed hslot x (mem_simples_iff.2 hx)⟩

/-- Two rules `.a`, only the first of them inside `print`, and `:not(.b)` extends `.a` inside
`print`: the call fails at the second rule, but `.b` leads to the first one. -/
theorem selectors_indexed_failed :
    let a : Complex := .ofCompound [.className "a"]
    let c : Complex := .ofCompound [.pseudo (.around "not" [.ofCompound [.className "b"]])]
    let rules : List Call :=
      [.addSelector [a] default (some ["print"]), .addSelector [a] default none]
    let call : Call := .addExtension [c] default (.className "a") default (some ["print"]) false
    let s := afterCalls (rules ++ [call]) (.empty .normal 1)
    (outcomeFrom call.operation (afterCalls rules (.empty .normal 1))).1.isOk = false ∧
      s.count = 2 ∧ s.selector? 0 = some [a, c] ∧
      ∃ ids, s.bySimple.get? (.className "b") = some ids ∧ 0 ∈ ids := by
  intro a c rules call s
  have failed : (outcomeFrom call.operation (afterCalls rules (.empty .normal 1))).1.isOk
      = false := by
    unfold call rules a c
    cbv
  have count : s.count = 2 := by
    unfold s call rules a c
    cbv
  have value : s.selector? 0 = some [a, c] := by
    unfold s call rules a c
    cbv
  have b : OccursIn (.className "b") [a, c] :=
    .inside (c := c) (by simp) (List.mem_singleton_self _) (List.mem_singleton_self _) rfl
      (.outside (List.mem_singleton_self _) (List.mem_singleton_self _) (List.mem_singleton_self _))
  obtain ⟨l, hl, indexed⟩ := (selectors_indexed .normal 1 (rules ++ [call])).1 0
    (count ▸ Nat.two_pos)
  obtain rfl := Option.some.inj (value.symm.trans hl)
  exact ⟨failed, count, value, indexed _ b⟩

end SelectorAlgebra.Store
