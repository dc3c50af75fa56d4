import SelectorAlgebra.Sequence.OrderedMap

/-!
# Proofs/Tables — looking up what was put into a table

A table is read through `get?`.  Changing the value under a key changes it under all equivalent keys
and nowhere else (`get?_alter`), and every entry afterwards is an old one or the changed one
(`mem_entries_alter`).  Of several entries put in, the last one under a key is found
(`get?_insertAll`), and the keys are those of the entries without repetitions (`keys_insertAll`).
-/

namespace SelectorAlgebra

theorem mem_addDistinct {α : Type} [BEq α] [LawfulBEq α] {xs : List α} {x y : α} :
    y ∈ addDistinct xs x ↔ y ∈ xs ∨ y = x := by
  unfold addDistinct
  split
  · rename_i known
    refine ⟨.inl, fun h => h.elim id ?_⟩
    rintro rfl
    simpa using known
  · simp

namespace OrderedMap

variable {κ ν : Type} [BEq κ] {m : OrderedMap κ ν} {key k : κ} {change : Option ν → ν}

theorem contains_eq_isSome (m : OrderedMap κ ν) (k : κ) : m.contains k = (m.get? k).isSome := by
  rw [Bool.eq_iff_iff, contains, get?, Option.isSome_map, List.find?_isSome, List.any_eq_true]

section Equivalence

variable [EquivBEq κ]

/-- Looking up does not see what equality ignores. -/
theorem get?_congr (m : OrderedMap κ ν) {k k' : κ} (h : (k == k') = true) :
    m.get? k = m.get? k' := by
  have same : (fun e : κ × ν => e.1 == k) = fun e => e.1 == k' :=
    funext fun e => BEq.congr_right h
  rw [get?, same, get?]

/-- What is found in the list of entries after a change; the induction is on the entries. -/
theorem find?_alterEntries (entries : List (κ × ν)) (key k : κ) (change : Option ν → ν) :
    ((alterEntries key change entries).find? (·.1 == k)).map Prod.snd =
      if key == k then some (change ((entries.find? (·.1 == key)).map Prod.snd))
      else (entries.find? (·.1 == k)).map Prod.snd := by
  induction entries with
  | nil => by_cases h : (key == k) = true <;> simp [alterEntries, h]
  | cons e entries ih =>
    obtain ⟨k', v⟩ := e
    rw [alterEntries]
    by_cases here : (k' == key) = true
    · by_cases h : (key == k) = true
      · simp [here, h, BEq.trans here h]
      · have h' : ¬ (k' == k) = true := fun h' => h (BEq.trans (BEq.symm here) h')
        simp [here, h, h']
    · by_cases h : (k' == k) = true
      · have h' : ¬ (key == k) = true := fun h' => here (BEq.trans h (BEq.symm h'))
        simp [here, h, h']
      · simp [here, h, ih]

/-- What is found in a table after a change. -/
theorem get?_alter (m : OrderedMap κ ν) (key k : κ) (change : Option ν → ν) :
    (m.alter key change).get? k
      = if key == k then some (change (m.get? key)) else m.get? k :=
  find?_alterEntries m.entries key k change

end Equivalence

/-- Erasing leaves other keys. -/
theorem get?_erase_of_ne (m : OrderedMap κ ν) {key k : κ} (h : (key == k) = false) [EquivBEq κ] :
    (m.erase key).get? k = m.get? k := by
  obtain ⟨entries⟩ := m
  simp only [get?, erase]
  induction entries with
  | nil => rfl
  | cons e entries ih =>
    by_cases here : (e.1 == key) = true
    · have other : (e.1 == k) = false := by rw [BEq.congr_left here, h]
      simp [here, other]
    · by_cases found : (e.1 == k) = true
      · simp [here, found]
      · simpa [here, found] using ih

theorem contains_alter (m : OrderedMap κ ν) (key k : κ) (change : Option ν → ν) [EquivBEq κ] :
    (m.alter key change).contains k = (key == k || m.contains k) := by
  rw [contains_eq_isSome, contains_eq_isSome, get?_alter]
  by_cases h : (key == k) = true <;> simp [h]

/-- A change that keeps what is read off a value keeps what is read off all of them. -/
theorem map_entries_alter {β : Type} {f : ν → β} {v : ν} (found : m.get? key = some v)
    (same : f (change (some v)) = f v) :
    (m.alter key change).entries.map (fun e => (e.1, f e.2))
      = m.entries.map fun e => (e.1, f e.2) := by
  obtain ⟨entries⟩ := m
  simp only [alter, get?] at found ⊢
  induction entries with
  | nil => cases found
  | cons e entries ih =>
    obtain ⟨k', v'⟩ := e
    rw [alterEntries]
    by_cases here : (k' == key) = true
    · obtain rfl : v' = v := by simpa [here] using found
      rw [if_pos here, List.map_cons, same, List.map_cons]
    · rw [if_neg here, List.map_cons, ih (by simpa [here] using found), List.map_cons]

/-- A change that changes nothing. -/
theorem alter_eq_self {v : ν} (found : m.get? key = some v) (same : change (some v) = v) :
    m.alter key change = m := by
  have entries := map_entries_alter (f := id) found same
  exact congrArg OrderedMap.mk ((List.map_id _).symm.trans (entries.trans (List.map_id _)))

theorem keys_alter_of_get? {v : ν} (found : m.get? key = some v) :
    (m.alter key change).keys = m.keys := by
  have entries : (m.alter key change).entries.map (fun e => (e.1, ()))
      = m.entries.map fun e => (e.1, ()) := map_entries_alter (f := fun _ => ()) found rfl
  have keys := congrArg (List.map Prod.fst) entries
  rwa [List.map_map, List.map_map] at keys

/-- Two changes under one key are one. -/
theorem alter_alter [ReflBEq κ] (m : OrderedMap κ ν) (key : κ) (change change' : Option ν → ν) :
    (m.alter key change).alter key change'
      = m.alter key fun old => change' (some (change old)) := by
  obtain ⟨entries⟩ := m
  simp only [alter]
  congr 1
  induction entries with
  | nil => simp [alterEntries]
  | cons e entries ih =>
    by_cases here : (e.1 == key) = true
    · simp [alterEntries, here]
    · simpa [alterEntries, here] using ih

/-- Where the entries after a change come from. -/
theorem mem_alterEntries {entries : List (κ × ν)} {e : κ × ν}
    (h : e ∈ alterEntries key change entries) :
    e ∈ entries ∨ (∃ v, (e.1, v) ∈ entries ∧ (e.1 == key) = true ∧ e.2 = change (some v)) ∨
      e = (key, change none) := by
  induction entries with
  | nil => exact .inr (.inr (List.mem_singleton.1 h))
  | cons first entries ih =>
    obtain ⟨k', v⟩ := first
    rw [alterEntries] at h
    split at h
    · rename_i here
      rcases List.mem_cons.1 h with rfl | h
      · exact .inr (.inl ⟨v, List.mem_cons_self, here, rfl⟩)
      · exact .inl (List.mem_cons_of_mem _ h)
    · rcases List.mem_cons.1 h with rfl | h
      · exact .inl List.mem_cons_self
      · rcases ih h with old | ⟨v', mem, same, value⟩ | new
        · exact .inl (List.mem_cons_of_mem _ old)
        · exact .inr (.inl ⟨v', List.mem_cons_of_mem _ mem, same, value⟩)
        · exact .inr (.inr new)

/-- Every entry after a change is an old one, or the changed one. -/
theorem mem_entries_alter {e : κ × ν} (h : e ∈ (m.alter key change).entries) :
    e ∈ m.entries ∨ (∃ v, (e.1, v) ∈ m.entries ∧ (e.1 == key) = true ∧ e.2 = change (some v)) ∨
      e = (key, change none) :=
  mem_alterEntries h

/-- What a look-up finds is an entry under an equivalent key. -/
theorem exists_mem_of_get? {v : ν} (h : m.get? k = some v) :
    ∃ k', (k', v) ∈ m.entries ∧ (k' == k) = true := by
  obtain ⟨⟨k', v'⟩, found, rfl⟩ := Option.map_eq_some_iff.1 h
  exact ⟨k', List.mem_of_find?_eq_some found,
    @List.find?_some _ (fun e : κ × ν => e.1 == k) _ _ found⟩

/-! ## Tables of given entries -/

/-- Every value was there before or was put in. -/
theorem mem_values_insertAll {entries : List (κ × ν)} {v : ν}
    (h : v ∈ (m.insertAll entries).values) :
    v ∈ m.values ∨ v ∈ entries.map Prod.snd := by
  induction entries generalizing m with
  | nil => exact .inl h
  | cons e entries ih =>
    rcases ih h with old | new
    · obtain ⟨e', mem, rfl⟩ := List.mem_map.1 old
      rcases mem_entries_alter mem with mem | ⟨_, -, -, value⟩ | rfl
      · exact .inl (List.mem_map_of_mem mem)
      · exact .inr (value ▸ List.mem_cons_self)
      · exact .inr List.mem_cons_self
    · exact .inr (List.mem_cons_of_mem _ new)

section Equivalence

variable [EquivBEq κ]

/-- A change adds its key if it is new. -/
theorem keys_alter (m : OrderedMap κ ν) (key : κ) (change : Option ν → ν) :
    (m.alter key change).keys = addDistinct m.keys key := by
  obtain ⟨entries⟩ := m
  simp only [keys, alter]
  induction entries with
  | nil => rfl
  | cons e entries ih =>
    rw [alterEntries]
    by_cases h : (e.1 == key) = true
    · simp [h, addDistinct, BEq.symm h]
    · have h' : (key == e.1) = false := by rw [BEq.comm]; simpa using h
      simp only [h, Bool.false_eq_true, if_false, List.map_cons, ih]
      simp only [addDistinct, List.contains_cons, h', Bool.false_or]
      split <;> rfl

/-- Insertions add their keys in order. -/
theorem keys_insertAll (m : OrderedMap κ ν) (entries : List (κ × ν)) :
    (m.insertAll entries).keys = (entries.map Prod.fst).foldl addDistinct m.keys := by
  induction entries generalizing m with
  | nil => rfl
  | cons e entries ih =>
    rw [List.map_cons, List.foldl_cons, ← keys_alter m e.1 fun _ => e.2]
    exact ih (m.insert e.1 e.2)

/-- The last of the entries under a key is found. -/
theorem get?_insertAll (m : OrderedMap κ ν) (entries : List (κ × ν)) (k : κ) :
    (m.insertAll entries).get? k
      = ((entries.reverse.find? (·.1 == k)).map Prod.snd).or (m.get? k) := by
  induction entries generalizing m with
  | nil => rfl
  | cons e entries ih =>
    have last : (m.insert e.1 e.2).get? k = (([e].find? (·.1 == k)).map Prod.snd).or
        (m.get? k) := by
      rw [insert, get?_alter]
      by_cases h : (e.1 == k) = true <;> simp [h]
    rw [List.reverse_cons, List.find?_append, Option.map_or, Option.or_assoc, ← last]
    exact ih (m.insert e.1 e.2)

/-- An entry that was put in is found, or a later one under the same key. -/
theorem exists_get?_ofList {entries : List (κ × ν)} {e : κ × ν} (mem : e ∈ entries) :
    ∃ e' ∈ entries, (e'.1 == e.1) = true ∧ (ofList entries).get? e.1 = some e'.2 := by
  have listed : (entries.reverse.find? (·.1 == e.1)).isSome = true :=
    List.find?_isSome.2 ⟨e, List.mem_reverse.2 mem, BEq.rfl⟩
  obtain ⟨e', found⟩ := Option.isSome_iff_exists.1 listed
  refine ⟨e', List.mem_reverse.1 (List.mem_of_find?_eq_some found),
    @List.find?_some _ (fun e' : κ × ν => e'.1 == e.1) _ _ found, ?_⟩
  rw [ofList, get?_insertAll, found]
  rfl

end Equivalence

end OrderedMap

end SelectorAlgebra
