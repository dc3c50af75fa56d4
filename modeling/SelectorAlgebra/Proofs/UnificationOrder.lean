import Mathlib
import SelectorAlgebra.Proofs.ClassRows

/-!
# Proofs/UnificationOrder — whether the order of two selectors matters to unification

* `unify_order` — two rows of compounds of classes unify in both orders.  The results match the same
  elements if both orders find the same shared parents, and only then unless some parent has all the
  names of another and more.
* `unify_order_matters` — the orders can differ: only one longest common subsequence is looked at,
  and which one depends on the order.

The rows that come out are those `Woven` around the shared parents, in which the sides play the
same part (`Woven.symm`).  Conversely a row tells which parents were shared (`shared_eq_of_woven`):
of two longest common subsequences that differ, at the first difference one side has the one's
parent first and the other side the other's, and the row with both runs in that order has no equal
around the other subsequence.
-/

namespace SelectorAlgebra

/-! ## Equal sets of names -/

/-- Two lists of the same names. -/
def SameNames (p q : List String) : Prop := p ⊆ q ∧ q ⊆ p

namespace SameNames

variable {p q r : List String}

theorem refl (p : List String) : SameNames p p := ⟨List.Subset.refl p, List.Subset.refl p⟩

theorem symm (h : SameNames p q) : SameNames q p := ⟨h.2, h.1⟩

theorem trans (h : SameNames p q) (h' : SameNames q r) : SameNames p r :=
  ⟨List.Subset.trans h.1 h'.1, List.Subset.trans h'.2 h.2⟩

/-- Where a row is cut depends only on the set of names. -/
theorem upTo_eq (h : SameNames p q) (ps : List (List String)) : upTo p ps = upTo q ps := by
  have same : ∀ r : List String, r ⊆ p ↔ r ⊆ q :=
    fun r => ⟨fun hr => List.Subset.trans hr h.1, fun hr => List.Subset.trans hr h.2⟩
  simp only [upTo, same]

theorem past_eq (h : SameNames p q) (ps : List (List String)) : past p ps = past q ps := by
  have same : ∀ r : List String, r ⊆ p ↔ r ⊆ q :=
    fun r => ⟨fun hr => List.Subset.trans hr h.1, fun hr => List.Subset.trans hr h.2⟩
  simp only [past, same]

end SameNames

/-! ## The sides of a weaving -/

namespace Woven

variable {common common' ps qs row : List (List String)}

/-- The two sides play the same part. -/
theorem symm (h : Woven common ps qs row) : Woven common qs ps row := by
  induction common generalizing ps qs row with
  | nil => exact Or.symm h
  | cons shared common ih =>
    obtain ⟨run, rest, order, woven, rfl⟩ := h
    exact ⟨run, rest, order.symm, ih woven, rfl⟩

/-- Around the same shared parents the same orders come out. -/
theorem congr (same : List.Forall₂ SameNames common common') (h : Woven common ps qs row) :
    ∃ row', Woven common' ps qs row' ∧ List.Forall₂ SameNames row row' := by
  induction same generalizing ps qs row with
  | nil => exact ⟨row, h, List.forall₂_same.2 fun p _ => SameNames.refl p⟩
  | @cons shared shared' common common' head _ ih =>
    obtain ⟨run, rest, order, woven, rfl⟩ := h
    obtain ⟨rest', woven', alike⟩ := ih woven
    rw [head.past_eq, head.past_eq] at woven'
    rw [head.upTo_eq, head.upTo_eq] at order
    exact ⟨run ++ shared' :: rest', ⟨run, rest', order, woven', rfl⟩,
      List.rel_append (List.forall₂_same.2 fun p _ => SameNames.refl p) (.cons head alike)⟩

/-- There is always a way to weave. -/
theorem exists_row (common ps qs : List (List String)) : ∃ row, Woven common ps qs row := by
  induction common generalizing ps qs with
  | nil => exact ⟨_, .inl rfl⟩
  | cons shared common ih =>
    obtain ⟨rest, woven⟩ := ih (past shared ps) (past shared qs)
    exact ⟨_, _, rest, .inl rfl, woven, rfl⟩

end Woven

/-! ## Longest common parents -/

/-- No set of names is a proper part of another. -/
def AreApart (ps : List (List String)) : Prop := ∀ p ∈ ps, ∀ q ∈ ps, p ⊆ q → q ⊆ p

/-- Parents that stand on both sides in this order, as many as possible. -/
structure IsLongest (common ps qs : List (List String)) : Prop where
  left : List.SublistForall₂ SameNames common ps
  right : List.SublistForall₂ SameNames common qs
  longest : ∀ {zs}, List.SublistForall₂ SameNames zs ps → List.SublistForall₂ SameNames zs qs →
    zs.length ≤ common.length

/-- Being longest does not depend on the order of the rows. -/
theorem IsLongest.symm {common ps qs : List (List String)} (h : IsLongest common ps qs) :
    IsLongest common qs ps :=
  ⟨h.right, h.left, fun hq hp => h.longest hp hq⟩

section Apart

variable {us : List (List String)}

/-- Parents that are apart are shared as one of the longest common subsequences. -/
theorem isLongest_sharedParents {ps qs : List (List String)} (apart : AreApart (ps ++ qs)) :
    IsLongest (sharedParents ps qs) ps qs := by
  have mem : ∀ {p q : List String}, p ∈ ps → q ∈ qs → p ∈ ps ++ qs ∧ q ∈ ps ++ qs :=
    fun hp hq => ⟨List.mem_append_left _ hp, List.mem_append_right _ hq⟩
  have sound : ∀ q ∈ qs, ∀ p ∈ ps, ∀ z, largerNames q p = some z → SameNames z q ∧
      SameNames z p := by
    intro q hq p hp z h
    unfold largerNames at h
    split at h
    · rename_i sub
      cases h
      exact ⟨⟨apart q (mem hp hq).2 p (mem hp hq).1 sub, sub⟩, SameNames.refl p⟩
    split at h
    · rename_i sub
      cases h
      exact ⟨SameNames.refl q, ⟨apart p (mem hp hq).1 q (mem hp hq).2 sub, sub⟩⟩
    · cases h
  have complete : Selects largerNames SameNames SameNames := by
    intro z q p hq hp
    have sub : q ⊆ p := (hq.symm.trans hp).1
    simp [largerNames, sub]
  obtain ⟨right, left⟩ := commonSubsequence_common sound
  exact ⟨left, right, fun hp hq => length_le_commonSubsequence complete hq hp⟩

theorem sharedParents_subset (ps qs : List (List String)) : sharedParents ps qs ⊆ ps ++ qs := by
  refine forall_mem_commonSubsequence fun q hq p hp z h => ?_
  unfold largerNames at h
  split at h
  · cases h
    exact List.mem_append_left _ hp
  split at h
  · cases h
    exact List.mem_append_right _ hq
  · cases h

/-- What stands before the cut is not contained in the shared names. -/
theorem not_subset_of_mem_upTo {shared p : List String} {ps : List (List String)}
    (h : p ∈ upTo shared ps) : ¬ p ⊆ shared := by
  simpa using List.mem_takeWhile_imp h

/-- A common subsequence goes on after the first parent that its first one stands for. -/
theorem exists_split (apart : AreApart us) {shared : List String} {common : List (List String)}
    (hs : shared ∈ us) : ∀ {ps : List (List String)}, ps ⊆ us →
      List.SublistForall₂ SameNames (shared :: common) ps →
      ∃ e, SameNames e shared ∧ ps = upTo shared ps ++ e :: past shared ps ∧
        List.SublistForall₂ SameNames common (past shared ps)
  | [], _, h => by cases h
  | p :: ps, hps, h => by
    rw [List.cons_subset] at hps
    by_cases sub : p ⊆ shared
    · have cut : upTo shared (p :: ps) = [] ∧ past shared (p :: ps) = ps := by
        simp [upTo, past, sub]
      refine ⟨p, ⟨sub, apart p hps.1 shared hs sub⟩, by rw [cut.1, cut.2]; rfl, ?_⟩
      rw [cut.2]
      cases h with
      | cons _ rest => exact rest
      | cons_right rest => exact sublistForall₂_of_cons rest
    · have cut : upTo shared (p :: ps) = p :: upTo shared ps ∧
          past shared (p :: ps) = past shared ps := by
        simp [upTo, past, sub]
      cases h with
      | cons same _ => exact absurd same.2 sub
      | cons_right rest =>
        obtain ⟨e, same, split, tail⟩ := exists_split apart hs hps.2 rest
        exact ⟨e, same, by rw [cut.1, cut.2, List.cons_append, ← split], by rwa [cut.2]⟩

variable {shared shared' : List String} {common common' ps qs row : List (List String)}

theorem past_subset (hps : ps ⊆ us) : past shared ps ⊆ us := fun _ hp =>
  hps (List.dropWhile_subset _ (List.mem_of_mem_tail hp))

theorem upTo_subset (hps : ps ⊆ us) :
    upTo shared ps ⊆ us := fun _ hp => hps (List.takeWhile_subset _ hp)

/-- Before a longest common subsequence begins, the sides have nothing in common. -/
theorem IsLongest.not_sameNames (apart : AreApart us) (hs : shared ∈ us) (hps : ps ⊆ us)
    (hqs : qs ⊆ us) (h : IsLongest (shared :: common) ps qs) {p q : List String}
    (hp : p ∈ upTo shared ps) (hq : q ∈ upTo shared qs) : ¬ SameNames p q := by
  intro same
  have longer : ∀ {ps : List (List String)} {p' : List String}, ps ⊆ us → p' ∈ upTo shared ps →
      SameNames p p' → List.SublistForall₂ SameNames (shared :: common) ps →
      List.SublistForall₂ SameNames (p :: shared :: common) ps := by
    intro ps p' hps hp' alike common
    obtain ⟨e, head, split, tail⟩ := exists_split apart hs hps common
    rw [split]
    exact sublistForall₂_append (List.sublistForall₂_iff.2
      ⟨[p'], .cons alike .nil, List.singleton_sublist.2 hp'⟩) (.cons head.symm tail)
  have length := h.longest (longer hps hp (SameNames.refl p) h.left) (longer hqs hq same h.right)
  simp at length

/-- Behind the first shared parent the rest is longest again. -/
theorem IsLongest.tail (apart : AreApart us) (hs : shared ∈ us) (hps : ps ⊆ us) (hqs : qs ⊆ us)
    (h : IsLongest (shared :: common) ps qs) :
    IsLongest common (past shared ps) (past shared qs) := by
  have onto : ∀ {ps zs : List (List String)}, ps ⊆ us →
      List.SublistForall₂ SameNames (shared :: common) ps →
      List.SublistForall₂ SameNames zs (past shared ps) →
        List.SublistForall₂ SameNames (shared :: zs) ps := by
    intro ps zs hps first rest
    obtain ⟨e, head, split, -⟩ := exists_split apart hs hps first
    rw [split]
    exact sublistForall₂_append_left _ (.cons head.symm rest)
  obtain ⟨-, -, -, left⟩ := exists_split apart hs hps h.left
  obtain ⟨-, -, -, right⟩ := exists_split apart hs hqs h.right
  exact ⟨left, right, fun hp hq =>
    Nat.le_of_succ_le_succ (h.longest (onto hps h.left hp) (onto hqs h.right hq))⟩

/-! ## What a row tells -/

/-- Weaving makes no names up. -/
theorem Woven.subset (h : Woven common ps qs row) (hc : common ⊆ us) (hps : ps ⊆ us)
    (hqs : qs ⊆ us) :
    row ⊆ us := by
  induction common generalizing ps qs row with
  | nil =>
    rcases h with rfl | rfl
    · exact List.append_subset.2 ⟨hps, hqs⟩
    · exact List.append_subset.2 ⟨hqs, hps⟩
  | cons shared common ih =>
    obtain ⟨run, rest, order, woven, rfl⟩ := h
    rw [List.cons_subset] at hc
    refine List.append_subset.2
      ⟨?_, List.cons_subset.2 ⟨hc.1, ih woven hc.2 (past_subset hps) (past_subset hqs)⟩⟩
    rcases order with rfl | rfl
    · exact List.append_subset.2 ⟨upTo_subset hps, upTo_subset hqs⟩
    · exact List.append_subset.2 ⟨upTo_subset hqs, upTo_subset hps⟩

/-- A shared parent takes the place of two. -/
theorem Woven.length_add (apart : AreApart us) (h : Woven common ps qs row) (hc : common ⊆ us)
    (hps : ps ⊆ us) (hqs : qs ⊆ us) (left : List.SublistForall₂ SameNames common ps)
    (right : List.SublistForall₂ SameNames common qs) :
    row.length + common.length = ps.length + qs.length := by
  induction common generalizing ps qs row with
  | nil =>
    rcases h with rfl | rfl
    · simp
    · simp [Nat.add_comm]
  | cons shared common ih =>
    obtain ⟨run, rest, order, woven, rfl⟩ := h
    rw [List.cons_subset] at hc
    obtain ⟨e, -, split, left⟩ := exists_split apart hc.1 hps left
    obtain ⟨e', -, split', right⟩ := exists_split apart hc.1 hqs right
    have tails := ih woven hc.2 (past_subset hps) (past_subset hqs) left right
    have runs : run.length = (upTo shared ps).length + (upTo shared qs).length := by
      rcases order with rfl | rfl
      · simp
      · simp [Nat.add_comm]
    have length := congrArg List.length split
    have length' := congrArg List.length split'
    simp only [List.length_append, List.length_cons] at length length' ⊢
    omega

/-- No row around the second sequence begins with its first parent, where only one side has that so
early. -/
theorem not_alike_of_early (apart : AreApart us) (hs : shared' ∈ us) (hps : ps ⊆ us) (hqs : qs ⊆ us)
    (h : IsLongest (shared' :: common') ps qs) (late : upTo shared' ps ≠ []) {e : List String}
    (he : SameNames e shared') {rest : List (List String)}
    (woven : Woven (shared' :: common') ps qs row) :
    ¬ List.Forall₂ SameNames (upTo shared' qs ++ e :: rest) row := by
  intro alike
  obtain ⟨p, run, hrun⟩ := List.exists_cons_of_ne_nil late
  have hp : p ∈ upTo shared' ps := by
    rw [hrun]
    exact List.mem_cons_self
  have other : ¬ SameNames e p := fun same => not_subset_of_mem_upTo hp (same.symm.trans he).1
  obtain ⟨_, rest', rfl | rfl, -, rfl⟩ := woven
  · rw [hrun] at alike
    cases hB : upTo shared' qs with
    | nil =>
      rw [hB] at alike
      exact other (List.forall₂_cons.1 alike).1
    | cons q run' =>
      rw [hB] at alike
      have hq : q ∈ upTo shared' qs := by
        rw [hB]
        exact List.mem_cons_self
      exact h.not_sameNames apart hs hps hqs hp hq (List.forall₂_cons.1 alike).1.symm
  · rw [List.append_assoc] at alike
    have tails := List.forall₂_drop (upTo shared' qs).length alike
    rw [List.drop_left, List.drop_left, hrun] at tails
    exact other (List.forall₂_cons.1 tails).1

/-- Of two different parents, one stands first. -/
theorem stands_first {before before' rest rest' : List (List String)} {e e' : List String}
    (h : before ++ e :: rest = before' ++ e' :: rest') (differ : e ≠ e') :
    (∃ between, before' = before ++ e :: between) ∨
    ∃ between, before = before' ++ e' :: between := by
  rcases List.append_eq_append_iff.1 h with ⟨between, rfl, tail⟩ | ⟨between, rfl, tail⟩
  · cases between with
    | nil => exact absurd (List.cons.inj tail).1 differ
    | cons q between => exact .inl ⟨between, by rw [(List.cons.inj tail).1]⟩
  · cases between with
    | nil => exact absurd (List.cons.inj tail).1.symm differ
    | cons q between => exact .inr ⟨between, by rw [(List.cons.inj tail).1]⟩

/-- The rows of a weaving are those of another, up to the order of names. -/
def RowsAlike (common common' ps qs : List (List String)) : Prop :=
  ∀ row, Woven common ps qs row → ∃ row', Woven common' ps qs row' ∧ List.Forall₂ SameNames row row'

/-- If both weavings have the same rows, their first shared parents have the same names. -/
theorem sameNames_head (apart : AreApart us) (hs : shared ∈ us) (hs' : shared' ∈ us) (hps : ps ⊆ us)
    (hqs : qs ⊆ us) (h : IsLongest (shared :: common) ps qs)
    (h' : IsLongest (shared' :: common') ps qs)
    (alike : RowsAlike (shared :: common) (shared' :: common') ps qs) :
    SameNames shared shared' := by
  by_contra differ
  obtain ⟨e, he, split, -⟩ := exists_split apart hs hps h.left
  obtain ⟨e', he', split', -⟩ := exists_split apart hs' hps h'.left
  obtain ⟨f, hf, cut, -⟩ := exists_split apart hs hqs h.right
  obtain ⟨f', hf', cut', -⟩ := exists_split apart hs' hqs h'.right
  have ne : ∀ {e e' : List String}, SameNames e shared → SameNames e' shared' → e ≠ e' := by
    rintro e _ he he' rfl
    exact differ (he.symm.trans he')
  obtain ⟨rest, woven⟩ := Woven.exists_row common (past shared ps) (past shared qs)
  rcases stands_first (split.symm.trans split') (ne he he') with ⟨X, hX⟩ | ⟨X, hX⟩
  · rcases stands_first (cut.symm.trans cut') (ne hf hf') with ⟨Y, hY⟩ | ⟨Y, hY⟩
    · exact h'.not_sameNames apart hs' hps hqs (p := e) (q := f) (by simp [hX]) (by simp [hY])
        (he.trans hf.symm)
    · -- the first side has `shared` first, and the second side `shared'`
      obtain ⟨row', woven', same⟩ := alike _ ⟨_, rest, .inr rfl, woven, rfl⟩
      rw [hY, List.append_assoc, List.append_assoc, List.cons_append] at same
      exact not_alike_of_early apart hs' hps hqs h' (by simp [hX]) hf' woven' same
  · rcases stands_first (cut.symm.trans cut') (ne hf hf') with ⟨Y, hY⟩ | ⟨Y, hY⟩
    · obtain ⟨row', woven', same⟩ := alike _ ⟨_, rest, .inl rfl, woven, rfl⟩
      rw [hX, List.append_assoc, List.append_assoc, List.cons_append] at same
      exact not_alike_of_early apart hs' hqs hps h'.symm (by simp [hY]) he' woven'.symm same
    · exact h.not_sameNames apart hs hps hqs (p := e') (q := f') (by simp [hX]) (by simp [hY])
        (he'.trans hf'.symm)

/-- **The rows around a longest common subsequence tell which parents are shared.** -/
theorem shared_eq_of_woven (apart : AreApart us) (hc : common ⊆ us) (hc' : common' ⊆ us)
    (hps : ps ⊆ us) (hqs : qs ⊆ us) (h : IsLongest common ps qs) (h' : IsLongest common' ps qs)
    (alike : RowsAlike common common' ps qs) : List.Forall₂ SameNames common common' := by
  have length : common.length = common'.length :=
    le_antisymm (h'.longest h.left h.right) (h.longest h'.left h'.right)
  induction common generalizing common' ps qs with
  | nil =>
    rw [List.length_nil] at length
    rw [List.length_eq_zero_iff.1 length.symm]
    exact .nil
  | cons shared common ih =>
    obtain ⟨shared', common', rfl⟩ := List.exists_cons_of_length_eq_add_one length.symm
    rw [List.cons_subset] at hc hc'
    have head := sameNames_head apart hc.1 hc'.1 hps hqs h h' alike
    refine .cons head (ih hc.2 hc'.2 (past_subset hps) (past_subset hqs)
      (h.tail apart hc.1 hps hqs) ?_ ?_ (Nat.succ.inj length))
    · rw [head.past_eq, head.past_eq]
      exact h'.tail apart hc'.1 hps hqs
    · -- the same run stands before the shared parent on both sides
      intro row woven
      obtain ⟨_, ⟨run, row', order, woven', rfl⟩, same⟩ := alike _ ⟨_, row, .inl rfl, woven, rfl⟩
      rw [← head.past_eq, ← head.past_eq] at woven'
      have runs : run.length = (upTo shared ps ++ upTo shared qs).length := by
        rw [← head.upTo_eq, ← head.upTo_eq] at order
        rcases order with rfl | rfl
        · rfl
        · simp [Nat.add_comm]
      have tails := List.forall₂_drop (upTo shared ps ++ upTo shared qs).length same
      rw [List.drop_left, ← runs, List.drop_left] at tails
      exact ⟨row', woven', (List.forall₂_cons.1 tails).2⟩

end Apart

/-! ## Both orders -/

/-- The selectors with the given rows. -/
def selectorsOf (rows : List (List Item)) : SelectorList := rows.map fun row => ⟨row, false⟩

/-- Both lists of rows match the same elements, as far as the superselector relation tells. -/
def MutuallyAbove (rows₁ rows₂ : List (List Item)) : Prop :=
  (selectorsOf rows₁).isSuperselector (selectorsOf rows₂) = true ∧
    (selectorsOf rows₂).isSuperselector (selectorsOf rows₁) = true

/-- The relation between lists of rows. -/
theorem isSuperselector_selectorsOf {rows₁ rows₂ : List (List Item)} :
    (selectorsOf rows₁).isSuperselector (selectorsOf rows₂) = true ↔
      ∀ row₂ ∈ rows₂, ∃ row₁ ∈ rows₁, itemsSuperselector row₁ row₂ = true := by
  simp [SelectorList.isSuperselector, listCovers, selectorsOf]

section BothOrders

variable {common common' ps qs ps' qs' : List (List String)} {x y : List String}
  {rows₁ rows₂ : List (List Item)}

/-- The rows are the orders of the parents around those shared, each before a compound of
classes. -/
def AreWovenRows (common ps qs : List (List String)) (x : List String) (rows : List (List Item)) :
    Prop :=
  ∀ row, row ∈ rows ↔ ∃ ns, Woven common ps qs ns ∧ row = classRows (ns ++ [x])

/-- Between woven rows it is laying one sequence of names into the other. -/
theorem isSuperselector_wovenRows (h₁ : AreWovenRows common ps qs x rows₁)
    (h₂ : AreWovenRows common' ps' qs' y rows₂) (sub : x ⊆ y) :
    (selectorsOf rows₁).isSuperselector (selectorsOf rows₂) = true ↔
      ∀ ns, Woven common' ps' qs' ns → ∃ ms, Woven common ps qs ms ∧
        List.SublistForall₂ (· ⊆ ·) ms ns := by
  rw [isSuperselector_selectorsOf]
  constructor
  · intro h ns woven
    obtain ⟨row₁, hr, above⟩ := h _ ((h₂ _).2 ⟨ns, woven, rfl⟩)
    obtain ⟨ms, woven', rfl⟩ := (h₁ _).1 hr
    exact ⟨ms, woven', (itemsSuperselector_classRows.1 above).1⟩
  · intro h row₂ hr
    obtain ⟨ns, woven, rfl⟩ := (h₂ _).1 hr
    obtain ⟨ms, woven', laid⟩ := h ns woven
    exact ⟨_, (h₁ _).2 ⟨ms, woven', rfl⟩, itemsSuperselector_classRows.2 ⟨laid, sub⟩⟩

theorem laid_of_sameNames {ns ms : List (List String)} (h : List.Forall₂ SameNames ns ms) :
    List.SublistForall₂ (· ⊆ ·) ms ns :=
  List.sublistForall₂_iff.2 ⟨ns, h.flip.imp fun _ _ same => same.2, List.Sublist.refl ns⟩

/-- Among sets that are apart, laying in at equal length is having the same names. -/
theorem sameNames_of_laid {us ns ms : List (List String)} (apart : AreApart us) (hn : ns ⊆ us)
    (hm : ms ⊆ us) (length : ms.length = ns.length) (laid : List.SublistForall₂ (· ⊆ ·) ms ns) :
    List.Forall₂ SameNames ns ms := by
  obtain ⟨l, related, sub⟩ := List.sublistForall₂_iff.1 laid
  obtain rfl := sub.eq_of_length (related.length_eq.symm.trans length)
  refine (List.forall₂_iff_zip.2 ⟨related.length_eq, fun {m n} mem => ?_⟩).flip
  have hmn := List.of_mem_zip mem
  have subset := (List.forall₂_iff_zip.1 related).2 mem
  exact ⟨apart m (hm hmn.1) n (hn hmn.2) subset, subset⟩

theorem sameNames_symm {ns ms : List (List String)} (h : List.Forall₂ SameNames ns ms) :
    List.Forall₂ SameNames ms ns :=
  (h.imp fun _ _ same => same.symm).flip

/-- Around the same shared parents both orders give the same rows. -/
theorem isSuperselector_of_sameNames (same : List.Forall₂ SameNames common' common)
    (h₁ : AreWovenRows common ps qs x rows₁) (h₂ : AreWovenRows common' qs ps y rows₂)
    (sub : x ⊆ y) :
    (selectorsOf rows₁).isSuperselector (selectorsOf rows₂) = true := by
  refine (isSuperselector_wovenRows h₁ h₂ sub).2 fun ns woven => ?_
  obtain ⟨ms, woven', alike⟩ := woven.symm.congr same
  exact ⟨ms, woven', laid_of_sameNames alike⟩

/-- Parents that are apart give the same rows in both orders only if the same ones are shared. -/
theorem sameNames_of_isSuperselector (apart : AreApart (ps ++ qs))
    (h₁ : AreWovenRows (sharedParents ps qs) ps qs x rows₁)
    (h₂ : AreWovenRows (sharedParents qs ps) qs ps y rows₂) (sub : x ⊆ y)
    (above : (selectorsOf rows₁).isSuperselector (selectorsOf rows₂) = true) :
    List.Forall₂ SameNames (sharedParents ps qs) (sharedParents qs ps) := by
  have swap : ∀ {p}, p ∈ qs ++ ps → p ∈ ps ++ qs := fun hp =>
    List.mem_append.2 (List.mem_append.1 hp).symm
  have long := isLongest_sharedParents apart
  have long' := (isLongest_sharedParents fun p hp q hq => apart p (swap hp) q (swap hq)).symm
  have hc : sharedParents ps qs ⊆ ps ++ qs := sharedParents_subset ps qs
  have hc' : sharedParents qs ps ⊆ ps ++ qs := fun p hp => swap (sharedParents_subset qs ps hp)
  have hps : ps ⊆ ps ++ qs := List.subset_append_left ps qs
  have hqs : qs ⊆ ps ++ qs := List.subset_append_right ps qs
  have length := le_antisymm (long.longest long'.left long'.right)
    (long'.longest long.left long.right)
  refine sameNames_symm (shared_eq_of_woven apart hc' hc hps hqs long' long fun ns woven => ?_)
  obtain ⟨ms, woven', laid⟩ := (isSuperselector_wovenRows h₁ h₂ sub).1 above ns woven.symm
  have rows := woven.length_add apart hc' hps hqs long'.left long'.right
  have rows' := woven'.length_add apart hc hps hqs long.left long.right
  exact ⟨ms, woven', sameNames_of_laid apart (woven.subset hc' hps hqs) (woven'.subset hc hps hqs)
    (by omega) laid⟩

/-- **Unification and the order of its arguments.**  Rows of compounds of classes unify in both
orders, and the results are above each other if both orders find the same shared parents.  If no
parent is a proper part of another, they are only then. -/
theorem unify_order (ps qs : List (List String)) (x y : List String) :
    ∃ r₁ r₂, unifyRows [classRows (ps ++ [x]), classRows (qs ++ [y])] = some r₁ ∧
      unifyRows [classRows (qs ++ [y]), classRows (ps ++ [x])] = some r₂ ∧
      (List.Forall₂ SameNames (sharedParents ps qs) (sharedParents qs ps) → MutuallyAbove r₁ r₂) ∧
      (AreApart (ps ++ qs) → MutuallyAbove r₁ r₂ →
        List.Forall₂ SameNames (sharedParents ps qs) (sharedParents qs ps)) := by
  obtain ⟨r₁, unified₁, h₁⟩ := exists_unifyRows_classRows ps qs x y
  obtain ⟨r₂, unified₂, h₂⟩ := exists_unifyRows_classRows qs ps y x
  have joined : ∀ x y : List String, y.foldl addDistinct x ⊆ x.foldl addDistinct y :=
    fun x y name hn => mem_foldl_addDistinct.2 (mem_foldl_addDistinct.1 hn).symm
  refine ⟨r₁, r₂, unified₁, unified₂, fun same => ⟨?_, ?_⟩, fun apart above => ?_⟩
  · exact isSuperselector_of_sameNames (sameNames_symm same) h₁ h₂ (joined x y)
  · exact isSuperselector_of_sameNames same h₂ h₁ (joined y x)
  · exact sameNames_of_isSuperselector apart h₁ h₂ (joined x y) above.1

/-- `.a .b .x` and `.a .c .y` share `.a` in both orders. -/
theorem unify_order_of_shared : ∃ r₁ r₂,
    unifyRows [classRows [["a"], ["b"], ["x"]], classRows [["a"], ["c"], ["y"]]] = some r₁ ∧
      unifyRows [classRows [["a"], ["c"], ["y"]], classRows [["a"], ["b"], ["x"]]] = some r₂ ∧
      MutuallyAbove r₁ r₂ := by
  have shared : sharedParents [["a"], ["b"]] [["a"], ["c"]] = [["a"]] := by cbv
  have shared' : sharedParents [["a"], ["c"]] [["a"], ["b"]] = [["a"]] := by cbv
  obtain ⟨r₁, r₂, unified₁, unified₂, alike, -⟩ :=
    unify_order [["a"], ["b"]] [["a"], ["c"]] ["x"] ["y"]
  refine ⟨r₁, r₂, unified₁, unified₂, alike ?_⟩
  rw [shared, shared']
  exact .cons (SameNames.refl _) .nil

end BothOrders

/-- **The order matters**: `.a .b .x` and `.b .a .y` unify to rows around `.a` in one order and
around `.b` in the other, neither above the other. -/
theorem unify_order_matters : ∃ r₁ r₂,
    unifyRows [classRows [["a"], ["b"], ["x"]], classRows [["b"], ["a"], ["y"]]] = some r₁ ∧
      unifyRows [classRows [["b"], ["a"], ["y"]], classRows [["a"], ["b"], ["x"]]] = some r₂ ∧
      (selectorsOf r₁).isSuperselector (selectorsOf r₂) = false ∧
      (selectorsOf r₂).isSuperselector (selectorsOf r₁) = false := by
  refine ⟨_, _, by cbv, by cbv, by cbv, by cbv⟩

end SelectorAlgebra
