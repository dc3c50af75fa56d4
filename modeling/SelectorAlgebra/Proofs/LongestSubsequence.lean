import Mathlib
import SelectorAlgebra.Proofs.Sequences

/-!
# Proofs/LongestSubsequence — the common subsequence is a longest one

The table and the walk back through it compute what the recursion over the ends of both lists
computes (`commonSubsequence_eq`), so:

* `commonSubsequence_common` — what is found stands in both lists, in order;
* `length_le_commonSubsequence` — nothing longer does;
* `exists_cons_of_commonSubsequence` — if the first elements are compatible, one of them is used;
* `commonSubsequence_longest` — it is what stands for the elements along ascending pairs of places,
  and no such pairs are more.
-/

namespace SelectorAlgebra

variable {α β γ : Type} {select : α → β → Option γ}

/-! ## What is found stands in both lists -/

theorem sublistForall₂_reverse {R : γ → α → Prop} {zs : List γ} {xs : List α} :
    List.SublistForall₂ R zs.reverse xs.reverse ↔ List.SublistForall₂ R zs xs := by
  have one : ∀ {zs : List γ} {xs : List α}, List.SublistForall₂ R zs xs →
      List.SublistForall₂ R zs.reverse xs.reverse := by
    intro zs xs h
    obtain ⟨l, related, sub⟩ := List.sublistForall₂_iff.1 h
    exact List.sublistForall₂_iff.2 ⟨l.reverse, List.forall₂_reverse_iff.2 related, sub.reverse⟩
  exact ⟨fun h => by simpa using one h, one⟩

section

variable {R : γ → α → Prop} {S : γ → β → Prop}

/-- The result is made of compatible pairs, in the order of both lists; the induction follows the
definition. -/
theorem bestSubsequence_common {xs : List α} {ys : List β}
    (h : ∀ x ∈ xs, ∀ y ∈ ys, ∀ z, select x y = some z → R z x ∧ S z y) :
    List.SublistForall₂ R (bestSubsequence select xs ys) xs ∧
      List.SublistForall₂ S (bestSubsequence select xs ys) ys := by
  induction xs, ys using bestSubsequence.induct with
  | case1 x xs y ys diagonal left above =>
    have tails : ∀ x' ∈ xs, ∀ y' ∈ ys, ∀ z, select x' y' = some z → R z x' ∧ S z y' :=
      fun x' hx y' hy => h x' (List.mem_cons_of_mem _ hx) y' (List.mem_cons_of_mem _ hy)
    rw [bestSubsequence]
    rcases subsequenceCell_cases select x y (bestSubsequence select xs ys)
      (bestSubsequence select (x :: xs) ys) (bestSubsequence select xs (y :: ys)) with
      ⟨z, selected, cell⟩ | ⟨-, cell | cell, -⟩
    · have related := h x List.mem_cons_self y List.mem_cons_self z selected
      rw [cell]
      exact ⟨.cons related.1 (diagonal tails).1, .cons related.2 (diagonal tails).2⟩
    · have found := left fun x' hx y' hy => h x' hx y' (List.mem_cons_of_mem _ hy)
      rw [cell]
      exact ⟨found.1, .cons_right found.2⟩
    · have found := above fun x' hx y' hy => h x' (List.mem_cons_of_mem _ hx) y' hy
      rw [cell]
      exact ⟨.cons_right found.1, found.2⟩
  | case2 xs ys empty =>
    rw [bestSubsequence]
    · exact ⟨.nil, .nil⟩
    · exact empty

/-- **What is found stands in both lists, in order.** -/
theorem commonSubsequence_common {xs : List α} {ys : List β}
    (h : ∀ x ∈ xs, ∀ y ∈ ys, ∀ z, select x y = some z → R z x ∧ S z y) :
    List.SublistForall₂ R (commonSubsequence select xs ys) xs ∧
      List.SublistForall₂ S (commonSubsequence select xs ys) ys := by
  have found := bestSubsequence_common fun x (hx : x ∈ xs.reverse) y (hy : y ∈ ys.reverse) =>
    h x (List.mem_reverse.1 hx) y (List.mem_reverse.1 hy)
  rw [commonSubsequence_eq]
  exact found.imp (fun left => sublistForall₂_reverse.1 (by rwa [List.reverse_reverse]))
    fun right => sublistForall₂_reverse.1 (by rwa [List.reverse_reverse])

/-! ## Nothing longer does -/

/-- Whatever is related to elements of both lists can stand for them. -/
def Selects (select : α → β → Option γ) (R : γ → α → Prop) (S : γ → β → Prop) : Prop :=
  ∀ z x y, R z x → S z y → (select x y).isSome = true

/-- Every common subsequence is at most as long, by induction on the two lists. -/
theorem length_le_bestSubsequence (complete : Selects select R S) {xs : List α} {ys : List β}
    {zs : List γ} (hx : List.SublistForall₂ R zs xs) (hy : List.SublistForall₂ S zs ys) :
    zs.length ≤ (bestSubsequence select xs ys).length := by
  induction xs, ys using bestSubsequence.induct generalizing zs with
  | case1 x xs y ys diagonal left above =>
    rw [bestSubsequence]
    rcases subsequenceCell_cases select x y (bestSubsequence select xs ys)
      (bestSubsequence select (x :: xs) ys) (bestSubsequence select xs (y :: ys)) with
      ⟨z, selected, cell⟩ | ⟨missing, -, longer⟩
    · -- whichever elements the first of `zs` stands for, the rest stands before them
      rw [cell]
      cases zs with
      | nil => exact Nat.zero_le _
      | cons z' zs =>
        refine Nat.succ_le_succ (diagonal ?_ ?_)
        · cases hx with
          | cons _ rest => exact rest
          | cons_right rest => exact sublistForall₂_of_cons rest
        · cases hy with
          | cons _ rest => exact rest
          | cons_right rest => exact sublistForall₂_of_cons rest
    · cases hx with
      | nil => exact Nat.zero_le _
      | cons_right rest => exact (above rest hy).trans longer.2
      | cons related rest =>
        cases hy with
        | cons related' _ =>
          have selected := complete _ x y related related'
          rw [missing] at selected
          cases selected
        | cons_right rest' => exact (left (.cons related rest) rest').trans longer.1
  | case2 xs ys empty =>
    cases hx with
    | nil => exact Nat.zero_le _
    | cons _ _ =>
      cases hy with
      | cons _ _ => exact (empty _ _ _ _ rfl rfl).elim
      | cons_right _ => exact (empty _ _ _ _ rfl rfl).elim
    | cons_right _ =>
      cases hy with
      | nil => exact Nat.zero_le _
      | cons _ _ => exact (empty _ _ _ _ rfl rfl).elim
      | cons_right _ => exact (empty _ _ _ _ rfl rfl).elim

/-- **No other sequence that stands in both lists is longer.** -/
theorem length_le_commonSubsequence (complete : Selects select R S) {xs : List α} {ys : List β}
    {zs : List γ} (hx : List.SublistForall₂ R zs xs) (hy : List.SublistForall₂ S zs ys) :
    zs.length ≤ (commonSubsequence select xs ys).length := by
  have shorter := length_le_bestSubsequence complete (sublistForall₂_reverse.2 hx)
    (sublistForall₂_reverse.2 hy)
  rwa [commonSubsequence_eq, List.length_reverse, ← List.length_reverse]

end

/-! ## Lists whose first elements are compatible -/

/-- What stands for the first element of one list, or of the other, at the front. -/
structure StandsInFront (select : α → β → Option γ) (x : α) (xs : List α) (y : β) (ys : List β)
    (z : γ) (zs : List γ) : Prop where
  front : (∃ y' ∈ y :: ys, select x y' = some z) ∨ ∃ x' ∈ x :: xs, select x' y = some z
  rest : ∀ w ∈ zs, ∃ x' ∈ xs, ∃ y' ∈ ys, select x' y' = some w

theorem StandsInFront.mono {x : α} {xs xs' : List α} {y : β} {ys ys' : List β} {z : γ} {zs : List γ}
    (h : StandsInFront select x xs y ys z zs) (hx : xs ⊆ xs') (hy : ys ⊆ ys') :
    StandsInFront select x xs' y ys' z zs := by
  refine ⟨h.front.imp ?_ ?_, fun w hw => ?_⟩
  · rintro ⟨y', mem, selected⟩
    exact ⟨y', List.cons_subset_cons y hy mem, selected⟩
  · rintro ⟨x', mem, selected⟩
    exact ⟨x', List.cons_subset_cons x hx mem, selected⟩
  · obtain ⟨x', hx', y', hy', selected⟩ := h.rest w hw
    exact ⟨x', hx hx', y', hy hy', selected⟩

section Front

variable {x : α} {y : β} (h : (select x y).isSome = true)

include h

/-- The first row of the table: one element is compatible with the last of a list. -/
theorem exists_concat_of_singleton_bestSubsequence (vs : List β) : ∃ zs z,
    bestSubsequence select [x] (vs ++ [y]) = zs ++ [z] ∧ StandsInFront select x [] y vs z zs := by
  induction vs with
  | nil =>
    obtain ⟨z, hz⟩ := Option.isSome_iff_exists.1 h
    refine ⟨[], z, ?_, .inl ⟨y, List.mem_cons_self, hz⟩, List.forall_mem_nil _⟩
    simp [bestSubsequence, subsequenceCell, hz]
  | cons v vs ih =>
    obtain ⟨zs, z, eq, found⟩ := ih
    rw [List.cons_append, bestSubsequence, nil_bestSubsequence, nil_bestSubsequence, eq]
    rcases subsequenceCell_cases select x v [] (zs ++ [z]) [] with
      ⟨z', selected, cell⟩ | ⟨-, cell | cell, longer, -⟩
    · refine ⟨[], z', cell, .inl ⟨v, ?_, selected⟩, List.forall_mem_nil _⟩
      exact List.mem_cons_of_mem _ List.mem_cons_self
    · exact ⟨zs, z, cell, found.mono (List.Subset.refl _) (List.subset_cons_self v vs)⟩
    · rw [cell] at longer
      simp at longer

/-- The first column of the table: the last of a list is compatible with one element. -/
theorem exists_concat_of_bestSubsequence_singleton (us : List α) : ∃ zs z,
    bestSubsequence select (us ++ [x]) [y] = zs ++ [z] ∧ StandsInFront select x us y [] z zs := by
  induction us with
  | nil => exact exists_concat_of_singleton_bestSubsequence h []
  | cons u us ih =>
    obtain ⟨zs, z, eq, found⟩ := ih
    rw [List.cons_append, bestSubsequence, bestSubsequence_nil, bestSubsequence_nil, eq]
    rcases subsequenceCell_cases select u y [] [] (zs ++ [z]) with
      ⟨z', selected, cell⟩ | ⟨-, cell | cell, -, longer⟩
    · refine ⟨[], z', cell, .inr ⟨u, ?_, selected⟩, List.forall_mem_nil _⟩
      exact List.mem_cons_of_mem _ List.mem_cons_self
    · rw [cell] at longer
      simp at longer
    · exact ⟨zs, z, cell, found.mono (List.subset_cons_self u us) (List.Subset.refl _)⟩

/-- The best subsequence of two lists whose last elements are compatible ends in what
stands for one of them. -/
theorem exists_concat_of_bestSubsequence (us : List α) (vs : List β) : ∃ zs z,
    bestSubsequence select (us ++ [x]) (vs ++ [y]) = zs ++ [z] ∧
      StandsInFront select x us y vs z zs := by
  induction us generalizing vs with
  | nil => exact exists_concat_of_singleton_bestSubsequence h vs
  | cons u us above =>
    induction vs with
    | nil => exact exists_concat_of_bestSubsequence_singleton h (u :: us)
    | cons v vs left =>
      obtain ⟨zs, z, eq, found⟩ := above vs
      obtain ⟨zs₁, z₁, eq₁, found₁⟩ := left
      obtain ⟨zs₂, z₂, eq₂, found₂⟩ := above (v :: vs)
      have us_sub := List.subset_cons_self u us
      have vs_sub := List.subset_cons_self v vs
      rw [List.cons_append] at eq₁ eq₂ ⊢
      rw [List.cons_append, bestSubsequence, eq, eq₁, eq₂]
      rcases subsequenceCell_cases select u v (zs ++ [z]) (zs₁ ++ [z₁]) (zs₂ ++ [z₂]) with
        ⟨w, selected, cell⟩ | ⟨-, cell | cell, -⟩
      · have wider := found.mono us_sub vs_sub
        refine ⟨w :: zs, z, cell, wider.front, List.forall_mem_cons.2 ⟨?_, wider.rest⟩⟩
        exact ⟨u, List.mem_cons_self, v, List.mem_cons_self, selected⟩
      · exact ⟨zs₁, z₁, cell, found₁.mono (List.Subset.refl _) vs_sub⟩
      · exact ⟨zs₂, z₂, cell, found₂.mono us_sub (List.Subset.refl _)⟩

end Front

/-- **A common subsequence begins with the first element of one of the lists**, if the first
elements are compatible. -/
theorem exists_cons_of_commonSubsequence {x : α} {y : β} (h : (select x y).isSome = true)
    (xs : List α) (ys : List β) : ∃ z zs, commonSubsequence select (x :: xs) (y :: ys) = z :: zs ∧
      StandsInFront select x xs y ys z zs := by
  obtain ⟨zs, z, eq, found⟩ := exists_concat_of_bestSubsequence h xs.reverse ys.reverse
  have same := found.mono (List.reverse_subset.2 (List.Subset.refl xs))
    (List.reverse_subset.2 (List.Subset.refl ys))
  refine ⟨z, zs.reverse, ?_, same.front, fun w hw => same.rest w (List.mem_reverse.1 hw)⟩
  rw [commonSubsequence_eq, List.reverse_cons, List.reverse_cons, eq, List.reverse_concat]

/-! ## Places

Nothing is asked of `select`, so what it gives does not tell which elements it stands for.  Their
places do: the common subsequence goes along with naming all elements by their places. -/

/-- Places in two lists whose elements are compatible, and what stands for both. -/
structure Pairing (select : α → β → Option γ) (xs : List α) (ys : List β) where
  left : Fin xs.length
  right : Fin ys.length
  value : γ
  selected : select xs[left] ys[right] = some value

/-- Along the pairings, the places go up in both lists. -/
def IsAscending {xs : List α} {ys : List β} (pairings : List (Pairing select xs ys)) : Prop :=
  pairings.Pairwise fun p q => p.left < q.left ∧ p.right < q.right

/-- Selection, with elements named by their places. -/
def selectPlaces (select : α → β → Option γ) (xs : List α) (ys : List β) (i : Fin xs.length)
    (j : Fin ys.length) : Option (Pairing select xs ys) :=
  (select xs[i] ys[j]).pmap (Pairing.mk i j) fun _ h => h

/-- What is laid into all places in order is laid into ascending ones. -/
theorem sublistForall₂_finRange {δ : Type} {n : ℕ} {place : δ → Fin n} {zs : List δ} :
    List.SublistForall₂ (fun z i => place z = i) zs (List.finRange n) ↔
      zs.Pairwise fun z w => place z < place w := by
  have all_places := List.pairwise_lt_finRange n
  rw [List.sublistForall₂_iff, ← List.pairwise_map]
  constructor
  · rintro ⟨places, placed, sub⟩
    have same : zs.map place = places := by
      rwa [← List.forall₂_eq_eq_eq, List.forall₂_map_left_iff]
    rw [same]
    exact all_places.sublist sub
  · intro ascending
    refine ⟨zs.map place, List.forall₂_map_right_iff.2 (List.forall₂_same.2 fun _ _ => rfl), ?_⟩
    have among : (zs.map place).Subperm (List.finRange n) :=
      List.subperm_of_subset (ascending.imp ne_of_lt) fun i _ => List.mem_finRange i
    exact List.sublist_of_subperm_of_pairwise among ascending all_places

/-- Ascending pairings are subsequences of the places of both lists. -/
theorem isAscending_iff {xs : List α} {ys : List β}
    {pairings : List (Pairing select xs ys)} : IsAscending pairings ↔
    List.SublistForall₂ (fun p i => p.left = i) pairings (List.finRange xs.length) ∧
      List.SublistForall₂ (fun p j => p.right = j) pairings (List.finRange ys.length) := by
  rw [sublistForall₂_finRange, sublistForall₂_finRange, ← List.pairwise_and_iff, IsAscending]

section Places

variable (select) (xs : List α) (ys : List β)

/-- The pairings along a common subsequence. -/
def commonPairings : List (Pairing select xs ys) :=
  commonSubsequence (selectPlaces select xs ys) (List.finRange xs.length) (List.finRange ys.length)

theorem map_value_commonPairings :
    (commonPairings select xs ys).map Pairing.value = commonSubsequence select xs ys := by
  have natural : ∀ i j, select xs[i] ys[j] = (selectPlaces select xs ys i j).map Pairing.value := by
    intro i j
    rw [selectPlaces, Option.map_pmap, Option.pmap_eq_map, Option.map_id']
  have renamed := commonSubsequence_map natural (List.finRange xs.length) (List.finRange ys.length)
  rw [commonPairings, ← renamed]
  exact congrArg₂ (commonSubsequence select) (List.map_getElem_finRange xs)
    (List.map_getElem_finRange ys)

theorem isAscending_commonPairings : IsAscending (commonPairings select xs ys) := by
  refine isAscending_iff.2 (commonSubsequence_common fun i _ j _ p selected => ?_)
  obtain ⟨z, h, -, rfl⟩ := Option.pmap_eq_some_iff.1 selected
  exact ⟨rfl, rfl⟩

/-- No ascending choice of pairings is longer. -/
theorem length_le_commonPairings {pairings : List (Pairing select xs ys)}
    (h : IsAscending pairings) :
    pairings.length ≤ (commonPairings select xs ys).length := by
  obtain ⟨left, right⟩ := isAscending_iff.1 h
  refine length_le_commonSubsequence ?_ left right
  rintro p i j rfl rfl
  rw [selectPlaces, Option.isSome_pmap, p.selected, Option.isSome_some]

end Places

/-- **The common subsequence is a longest one, whatever is compatible with what**: it
is what `select` gives along pairs of places that go up in both lists, and no more
places can be paired so. -/
theorem commonSubsequence_longest (select : α → β → Option γ) (xs : List α) (ys : List β) :
    (∃ pairings : List (Pairing select xs ys), IsAscending pairings ∧
      pairings.map Pairing.value = commonSubsequence select xs ys) ∧
    ∀ pairings : List (Pairing select xs ys), IsAscending pairings →
      pairings.length ≤ (commonSubsequence select xs ys).length := by
  rw [← map_value_commonPairings]
  refine ⟨⟨_, isAscending_commonPairings select xs ys, rfl⟩, fun pairings h => ?_⟩
  rw [List.length_map]
  exact length_le_commonPairings select xs ys h

/-- A number is compatible with every greater one, and their difference stands for both. -/
theorem commonSubsequence_longest_differences :
    ∃ (select : ℕ → ℕ → Option ℕ) (pairings : List (Pairing select [1, 5, 3] [2, 4, 9])),
      select = (fun a b => if a < b then some (b - a) else none) ∧ IsAscending pairings ∧
      pairings.map Pairing.value = [1, 1] ∧
      pairings.length ≤ (commonSubsequence select [1, 5, 3] [2, 4, 9]).length :=
  ⟨fun a b => if a < b then some (b - a) else none, [⟨0, 0, 1, rfl⟩, ⟨2, 1, 1, rfl⟩], rfl,
    by simp [IsAscending], rfl, (commonSubsequence_longest _ _ _).2 _ (by simp [IsAscending])⟩

end SelectorAlgebra
