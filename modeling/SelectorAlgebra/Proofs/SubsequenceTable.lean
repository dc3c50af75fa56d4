import Mathlib.Data.List.Basic
import SelectorAlgebra.Sequence.CommonSubsequence

/-!
# Proofs/SubsequenceTable — the table and the way back through it

    commonSubsequence select xs ys  =  the best one, by recursion over the ends of both lists

`bestSubsequence` is that recursion.  The two phases of `commonSubsequence` agree on it:

* `lengthAt_table`, `selectionAt_table` — each cell has the length of the best subsequence up to
  there, and the answer of `select`;
* `backtrack_table` — the walk back finds the best subsequence itself, though it looks at lengths
  and answers only.

Everything else about common subsequences is proved of the recursion, through
`commonSubsequence_eq`.
-/

namespace SelectorAlgebra

variable {α β γ : Type} {select : α → β → Option γ}

/-! ## The recursion -/

/-- The better of two subsequences: the one above unless the left one is longer. -/
def longerOf (left above : List γ) : List γ := if above.length < left.length then left else above

/-- The best subsequence for two further elements, from the three before it. -/
def subsequenceCell (select : α → β → Option γ) (x : α) (y : β)
    (diagonal left above : List γ) : List γ :=
  match select x y with
  | some z => z :: diagonal
  | none => longerOf left above

/-- The best subsequence for two lists given last element first, itself last element first. -/
def bestSubsequence (select : α → β → Option γ) : List α → List β → List γ
  | x :: xs, y :: ys => subsequenceCell select x y (bestSubsequence select xs ys)
      (bestSubsequence select (x :: xs) ys) (bestSubsequence select xs (y :: ys))
  | _, _ => []
termination_by xs ys => xs.length + ys.length

theorem bestSubsequence_nil (xs : List α) : bestSubsequence select xs [] = [] := by
  rw [bestSubsequence]
  simp

theorem nil_bestSubsequence (ys : List β) : bestSubsequence select [] ys = [] := by
  rw [bestSubsequence]
  simp

/-- Either what stands for both elements is taken, or one of the elements is left out, and then
neither choice would have been longer. -/
theorem subsequenceCell_cases (select : α → β → Option γ) (x : α) (y : β)
    (diagonal left above : List γ) :
    (∃ z, select x y = some z ∧ subsequenceCell select x y diagonal left above = z :: diagonal) ∨
      select x y = none ∧ (subsequenceCell select x y diagonal left above = left ∨
        subsequenceCell select x y diagonal left above = above) ∧
      left.length ≤ (subsequenceCell select x y diagonal left above).length ∧
      above.length ≤ (subsequenceCell select x y diagonal left above).length := by
  rw [subsequenceCell]
  cases select x y with
  | some z => exact .inl ⟨z, rfl, rfl⟩
  | none =>
    refine .inr ⟨rfl, ?_⟩
    simp only [longerOf]
    split
    · exact ⟨.inl rfl, Nat.le_refl _, by omega⟩
    · exact ⟨.inr rfl, by omega, Nat.le_refl _⟩

/-! ## The table -/

/-- The length in a cell is that of the best subsequence, if the lengths before it are. -/
theorem cellLength_eq (x : α) (y : β) (diagonal left above : List γ) :
    cellLength (select x y) diagonal.length left.length above.length
      = (subsequenceCell select x y diagonal left above).length := by
  rw [cellLength, subsequenceCell]
  cases select x y with
  | some z => rfl
  | none =>
    simp only [longerOf, Option.isSome_none, Bool.false_eq_true, if_false]
    split <;> omega

/-- The lengths of the best subsequences with `xs`, for the elements seen and each more of `ys`. -/
def bestLengths (select : α → β → Option γ) (xs : List α) : List β → List β → List Nat
  | seen, [] => [(bestSubsequence select xs seen).length]
  | seen, y :: ys => (bestSubsequence select xs seen).length ::
      bestLengths select xs (y :: seen) ys

/-- The row for `x` after `xs`, for each more of `ys`. -/
def bestRow (select : α → β → Option γ) (x : α) (xs : List α) : List β → List β → List (Cell γ)
  | _, [] => []
  | seen, y :: ys => ⟨(bestSubsequence select (x :: xs) (y :: seen)).length, select x y⟩ ::
      bestRow select x xs (y :: seen) ys

/-- The lengths in a row start with the one of the columns seen. -/
theorem bestLengths_eq_cons (select : α → β → Option γ) (xs : List α) (seen ys : List β) : ∃ rest,
    bestLengths select xs seen ys = (bestSubsequence select xs seen).length :: rest := by
  cases ys <;> exact ⟨_, rfl⟩

/-- **A row is filled with the best lengths, if the row above it was.** -/
theorem fillRow_bestLengths (select : α → β → Option γ) (x : α) (xs : List α) (seen ys : List β) :
    fillRow select x (bestSubsequence select (x :: xs) seen).length
      (bestLengths select xs seen ys) ys = bestRow select x xs seen ys := by
  induction ys generalizing seen with
  | nil => rfl
  | cons y ys ih =>
    have cell : cellLength (select x y) (bestSubsequence select xs seen).length
        (bestSubsequence select (x :: xs) seen).length
        (bestSubsequence select xs (y :: seen)).length
        = (bestSubsequence select (x :: xs) (y :: seen)).length := by
      rw [cellLength_eq, ← bestSubsequence]
    have next := ih (y :: seen)
    obtain ⟨rest, eq⟩ := bestLengths_eq_cons select xs (y :: seen) ys
    rw [eq] at next
    rw [bestLengths, eq, fillRow, cell, next, bestRow]

/-- The lengths of a row's cells are the lengths that the next row reads. -/
theorem map_length_bestRow (select : α → β → Option γ) (x : α) (xs : List α) (seen ys : List β) :
    (bestSubsequence select (x :: xs) seen).length ::
      (bestRow select x xs seen ys).map Cell.length = bestLengths select (x :: xs) seen ys := by
  induction ys generalizing seen with
  | nil => rfl
  | cons y ys ih => rw [bestRow, List.map_cons, ih, bestLengths]

theorem bestLengths_nil (select : α → β → Option γ) (seen ys : List β) :
    bestLengths select [] seen ys = List.replicate (ys.length + 1) 0 := by
  induction ys generalizing seen with
  | nil => rw [bestLengths, nil_bestSubsequence]; rfl
  | cons y ys ih => rw [bestLengths, nil_bestSubsequence, ih]; rfl

/-- The cell of a column: the best length up to there, and what is selected there. -/
theorem getElem?_bestRow (x : α) (xs : List α) (seen ys : List β) (j : Nat) :
    (bestRow select x xs seen ys)[j]? = ys[j]?.map fun y =>
      ⟨(bestSubsequence select (x :: xs) ((ys.take (j + 1)).reverse ++ seen)).length,
        select x y⟩ := by
  induction ys generalizing seen j with
  | nil => rfl
  | cons y ys ih =>
    cases j with
    | zero => rfl
    | succ j => simpa [bestRow] using ih (y :: seen) j

/-- **Every row of the table is filled with the best lengths.** -/
theorem getElem?_fillRows (ys : List β) (seen xs : List α) (i : Nat) :
    (fillRows select ys (bestLengths select seen [] ys) xs)[i]? = xs[i]?.map fun x =>
      bestRow select x ((xs.take i).reverse ++ seen) [] ys := by
  induction xs generalizing seen i with
  | nil => rfl
  | cons x xs ih =>
    have row := fillRow_bestLengths select x seen [] ys
    have lengths := map_length_bestRow select x seen [] ys
    rw [bestSubsequence_nil, List.length_nil] at row lengths
    rw [fillRows, row, lengths]
    cases i with
    | zero => rfl
    | succ i => simpa using ih (x :: seen) i

section Table

variable (select) (xs : List α) (ys : List β)

/-- The table that `commonSubsequence` fills. -/
def subsequenceTable : Table γ := fillRows select ys (List.replicate (ys.length + 1) 0) xs

/-- The best subsequence of the first elements of both lists. -/
def bestUpTo (i j : Nat) : List γ :=
  bestSubsequence select (xs.take i).reverse (ys.take j).reverse

/-- Every cell of the table, through the recursion it stands for. -/
theorem cell_table (i j : Nat) :
    ((subsequenceTable select xs ys)[i]?.bind (·[j]?)) = xs[i]?.bind fun x => ys[j]?.map fun y =>
      ⟨(bestSubsequence select (x :: (xs.take i).reverse) (ys.take (j + 1)).reverse).length,
        select x y⟩ := by
  rw [subsequenceTable, ← bestLengths_nil select [] ys, getElem?_fillRows,
    List.append_nil]
  cases xs[i]? with
  | none => rfl
  | some x => simpa using getElem?_bestRow x (xs.take i).reverse [] ys j

/-- Each cell has the answer for its two elements. -/
theorem selectionAt_table {i j : Nat} (hi : i < xs.length) (hj : j < ys.length) :
    (subsequenceTable select xs ys).selectionAt i j = select xs[i] ys[j] := by
  rw [Table.selectionAt, cell_table, List.getElem?_eq_getElem hi, List.getElem?_eq_getElem hj]
  rfl

theorem bestUpTo_eq_nil {i j : Nat} (h : i = 0 ∨ j = 0) : bestUpTo select xs ys i j = [] := by
  rcases h with rfl | rfl
  · exact nil_bestSubsequence _
  · exact bestSubsequence_nil _

/-- **Each cell has the length of the best subsequence up to there.** -/
theorem lengthAt_table {i j : Nat} (hi : i ≤ xs.length) (hj : j ≤ ys.length) :
    (subsequenceTable select xs ys).lengthAt i j = (bestUpTo select xs ys i j).length := by
  rcases i with _ | i
  · rw [bestUpTo_eq_nil select xs ys (.inl rfl)]
    rfl
  rcases j with _ | j
  · rw [bestUpTo_eq_nil select xs ys (.inr rfl)]
    rfl
  · rw [Table.lengthAt, cell_table, List.getElem?_eq_getElem hi, List.getElem?_eq_getElem hj,
      bestUpTo, List.take_succ_eq_append_getElem hi, List.reverse_concat]
    rfl

/-- The best subsequence of one element more of each list. -/
theorem bestUpTo_succ {i j : Nat} (hi : i < xs.length) (hj : j < ys.length) :
    bestUpTo select xs ys (i + 1) (j + 1) = subsequenceCell select xs[i] ys[j]
      (bestUpTo select xs ys i j) (bestUpTo select xs ys (i + 1) j)
      (bestUpTo select xs ys i (j + 1)) := by
  simp only [bestUpTo, List.take_succ_eq_append_getElem hi, List.take_succ_eq_append_getElem hj,
    List.reverse_concat]
  rw [bestSubsequence]

/-- What stands for both elements is taken where the table has an answer… -/
theorem bestUpTo_of_selected {i j : Nat} {z : γ} (hi : i < xs.length) (hj : j < ys.length)
    (selected : (subsequenceTable select xs ys).selectionAt i j = some z) :
    bestUpTo select xs ys (i + 1) (j + 1) = z :: bestUpTo select xs ys i j := by
  rw [selectionAt_table select xs ys hi hj] at selected
  rw [bestUpTo_succ select xs ys hi hj, subsequenceCell, selected]

/-- …and elsewhere the two lengths in the table tell which element is left out. -/
theorem bestUpTo_of_refused {i j : Nat} (hi : i < xs.length) (hj : j < ys.length)
    (refused : (subsequenceTable select xs ys).selectionAt i j = none) :
    bestUpTo select xs ys (i + 1) (j + 1) =
      if (subsequenceTable select xs ys).lengthAt i (j + 1)
          < (subsequenceTable select xs ys).lengthAt (i + 1) j then bestUpTo select xs ys (i + 1) j
      else bestUpTo select xs ys i (j + 1) := by
  rw [selectionAt_table select xs ys hi hj] at refused
  rw [bestUpTo_succ select xs ys hi hj, subsequenceCell, refused,
    lengthAt_table select xs ys (Nat.le_of_lt hi) hj,
    lengthAt_table select xs ys hi (Nat.le_of_lt hj)]
  rfl

/-- **The walk back finds the best subsequence.** -/
theorem backtrack_table {i j : Nat} (hi : i ≤ xs.length) (hj : j ≤ ys.length) (found : List γ) :
    (subsequenceTable select xs ys).backtrack i j found
      = (bestUpTo select xs ys i j).reverse ++ found := by
  -- Over the walk; the best subsequence loses at each step what the walk finds there.
  induction i, j, found using Table.backtrack.induct (subsequenceTable select xs ys) with
  | case1 i j found z selected ih =>
    rw [Table.backtrack, selected, bestUpTo_of_selected select xs ys hi hj selected,
      List.reverse_cons, List.append_assoc]
    exact ih (Nat.le_of_lt hi) (Nat.le_of_lt hj)
  | case2 i j found refused longer ih =>
    rw [Table.backtrack, refused, bestUpTo_of_refused select xs ys hi hj refused, if_pos longer]
    simp only [longer, if_true, ih hi (Nat.le_of_lt hj)]
  | case3 i j found refused longer ih =>
    rw [Table.backtrack, refused, bestUpTo_of_refused select xs ys hi hj refused, if_neg longer]
    simp only [longer, if_false, ih (Nat.le_of_lt hi) hj]
  | case4 i j found ended =>
    have start : i = 0 ∨ j = 0 := by
      rcases i with _ | i
      · exact .inl rfl
      rcases j with _ | j
      · exact .inr rfl
      · exact (ended i j rfl rfl).elim
    rw [bestUpTo_eq_nil select xs ys start, Table.backtrack]
    · rfl
    · exact ended

end Table

/-- **The common subsequence is the best subsequence of the two lists.** -/
theorem commonSubsequence_eq (xs : List α) (ys : List β) :
    commonSubsequence select xs ys = (bestSubsequence select xs.reverse ys.reverse).reverse := by
  have walked := backtrack_table select xs ys (Nat.le_refl _) (Nat.le_refl _) []
  rw [bestUpTo, List.take_length, List.take_length, List.append_nil] at walked
  exact walked

theorem commonSubsequence_nil (xs : List α) : commonSubsequence select xs [] = [] := by
  rw [commonSubsequence_eq, List.reverse_nil, bestSubsequence_nil, List.reverse_nil]

end SelectorAlgebra
