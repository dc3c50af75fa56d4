import Mathlib
import SelectorAlgebra.Sequence.Columns

/-!
# Proofs/Columns — rows that take turns are read column by column

    roundRobin rows  =  column 0, column 1, …

`roundRobin` drains queues in rounds.  A round takes column `0` and leaves rows whose columns are
the further ones (`byColumns_round`), so draining reads column by column
(`roundRobin_eq_byColumns`), a row on its own included.  The queues that a round lets go of have
no column left, so it does not matter that they are gone.

Two things follow for rows of any number and length: nothing is lost, and a table is transposed
(`roundRobin_perm`, `roundRobin_table`).
-/

namespace SelectorAlgebra

variable {α β γ : Type}

/-! ## Columns -/

/-- What stands at place `i` of the rows that are long enough. -/
def column (rows : List (List α)) (i : ℕ) : List α := rows.filterMap (·[i]?)

/-- The length of the longest row. -/
def widest (rows : List (List α)) : ℕ := rows.foldl (fun n row => max n row.length) 0

/-- All columns, one after the other. -/
def byColumns (rows : List (List α)) : List α := (List.range (widest rows)).flatMap (column rows)

theorem column_cons (row : List α) (rows : List (List α)) (i : ℕ) :
    column (row :: rows) i = row[i]?.toList ++ column rows i := by
  cases hi : row[i]? <;> simp [column, hi]

theorem foldl_max_le_iff {rows : List (List α)} {n m : ℕ} :
    rows.foldl (fun n row => max n row.length) n ≤ m ↔ n ≤ m ∧ ∀ row ∈ rows, row.length ≤ m := by
  induction rows generalizing n with
  | nil => simp
  | cons row rows ih => rw [List.foldl_cons, ih, max_le_iff, List.forall_mem_cons, and_assoc]

theorem widest_le_iff {rows : List (List α)} {m : ℕ} :
    widest rows ≤ m ↔ ∀ row ∈ rows, row.length ≤ m := by
  rw [widest, foldl_max_le_iff, and_iff_right (Nat.zero_le m)]

theorem length_le_widest {rows : List (List α)} {row : List α} (h : row ∈ rows) :
    row.length ≤ widest rows :=
  widest_le_iff.1 (Nat.le_refl _) row h

/-- Beyond the longest row there is nothing to read. -/
theorem column_eq_nil {rows : List (List α)} {i : ℕ} (h : widest rows ≤ i) : column rows i = [] :=
  List.filterMap_eq_nil_iff.2 fun _ hrow =>
    List.getElem?_eq_none (Nat.le_trans (length_le_widest hrow) h)

/-- Reading further than the longest row changes nothing. -/
theorem byColumns_eq {rows : List (List α)} {n : ℕ} (h : widest rows ≤ n) :
    byColumns rows = (List.range n).flatMap (column rows) := by
  induction n, h using Nat.le_induction with
  | base => rfl
  | succ n more ih => rw [List.range_succ, List.flatMap_append, ← ih]; simp [column_eq_nil more]

/-! ## One round -/

/-- The first column holds the first elements. -/
theorem column_zero (rows : List (List α)) : column rows 0 = rows.filterMap List.head? :=
  congrArg (rows.filterMap ·) (funext fun _ => List.head?_eq_getElem?.symm)

/-- What a round leaves has the further columns: rows that have run out have none. -/
theorem column_succ (rows : List (List α)) (i : ℕ) :
    column rows (i + 1) = column ((rows.map List.tail).filter (!·.isEmpty)) i := by
  induction rows with
  | nil => rfl
  | cons row rows ih =>
    rcases row with _ | ⟨x, _ | ⟨y, rest⟩⟩
    · simpa [column_cons] using ih
    · simpa [column_cons] using ih
    · simpa [column_cons] using ih

/-- What a round leaves is no longer than before. -/
theorem widest_kept_le (rows : List (List α)) :
    widest ((rows.map List.tail).filter (!·.isEmpty)) ≤ widest rows := by
  refine widest_le_iff.2 fun row hrow => ?_
  obtain ⟨row', hrow', rfl⟩ := List.mem_map.1 (List.mem_of_mem_filter hrow)
  rw [List.length_tail]
  exact Nat.le_trans (Nat.sub_le _ _) (length_le_widest hrow')

/-- **A round reads one column**, and leaves rows that have the others. -/
theorem byColumns_round (rows : List (List α)) : byColumns rows =
    rows.filterMap List.head? ++ byColumns ((rows.map List.tail).filter (!·.isEmpty)) := by
  rw [byColumns_eq (Nat.le_succ (widest rows)), byColumns_eq (widest_kept_le rows),
    List.range_succ_eq_map, List.flatMap_cons, List.flatMap_map, column_zero]
  exact congrArg _ (List.flatMap_congr fun i _ => column_succ rows i)

/-! ## The whole run -/

/-- Draining the queues appends their columns to what was taken; the induction is on the rounds. -/
theorem drain_eq (taken : List α) (queues : List (List α)) :
    drain taken queues = taken ++ byColumns queues := by
  induction taken, queues using drain.induct with
  | case1 taken => rw [drain]; simp [byColumns, widest]
  | case2 taken queue queues round ih =>
    rw [drain, ih, show round = takeTurns taken (queue :: queues) from rfl, takeTurns_eq,
      byColumns_round (queue :: queues), List.append_assoc]

/-- The elements of a list, one place after the other. -/
theorem flatMap_range_getElem? {xs : List α} {n : ℕ} (h : xs.length ≤ n) :
    (List.range n).flatMap (fun i => xs[i]?.toList) = xs := by
  induction xs generalizing n with
  | nil => simp
  | cons x xs ih =>
    obtain ⟨n, rfl⟩ := Nat.exists_eq_succ_of_ne_zero (Nat.ne_zero_of_lt h)
    rw [List.range_succ_eq_map, List.flatMap_cons, List.flatMap_map]
    simpa using ih (Nat.le_of_succ_le_succ h)

theorem byColumns_singleton (row : List α) : byColumns [row] = row := by
  have alone : column [row] = fun i => row[i]?.toList := by
    funext i
    rw [column_cons]
    exact List.append_nil _
  rw [byColumns, alone]
  exact flatMap_range_getElem? (length_le_widest List.mem_cons_self)

/-- **Taking turns is reading column by column.** -/
theorem roundRobin_eq_byColumns (rows : List (List α)) : roundRobin rows = byColumns rows := by
  unfold roundRobin
  split
  · exact (byColumns_singleton _).symm
  · rw [drain_eq, List.nil_append]

/-! ## Nothing is lost -/

/-- The columns together have the members of the rows. -/
theorem perm_flatMap_column {rows : List (List α)} {n : ℕ} (h : ∀ row ∈ rows, row.length ≤ n) :
    ((List.range n).flatMap (column rows)).Perm rows.flatten := by
  induction rows with
  | nil => simp [column]
  | cons row rows ih =>
    rw [List.forall_mem_cons] at h
    rw [List.flatMap_congr fun i _ => column_cons row rows i, List.flatten_cons]
    refine (List.flatMap_append_perm ..).symm.trans ?_
    rw [flatMap_range_getElem? h.1]
    exact (ih h.2).append_left row

/-- **Taking turns only reorders what is in the rows.** -/
theorem roundRobin_perm (rows : List (List α)) : (roundRobin rows).Perm rows.flatten := by
  rw [roundRobin_eq_byColumns]
  exact perm_flatMap_column fun _ => length_le_widest

/-- What is read stands in one of the rows. -/
theorem mem_roundRobin {rows : List (List α)} {x : α} :
    x ∈ roundRobin rows ↔ ∃ row ∈ rows, x ∈ row := by
  rw [(roundRobin_perm rows).mem_iff, List.mem_flatten]

/-- Something is read if there is something in the rows. -/
theorem roundRobin_ne_nil {rows : List (List α)} {row : List α} (mem : row ∈ rows)
    (filled : row ≠ []) : roundRobin rows ≠ [] := by
  obtain ⟨x, hx⟩ := List.exists_mem_of_ne_nil row filled
  exact List.ne_nil_of_mem (mem_roundRobin.2 ⟨row, mem, hx⟩)

/-! ## Tables -/

/-- **The rows of a table that take turns transpose it.** -/
theorem roundRobin_table (f : α → β → γ) (xs : List α) (ys : List β) :
    roundRobin (ys.map fun y => xs.map fun x => f x y)
      = xs.flatMap fun x => ys.map fun y => f x y := by
  have width : widest (ys.map fun y => xs.map fun x => f x y) ≤ xs.length :=
    widest_le_iff.2 (List.forall_mem_map.2 fun y _ => Nat.le_of_eq (List.length_map _))
  have columns : ∀ i : ℕ, column (ys.map fun y => xs.map fun x => f x y) i
      = xs[i]?.toList.flatMap fun x => ys.map fun y => f x y := by
    intro i
    cases hi : xs[i]? <;> simp [column, List.filterMap_map, hi]
  calc roundRobin (ys.map fun y => xs.map fun x => f x y)
      = (List.range xs.length).flatMap fun i =>
          xs[i]?.toList.flatMap fun x => ys.map fun y => f x y := by
        rw [roundRobin_eq_byColumns, byColumns_eq width, List.flatMap_congr fun i _ => columns i]
    _ = ((List.range xs.length).flatMap fun i => xs[i]?.toList).flatMap fun x =>
          ys.map fun y => f x y := (List.flatMap_assoc ..).symm
    _ = xs.flatMap fun x => ys.map fun y => f x y := by
        rw [flatMap_range_getElem? (Nat.le_refl _)]

end SelectorAlgebra
