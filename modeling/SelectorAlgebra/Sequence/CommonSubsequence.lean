/-!
# Sequence/CommonSubsequence — a longest common subsequence, up to compatibility

`select x y` tells whether `x` and `y` may stand for each other and what stands for both.  Nothing
is asked of it: it need be neither symmetric nor transitive.

There are two phases.  The first fills a table, row by row, with one question to `select` for each
cell.  The cell for an element of each list holds the answer, and how long a common subsequence of
both lists up to there can be:

    compatible   one more than the length diagonally before
    else         the greater of the lengths to the left and above

The second walks back from the last cell.  It takes what stands for two compatible elements and goes
diagonally, and otherwise goes where the length is greater, up if they tie.
-/

namespace SelectorAlgebra

variable {α β γ : Type}

/-- The cell for two elements: the length up to there, and what stands for both. -/
structure Cell (γ : Type) where
  length : Nat
  selection : Option γ

/-- The length for two elements, from what stands for both and the three lengths before. -/
def cellLength (selection : Option γ) (diagonal left above : Nat) : Nat :=
  if selection.isSome then diagonal + 1 else max left above

/-- The row for one element `x`, from the lengths in the row above it, the one diagonally before the
first cell included.  `left` is the length before the first cell. -/
def fillRow (select : α → β → Option γ) (x : α) : Nat → List Nat → List β → List (Cell γ)
  | left, diagonal :: above :: aboves, y :: ys =>
    let selection := select x y
    let length := cellLength selection diagonal left above
    ⟨length, selection⟩ :: fillRow select x length (above :: aboves) ys
  | _, _, _ => []

/-- The rows of a table. -/
abbrev Table (γ : Type) := List (List (Cell γ))

/-- The rows for some elements, from the lengths in the row above them. -/
def fillRows (select : α → β → Option γ) (ys : List β) : List Nat → List α → Table γ
  | _, [] => []
  | aboves, x :: xs =>
    let row := fillRow select x 0 aboves ys
    row :: fillRows select ys (0 :: row.map Cell.length) xs

namespace Table

/-- What stands for the elements at two places. -/
def selectionAt (table : Table γ) (i j : Nat) : Option γ :=
  (table[i]?.bind (·[j]?)).bind Cell.selection

/-- The length for the first `i` and the first `j` elements. -/
def lengthAt (table : Table γ) : Nat → Nat → Nat
  | i + 1, j + 1 => ((table[i]?.bind (·[j]?)).map Cell.length).getD 0
  | _, _ => 0

/-- What is found on the way back from the first `i` and the first `j` elements, put before what
was `found` already. -/
@[semireducible] def backtrack (table : Table γ) : Nat → Nat → List γ → List γ
  -- Neither place goes down in every step, only their sum.  Without the attribute, a recursion by
  -- such a measure could not be evaluated on closed tables.
  | i + 1, j + 1, found =>
    match table.selectionAt i j with
    | some z => table.backtrack i j (z :: found)
    | none =>
      if table.lengthAt i (j + 1) < table.lengthAt (i + 1) j then table.backtrack (i + 1) j found
      else table.backtrack i (j + 1) found
  | _, _, found => found
termination_by i j => i + j

end Table

/-- A longest common subsequence of `xs` and `ys`. -/
def commonSubsequence (select : α → β → Option γ) (xs : List α) (ys : List β) : List γ :=
  let table := fillRows select ys (List.replicate (ys.length + 1) 0) xs
  table.backtrack xs.length ys.length []

end SelectorAlgebra
