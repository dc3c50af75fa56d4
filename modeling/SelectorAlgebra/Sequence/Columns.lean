/-!
# Sequence/Columns — reading rows column by column

The rows are queues that take turns.  A round takes the first element of every queue, in order,
and lets go of the queues that have run out; the rounds go on until no queue is left.

    [1, 2, 3], [4, 5], [6, 7, 8]  ↦  1, 4, 6, 2, 5, 7, 3, 8

A row on its own is returned as it is.
-/

namespace SelectorAlgebra

variable {α : Type}

/-- The turn of one queue: its first element joins those taken, and it is kept if more are left. -/
def takeTurn (round : List α × List (List α)) (queue : List α) : List α × List (List α) :=
  match queue with
  | [] => round
  | x :: rest => (round.1 ++ [x], if rest.isEmpty then round.2 else round.2 ++ [rest])

/-- One turn for each queue: what was `taken` before and now, and the queues that are kept. -/
def takeTurns (taken : List α) (queues : List (List α)) : List α × List (List α) :=
  queues.foldl takeTurn (taken, [])

/-! ## The rounds come to an end -/

theorem foldl_takeTurn (taken : List α) (kept queues : List (List α)) :
    queues.foldl takeTurn (taken, kept) = (taken ++ queues.filterMap List.head?,
      kept ++ (queues.map List.tail).filter (!·.isEmpty)) := by
  induction queues generalizing taken kept with
  | nil => simp
  | cons queue queues ih =>
    rw [List.foldl_cons]
    cases queue with
    | nil => simp [takeTurn, ih, List.filterMap_cons]
    | cons x rest => cases rest <;> simp [takeTurn, ih]

/-- A round takes the first elements and keeps what is left of the rows. -/
theorem takeTurns_eq (taken : List α) (queues : List (List α)) :
    takeTurns taken queues = (taken ++ queues.filterMap List.head?,
      (queues.map List.tail).filter (!·.isEmpty)) :=
  foldl_takeTurn taken [] queues

/-- How much there is to take: each queue counts once more than it has elements. -/
def queueSize (queues : List (List α)) : Nat :=
  queues.foldr (fun queue size => queue.length + 1 + size) 0

theorem queueSize_cons (queue : List α) (queues : List (List α)) :
    queueSize (queue :: queues) = queue.length + 1 + queueSize queues := rfl

theorem queueSize_kept_le (queues : List (List α)) :
    queueSize ((queues.map List.tail).filter (!·.isEmpty)) + queues.length ≤ queueSize queues := by
  induction queues with
  | nil => exact Nat.le_refl _
  | cons queue queues ih =>
    rw [List.map_cons, List.filter_cons, List.length_cons, queueSize_cons]
    cases queue with
    | nil =>
      rw [List.length_nil, if_neg (by simp)]
      omega
    | cons x rest =>
      split
      · rw [queueSize_cons, List.tail_cons, List.length_cons]
        omega
      · omega

theorem queueSize_takeTurns_lt (taken : List α) (queue : List α) (queues : List (List α)) :
    queueSize (takeTurns taken (queue :: queues)).2 < queueSize (queue :: queues) := by
  have less := queueSize_kept_le (queue :: queues)
  simp only [takeTurns_eq, List.length_cons] at less ⊢
  omega

/-- Round after round, until no queue is left. -/
def drain (taken : List α) (queues : List (List α)) : List α :=
  match queues with
  | [] => taken
  | queue :: queues =>
    let round := takeTurns taken (queue :: queues)
    drain round.1 round.2
termination_by queueSize queues
decreasing_by exact queueSize_takeTurns_lt taken queue queues

/-- All first elements of the rows, then all second ones, and so on; short rows drop out. -/
def roundRobin (rows : List (List α)) : List α :=
  match rows with
  | [row] => row
  | rows => drain [] rows

end SelectorAlgebra
