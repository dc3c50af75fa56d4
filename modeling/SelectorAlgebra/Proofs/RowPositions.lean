import Mathlib
import SelectorAlgebra.Proofs.ValidWeaving
import SelectorAlgebra.Superselector.Unfold

/-!
# Proofs/RowPositions — walking along rows by positions

The walk that decides whether one row is above another can be done with two positions that only go
forward.  Every look at an item, every cut of a row and every difference of positions then has to be
in range.  `walkFrom` is that walk with each of these checked: it is `none` as soon as one is not.
`unifyRowsAt` does the same for the cuts that unifying makes.

* `rowCoversAt_eq` — nothing is ever out of range, and the answer is that of `rowCovers`.
* `unifyRowsAt_eq` — the same for `unifyRows`, whatever the rows are.

The engine is `searchFrom_eq`: a search from a position behind the start of a cut ends at a position
within the row, and what is left there is what `firstAccepted` leaves.
-/

namespace SelectorAlgebra

/-! ## Checked positions -/

/-- The part of a row from one position to another, if they are positions of it in this order. -/
def slice? {α : Type} (row : List α) (i j : Nat) : Option (List α) :=
  if i ≤ j ∧ j ≤ row.length then some ((row.take j).drop i) else none

/-- The difference of two positions, if the second one is not behind the first. -/
def difference? (m n : Nat) : Option Nat := if n ≤ m then some (m - n) else none

/-- The first position from `after` on such that the item before it is accepted behind the items
from `start`, or the length of the row if there is none. -/
def searchFrom (accept : Compound → List Item → Bool) (lower : List Item) (start after : Nat) :
    Option Nat :=
  if after < lower.length then do
    let position ← difference? after 1
    let item ← lower[position]?
    let parents ← slice? lower start position
    if item.compound?.any (accept · parents) then return after
    else searchFrom accept lower start (after + 1)
  else some after
termination_by lower.length - after

/-- Whether a compound covers the last one of the lower row, behind the items from a position. -/
def coversLastFrom (cover : Compound → Compound → List Item → Bool) (c₁ : Compound)
    (lower : List Item) (start : Nat) : Option Bool := do
  let parents ← slice? lower start (← difference? lower.length 1)
  match ← lower.getLast? with
  | .compound c₂ => return !hasRepeatedCombinator parents && cover c₁ c₂ parents
  | .combinator _ => return false

/-- The walk along both rows from two positions. -/
def walkFrom (cover : Compound → Compound → List Item → Bool) (upper lower : List Item)
    (i₁ i₂ : Nat) :
    Option Bool := do
  let remaining₁ ← difference? upper.length i₁
  let remaining₂ ← difference? lower.length i₂
  if upper.length ≤ i₁ ∨ remaining₂ < remaining₁ then return false
  else match ← upper[i₁]?, ← lower[i₂]? with
    | .compound c₁, .compound _ =>
      if remaining₁ = 1 then coversLastFrom cover c₁ lower i₂
      else
        let after ← searchFrom (cover c₁) lower i₂ (i₂ + 1)
        if after = lower.length then return false
        else match ← upper[i₁ + 1]?, ← lower[after]? with
          | .combinator k₁, .combinator k₂ =>
            if k₁.allows k₂ && !(remaining₁ == 3 && 3 < remaining₂) then
              walkFrom cover upper lower (i₁ + 2) (after + 1)
            else return false
          | .combinator _, .compound _ => return false
          | .compound _, .combinator k₂ =>
            if k₂ == .child then walkFrom cover upper lower (i₁ + 1) (after + 1) else return false
          | .compound _, .compound _ => walkFrom cover upper lower (i₁ + 1) after
    | _, _ => return false
termination_by upper.length - i₁

/-! ## The search -/

section Search

variable (accept : Compound → List Item → Bool) {lower : List Item} {start : Nat}

/-- A slice within bounds is there. -/
theorem slice?_eq {α : Type} {row : List α} {i j : Nat} (h : i ≤ j) (h' : j ≤ row.length) :
    slice? row i j = some ((row.take j).drop i) := if_pos ⟨h, h'⟩

theorem difference?_eq {m n : Nat} (h : n ≤ m) : difference? m n = some (m - n) := if_pos h

theorem firstAccepted_singleton (parents : List Item) (item : Item) :
    firstAccepted accept parents [item] = none := by
  unfold firstAccepted
  rfl

/-- **A search stays within the row**, and leaves what `firstAccepted` leaves. -/
theorem searchFrom_eq {position : Nat} (h : start ≤ position) (h' : position < lower.length) :
    ∃ found, searchFrom accept lower start (position + 1) = some found ∧ found ≤ lower.length ∧
      firstAccepted accept ((lower.take position).drop start) (lower.drop position)
        = if found = lower.length then none else some (lower.drop found) := by
  induction distance : lower.length - position generalizing position with
  | zero => omega
  | succ distance ih =>
    have item : lower.drop position = lower[position] :: lower.drop (position + 1) :=
      List.drop_eq_getElem_cons h'
    rw [searchFrom]
    split
    · rename_i inside
      have next : lower.drop (position + 1) = lower[position + 1] :: lower.drop (position + 2) :=
        List.drop_eq_getElem_cons inside
      rw [difference?_eq (Nat.le_add_left 1 position), Nat.add_sub_cancel]
      simp only [Option.bind_eq_bind, Option.bind_some, List.getElem?_eq_getElem h',
        slice?_eq h h'.le, item, next, firstAccepted]
      split
      · exact ⟨position + 1, rfl, h', by rw [if_neg (by omega), next]⟩
      · have parents : (lower.take position).drop start ++ [lower[position]]
            = (lower.take (position + 1)).drop start := by
          rw [List.take_succ_eq_append_getElem h',
            List.drop_append_of_le_length (by rw [List.length_take]; omega)]
        rw [parents, ← next]
        exact ih (Nat.le_succ_of_le h) inside (by omega)
    · have last : position + 1 = lower.length := by omega
      have rest : lower.drop (position + 1) = [] := List.drop_eq_nil_of_le last.ge
      exact ⟨position + 1, rfl, h', by rw [if_pos last, item, rest, firstAccepted_singleton]⟩

end Search

/-! ## The walk -/

section Walk

variable {cover : Compound → Compound → List Item → Bool} {upper lower : List Item}

theorem ite_some_and (b answer : Bool) :
    (if b then some answer else some false) = some (b && answer) := by
  cases b <;> rfl

/-- A longer row is never above a shorter one. -/
theorem walk_eq_false_of_length_lt (h : lower.length < upper.length) :
    walk cover upper lower = false := by
  unfold walk
  split
  · rfl
  · rfl
  · rfl
  · rfl
  · rename_i filled _
    simp only [List.length_singleton, Nat.lt_one_iff, List.length_eq_zero_iff] at h
    exact absurd h filled
  · rw [if_pos (by simpa [Nat.lt_succ_iff] using h)]
  · rw [if_pos (by simpa [Nat.lt_succ_iff] using h)]

/-- The walk refuses a row that has run out. -/
theorem walk_nil (lower : List Item) : walk cover [] lower = false := by
  rcases lower with _ | ⟨_ | _, lower⟩ <;> simp [walk]

/-- The walk refuses a row that begins with a combinator. -/
theorem walk_combinator_left (k : Combinator) (upper lower : List Item) :
    walk cover (.combinator k :: upper) lower = false := by
  rcases lower with _ | ⟨_ | _, lower⟩ <;> simp [walk]

theorem walk_combinator_right (k : Combinator) (upper lower : List Item) :
    walk cover upper (.combinator k :: lower) = false := by
  simp [walk]

/-- One step of the walk, from a compound of the upper row to the item behind it. -/
theorem walk_step {c₁ c₂ : Compound} {item : Item} {lower' : List Item}
    (shape : lower = .compound c₂ :: lower') (long : upper.length + 2 ≤ lower.length) :
    walk cover (.compound c₁ :: item :: upper) lower =
      match firstAccepted (cover c₁) [] lower, item with
      | some (.combinator k₂ :: rest), .combinator k₁ =>
        k₁.allows k₂ && !(upper.length == 1 && 3 < lower.length) && walk cover upper rest
      | some (.combinator k₂ :: rest), .compound c =>
        k₂ == .child && walk cover (.compound c :: upper) rest
      | some rest, .compound c => walk cover (.compound c :: upper) rest
      | _, _ => false := by
  subst shape
  cases item with
  | combinator k =>
    rw [walk, if_neg (Nat.not_lt.2 long)]
    · rcases firstAccepted (cover c₁) [] (.compound c₂ :: lower') with _ | (_ | ⟨_ | _, rest⟩) <;>
        rfl
    all_goals simp
  | compound c =>
    rw [walk, if_neg (Nat.not_lt.2 long)]
    · rcases firstAccepted (cover c₁) [] (.compound c₂ :: lower') with _ | (_ | ⟨_ | _, rest⟩) <;>
        rfl
    all_goals simp

/-- Covering the last compound from a checked position. -/
theorem coversLastFrom_eq {c₁ : Compound} {start : Nat} (h : start < lower.length) :
    coversLastFrom cover c₁ lower start = some (coversLast cover c₁ (lower.drop start)) := by
  have parents : (lower.take (lower.length - 1)).drop start = (lower.drop start).dropLast := by
    rw [List.dropLast_eq_take, List.length_drop, List.drop_take, Nat.sub_right_comm]
  have last : (lower.drop start).getLast? = lower.getLast? := by
    rw [List.getLast?_drop, if_neg (by omega)]
  rw [coversLastFrom, difference?_eq (by omega)]
  simp only [Option.bind_eq_bind, Option.bind_some]
  rw [slice?_eq (by omega) (by omega), parents, coversLast, last]
  cases hlast : lower.getLast? with
  | none => simp [List.getLast?_eq_none_iff.1 hlast] at h
  | some item => cases item <;> rfl

/-- One step by positions, from a compound that is not the last item of the upper row, if the walk
gives the right answer from all positions behind it. -/
theorem walkFrom_step {c₁ c₂ : Compound} {i₁ i₂ : Nat} (lt : i₁ + 1 < upper.length)
    (long : upper.length - i₁ ≤ lower.length - i₂) (item₁ : upper[i₁]? = some (.compound c₁))
    (item₂ : lower[i₂]? = some (.compound c₂))
    (later : ∀ j₁ j₂, i₁ < j₁ → j₁ ≤ upper.length → j₂ ≤ lower.length →
      walkFrom cover upper lower j₁ j₂ = some (walk cover (upper.drop j₁) (lower.drop j₂))) :
    walkFrom cover upper lower i₁ i₂ = some (walk cover (upper.drop i₁) (lower.drop i₂)) := by
  have lt₂ : i₂ < lower.length := (List.getElem?_eq_some_iff.1 item₂).1
  have long' : (upper.drop (i₁ + 2)).length + 2 ≤ (lower.drop i₂).length := by
    rw [List.length_drop, List.length_drop]
    omega
  have drop₁ : upper.drop i₁ = .compound c₁ :: upper.drop (i₁ + 1) := by
    rw [List.drop_eq_getElem?_toList_append, item₁]
    rfl
  have drop₂ : lower.drop i₂ = .compound c₂ :: lower.drop (i₂ + 1) := by
    rw [List.drop_eq_getElem?_toList_append, item₂]
    rfl
  have next : upper.drop (i₁ + 1) = upper[i₁ + 1] :: upper.drop (i₁ + 2) :=
    List.drop_eq_getElem_cons lt
  obtain ⟨after, found, le, rest⟩ := searchFrom_eq (cover c₁) le_rfl lt₂
  rw [List.drop_eq_nil_of_le (by simp)] at rest
  rw [drop₁, next, walk_step drop₂ long', rest, walkFrom, difference?_eq (by omega),
    difference?_eq lt₂.le]
  simp only [Option.bind_eq_bind, Option.bind_some, item₁, item₂, found]
  rw [if_neg (by omega), if_neg (by omega)]
  split
  · cases upper[i₁ + 1] <;> rfl
  · have lt' : after < lower.length := by omega
    have next' : lower.drop after = lower[after] :: lower.drop (after + 1) :=
      List.drop_eq_getElem_cons lt'
    simp only [List.getElem?_eq_getElem lt, List.getElem?_eq_getElem lt', Option.bind_some]
    rw [next']
    cases item₁' : upper[i₁ + 1] with
    | combinator k₁ =>
      cases lower[after] with
      | compound c => rfl
      | combinator k₂ =>
        dsimp only
        have three : (upper.length - i₁ == 3) = ((upper.drop (i₁ + 2)).length == 1) := by
          rw [List.length_drop, Bool.beq_eq_decide_eq, Bool.beq_eq_decide_eq, decide_eq_decide]
          omega
        rw [later _ _ (by omega) lt lt', three, ← List.length_drop (l := lower)]
        exact ite_some_and _ _
    | compound c =>
      rw [item₁'] at next
      cases item₂' : lower[after] with
      | compound c' =>
        dsimp only
        rw [later _ _ (Nat.lt_succ_self i₁) lt.le lt'.le, next, next', item₂']
      | combinator k₂ =>
        dsimp only
        rw [later _ _ (Nat.lt_succ_self i₁) lt.le lt', next]
        exact ite_some_and _ _

/-- **Nothing is out of range**, wherever in the rows the walk goes on. -/
theorem walkFrom_eq {i₁ i₂ : Nat} (h₁ : i₁ ≤ upper.length) (h₂ : i₂ ≤ lower.length) :
    walkFrom cover upper lower i₁ i₂ = some (walk cover (upper.drop i₁) (lower.drop i₂)) := by
  induction distance : upper.length - i₁ using Nat.strong_induction_on generalizing i₁ i₂ with
  | _ distance ih =>
    by_cases step : i₁ + 1 < upper.length ∧ upper.length - i₁ ≤ lower.length - i₂ ∧
        ∃ c₁ c₂, upper[i₁]? = some (.compound c₁) ∧ lower[i₂]? = some (.compound c₂)
    · obtain ⟨lt, long, c₁, c₂, item₁, item₂⟩ := step
      exact walkFrom_step lt long item₁ item₂ fun j₁ j₂ lt h₁ h₂ => ih _ (by omega) h₁ h₂ rfl
    rw [walkFrom, difference?_eq h₁, difference?_eq h₂]
    simp only [Option.bind_eq_bind, Option.bind_some]
    split
    · rename_i short
      obtain ended | short := short
      · rw [List.drop_eq_nil_of_le ended, walk_nil]
        rfl
      · rw [walk_eq_false_of_length_lt (by simpa using short)]
        rfl
    · rename_i inside
      have lt₁ : i₁ < upper.length := by omega
      have lt₂ : i₂ < lower.length := by omega
      simp only [List.getElem?_eq_getElem lt₁, List.getElem?_eq_getElem lt₂,
        Option.bind_some] at step ⊢
      rw [List.drop_eq_getElem_cons lt₁, List.drop_eq_getElem_cons lt₂]
      cases item₁ : upper[i₁] with
      | combinator k =>
        rw [walk_combinator_left]
        rfl
      | compound c₁ =>
        cases item₂ : lower[i₂] with
        | combinator k =>
          rw [walk_combinator_right]
          rfl
        | compound c₂ =>
          have alone : upper.length ≤ i₁ + 1 := by
            by_contra more
            exact step ⟨by omega, by omega, c₁, c₂, congrArg some item₁, congrArg some item₂⟩
          dsimp only
          rw [if_pos (by omega), coversLastFrom_eq lt₂, List.drop_eq_nil_of_le alone,
            List.drop_eq_getElem_cons lt₂, item₂]
          simp [walk]

end Walk

/-- The relation between rows, by positions. -/
def rowCoversAt (cover : Compound → Compound → List Item → Bool) (upper lower : List Item) :
    Option Bool :=
  if upper.getLast?.any Item.isCompound && lower.getLast?.any Item.isCompound then
    walkFrom cover upper lower 0 0
  else some false

/-- **The relation between rows never looks outside them.** -/
theorem rowCoversAt_eq (cover : Compound → Compound → List Item → Bool) (upper lower : List Item) :
    rowCoversAt cover upper lower = some (rowCovers cover upper lower) := by
  rw [rowCoversAt, rowCovers, walkFrom_eq (Nat.zero_le _) (Nat.zero_le _), List.drop_zero,
    List.drop_zero]
  exact ite_some_and _ _

/-! ## Unifying -/

section Unify

variable {rows : List (List Item)} {base : Compound}

/-- The rows without their last items, and the last of them with another compound at its end. -/
def withBaseAt (base : Compound) (rows : List (List Item)) : Option (List (List Item)) := do
  let parents ← rows.mapM fun row => do slice? row 0 (← difference? row.length 1)
  return parents.dropLast ++ (parents.getLast?.map (· ++ [.compound base])).toList

/-- The rows that match what all of several rows match, unless nothing does. -/
def unifyRowsAt (rows : List (List Item)) : Option (Option (List (List Item))) :=
  match rows with
  | [row] => some (some [row])
  | rows =>
    match unifyBases rows with
    | none => some none
    | some base => (withBaseAt base rows).map (some ∘ weave)

theorem ne_nil_of_baseOfRow {row : List Item} {c : Compound} (h : baseOfRow row = some c) :
    row ≠ [] := by
  rintro rfl
  cases h

/-- Rows whose ends unify are not empty. -/
theorem ne_nil_of_unifyBases (h : unifyBases rows = some base) : ∀ row ∈ rows, row ≠ [] := by
  have later : ∀ {rows : List (List Item)} {found : Compound},
      rows.foldlM (fun found row => do Compound.unify (← baseOfRow row) found) found = some base →
      ∀ row ∈ rows, row ≠ [] := by
    intro rows
    induction rows with
    | nil => exact fun _ => List.forall_mem_nil _
    | cons row rows ih =>
      intro found h
      obtain ⟨next, hnext, h⟩ := Option.bind_eq_some_iff.1 h
      obtain ⟨c, hc, -⟩ := Option.bind_eq_some_iff.1 hnext
      exact List.forall_mem_cons.2 ⟨ne_nil_of_baseOfRow hc, ih h⟩
  cases rows with
  | nil => exact List.forall_mem_nil _
  | cons first rows =>
    obtain ⟨c, hc, h⟩ := Option.bind_eq_some_iff.1 h
    exact List.forall_mem_cons.2 ⟨ne_nil_of_baseOfRow hc, later h⟩

/-- Taking the last item off is in bounds for rows that are not empty. -/
theorem mapM_parents (h : ∀ row ∈ rows, row ≠ []) :
    (rows.mapM fun row => do slice? row 0 (← difference? row.length 1))
      = some (rows.map List.dropLast) := by
  induction rows with
  | nil => rfl
  | cons row rows ih =>
    rw [List.forall_mem_cons] at h
    have filled : 1 ≤ row.length := List.length_pos_iff.2 h.1
    have cut : slice? row 0 (row.length - 1) = some row.dropLast := by
      rw [slice?_eq (Nat.zero_le _) (Nat.sub_le _ _), List.drop_zero, List.dropLast_eq_take]
    rw [List.mapM_cons, ih h.2, difference?_eq filled]
    simp only [Option.bind_eq_bind, Option.bind_some, cut]
    rfl

/-- Putting the unified end in is in bounds. -/
theorem withBaseAt_eq (h : ∀ row ∈ rows, row ≠ []) :
    withBaseAt base rows = some (withBase base rows) := by
  rw [withBaseAt, mapM_parents h]
  rcases List.eq_nil_or_concat rows with rfl | ⟨before, last, rfl⟩
  · rfl
  · rw [List.concat_eq_append, withBase_concat]
    simp

/-- **Unifying cuts off last items that are there.** -/
theorem unifyRowsAt_eq (rows : List (List Item)) : unifyRowsAt rows = some (unifyRows rows) := by
  rcases rows with _ | ⟨row, _ | ⟨row', rows⟩⟩
  · rfl
  · rfl
  · unfold unifyRowsAt unifyRows unifyRowsWith
    dsimp only
    cases hbase : unifyBases (row :: row' :: rows) with
    | none => rfl
    | some base =>
      dsimp only
      rw [withBaseAt_eq (ne_nil_of_unifyBases hbase)]
      rfl

end Unify

end SelectorAlgebra
