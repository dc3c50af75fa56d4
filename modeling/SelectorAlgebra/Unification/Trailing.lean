import SelectorAlgebra.Sequence.CommonSubsequence
import SelectorAlgebra.Superselector.Basic
import SelectorAlgebra.Unification.Compound

/-!
# Unification/Trailing — merging what stands before two trailing combinators

Two rows that end in combinators are the parents of one element, so a compound before a trailing
combinator is bound to that element and cannot be moved freely.  `mergeTrailing` takes these
compounds off both rows, from the right, and gives for each place the alternatives that may stand
there:

    .a ~   .b ~     .a ~ .b ~   or  .b ~ .a ~   or  .a.b ~
    .a ~   .b +     .a ~ .b +   or  .a.b +
    .a >   .b ~     .b ~, with .a > still to come before it
    .a >   .b >     .a.b >
    .a >   none     .a >

Rows are kept with the last item first here.  Each step makes the two rows shorter together, even
where one gets its pair back (`TrailingStep.shorter`).
-/

namespace SelectorAlgebra

/-- The longer of two rows of combinators if the other is a subsequence of it; the second one if
they are the same. -/
def mergeCombinators (ks₁ ks₂ : List Combinator) : Option (List Combinator) :=
  let common := commonSubsequence (fun a b => if a = b then some a else none) ks₁ ks₂
  if common = ks₁ then some ks₂
  else if common = ks₂ then some ks₁
  else none

/-- A compound and the combinator after it, as items. -/
def pairItems (c : Compound) (k : Combinator) : List Item := [.compound c, .combinator k]

/-- The alternatives for one place, and what is to be put back on either row, last item first. -/
structure PairMerge where
  choice : List (List Item)
  back₁ : List Item
  back₂ : List Item

/-- Two compounds before `~`: either order, or both at once. -/
def mergeFollowing (c₁ c₂ : Compound) : List (List Item) :=
  if c₁.isSuperselector c₂ then [pairItems c₂ .followingSibling]
  else if c₂.isSuperselector c₁ then [pairItems c₁ .followingSibling]
  else
    [pairItems c₁ .followingSibling ++ pairItems c₂ .followingSibling,
     pairItems c₂ .followingSibling ++ pairItems c₁ .followingSibling] ++
      ((Compound.unify c₁ c₂).map (pairItems · .followingSibling)).toList

/-- A compound before `~` and one before `+`: the first comes earlier, or both at once. -/
def mergeFollowingNext (following next : Compound) : List (List Item) :=
  if following.isSuperselector next then [pairItems next .nextSibling]
  else
    [pairItems following .followingSibling ++ pairItems next .nextSibling] ++
      ((Compound.unify following next).map (pairItems · .nextSibling)).toList

/-- The alternatives for a compound and combinator at the end of each row. -/
def mergePair (c₁ : Compound) (k₁ : Combinator) (c₂ : Compound) (k₂ : Combinator) :
    Option PairMerge :=
  match k₁, k₂ with
  | .followingSibling, .followingSibling => some ⟨mergeFollowing c₁ c₂, [], []⟩
  | .followingSibling, .nextSibling => some ⟨mergeFollowingNext c₁ c₂, [], []⟩
  | .nextSibling, .followingSibling => some ⟨mergeFollowingNext c₂ c₁, [], []⟩
  | .child, .nextSibling | .child, .followingSibling =>
    some ⟨[pairItems c₂ k₂], (pairItems c₁ k₁).reverse, []⟩
  | .nextSibling, .child | .followingSibling, .child =>
    some ⟨[pairItems c₁ k₁], [], (pairItems c₂ k₂).reverse⟩
  | .child, .child | .nextSibling, .nextSibling =>
    (Compound.unify c₁ c₂).map fun c => ⟨[pairItems c k₁], [], []⟩

/-- The row without its last compound `c'` if that only repeats what `c >` asks of the parent. -/
def dropImplied (c : Compound) (k : Combinator) : List Item → List Item
  | .compound c' :: rest =>
    if k = .child && Compound.isSuperselector c' c then rest else .compound c' :: rest
  | row => row

/-- What one look at the ends of two rows leads to. -/
inductive TrailingStep where
  /-- Neither row ends in a combinator. -/
  | finished
  /-- The ends contradict each other. -/
  | refused
  /-- The alternatives for the last place that is looked at, and the rows before it. -/
  | last (choice : List (List Item)) (rest₁ rest₂ : List Item)
  /-- The alternatives for one place, and the rows before it. -/
  | next (choice : List (List Item)) (rest₁ rest₂ : List Item)

/-- The combinators at the end of a row, last one first. -/
def endCombinators (row : List Item) : List Combinator :=
  (row.takeWhile Item.isCombinator).filterMap Item.combinator?

/-- The row before the combinators at its end. -/
def beforeCombinators (row : List Item) : List Item := row.dropWhile Item.isCombinator

/-- One look at the ends of two rows.  Several combinators in a row are kept as they are if one row
of them contains the other, and end the search. -/
def trailingStep (row₁ row₂ : List Item) : TrailingStep :=
  match endCombinators row₁, endCombinators row₂ with
  | [], [] => .finished
  | [k₁], [k₂] =>
    match beforeCombinators row₁, beforeCombinators row₂ with
    | .compound c₁ :: rest₁, .compound c₂ :: rest₂ =>
      match mergePair c₁ k₁ c₂ k₂ with
      | some m => .next m.choice (m.back₁ ++ rest₁) (m.back₂ ++ rest₂)
      | none => .refused
    | _, _ => .refused
  | [k₁], [] =>
    match beforeCombinators row₁ with
    | .compound c₁ :: rest₁ => .next [pairItems c₁ k₁] rest₁ (dropImplied c₁ k₁ row₂)
    | _ => .refused
  | [], [k₂] =>
    match beforeCombinators row₂ with
    | .compound c₂ :: rest₂ => .next [pairItems c₂ k₂] (dropImplied c₂ k₂ row₁) rest₂
    | _ => .refused
  | ks₁, ks₂ =>
    match mergeCombinators ks₁ ks₂ with
    | some kept =>
      .last [kept.reverse.map .combinator] (beforeCombinators row₁) (beforeCombinators row₂)
    | none => .refused

/-! ## The steps come to an end -/

theorem length_endCombinators_add_le (row : List Item) :
    (endCombinators row).length + (beforeCombinators row).length ≤ row.length := by
  have taken := List.length_filterMap_le Item.combinator? (row.takeWhile Item.isCombinator)
  have split := congrArg List.length
    (List.takeWhile_append_dropWhile (p := Item.isCombinator) (l := row))
  simp only [List.length_append] at split
  unfold endCombinators beforeCombinators
  omega

theorem length_dropImplied_le (c : Compound) (k : Combinator) (row : List Item) :
    (dropImplied c k row).length ≤ row.length := by
  unfold dropImplied
  split
  · split <;> simp
  · exact Nat.le_refl _

theorem mergePair_back {c₁ c₂ : Compound} {k₁ k₂ : Combinator} {m : PairMerge}
    (h : mergePair c₁ k₁ c₂ k₂ = some m) : m.back₁.length + m.back₂.length ≤ 2 := by
  cases k₁ <;> cases k₂ <;> simp only [mergePair, Option.some.injEq, Option.map_eq_some_iff] at h
  all_goals first
    | (subst h; simp [pairItems])
    | (obtain ⟨c, -, rfl⟩ := h; simp)

/-- Each step leaves the two rows shorter together. -/
theorem TrailingStep.shorter {row₁ row₂ rest₁ rest₂ : List Item} {choice : List (List Item)}
    (h : trailingStep row₁ row₂ = .next choice rest₁ rest₂) :
    rest₁.length + rest₂.length < row₁.length + row₂.length := by
  have len₁ := length_endCombinators_add_le row₁
  have len₂ := length_endCombinators_add_le row₂
  unfold trailingStep at h
  split at h
  · cases h
  · rename_i k₁ k₂ e₁ e₂
    split at h
    · rename_i c₁ r₁ c₂ r₂ b₁ b₂
      split at h
      · rename_i m hm
        cases h
        have back := mergePair_back hm
        simp only [e₁, e₂, b₁, b₂, List.length_cons, List.length_nil] at len₁ len₂
        simp only [List.length_append]
        omega
      · cases h
    · cases h
  · rename_i k₁ e₁ e₂
    split at h
    · rename_i c₁ r₁ b₁
      cases h
      have kept := length_dropImplied_le c₁ k₁ row₂
      simp only [e₁, b₁, List.length_cons, List.length_nil] at len₁
      omega
    · cases h
  · rename_i k₂ e₁ e₂
    split at h
    · rename_i c₂ r₂ b₂
      cases h
      have kept := length_dropImplied_le c₂ k₂ row₁
      simp only [e₂, b₂, List.length_cons, List.length_nil] at len₂
      omega
    · cases h
  · split at h <;> cases h

/-- The choices at the end of two rows, in the order they stand, and what is left of the rows.
Everything is added in front of the choices already `found`. -/
def mergeTrailingOnto (found : List (List (List Item))) (row₁ row₂ : List Item) :
    Option (List (List (List Item)) × List Item × List Item) :=
  match _step : trailingStep row₁ row₂ with
  | .finished => some (found, row₁, row₂)
  | .refused => none
  | .last choice rest₁ rest₂ => some (choice :: found, rest₁, rest₂)
  | .next choice rest₁ rest₂ => mergeTrailingOnto (choice :: found) rest₁ rest₂
termination_by row₁.length + row₂.length
decreasing_by exact TrailingStep.shorter _step

/-- The choices at the end of two rows, in the order they stand, and what is left of the rows. -/
def mergeTrailing (row₁ row₂ : List Item) :
    Option (List (List (List Item)) × List Item × List Item) :=
  (mergeTrailingOnto [] row₁.reverse row₂.reverse).map fun (choices, rest₁, rest₂) =>
    (choices, rest₁.reverse, rest₂.reverse)

end SelectorAlgebra
