import Mathlib
import SelectorAlgebra.Proofs.ClassCompounds
import SelectorAlgebra.Proofs.Document
import SelectorAlgebra.Proofs.Sequences

/-!
# Proofs/JoinedPairs — two pairs of compounds joined by combinators unify exactly

* `unify_joined_exact` — what unifying `p k₁ x` and `q k₂ y` gives, for compounds of classes,
  matches the elements that both match, and no others.

What a pair asks of an element is that some element before it, at the pair's combinator, meets the
pair's first compound (`Document.Before`).  The pairs of combinators then come down to four laws of
documents: an element has one parent and one neighbour before it, its siblings have the same parent,
and two siblings before it are one, or stand in one of two orders.
-/

namespace SelectorAlgebra

/-! ## The element before -/

namespace Document

variable {doc : Document} {e : Address} {P Q : Address → Prop}

/-- Some element to which this one stands as the combinator asks is of a kind. -/
def Before (k : Combinator) (P : Address → Prop) (e : Address) : Prop :=
  ∃ e', Joint.Holds (some k) e' e ∧ P e'

theorem Before.imp {k : Combinator} (h : ∀ e, P e → Q e) : Before k P e → Before k Q e :=
  Exists.imp fun e' => And.imp_right (h e')

/-- The sibling right before is one of those before. -/
theorem Before.followingSibling (h : Before .nextSibling P e) : Before .followingSibling P e := by
  obtain ⟨_, ⟨i, place, rfl, rfl⟩, hP⟩ := h
  exact ⟨_, ⟨i, i + 1, place, rfl, rfl, Nat.lt_succ_self i⟩, hP⟩

/-- An element has one parent, and one neighbour before it. -/
theorem before_and {k : Combinator} (single : k ≠ .followingSibling) :
    Before k P e ∧ Before k Q e ↔ Before k (fun e' => P e' ∧ Q e') e := by
  refine ⟨?_, fun h => ⟨h.imp fun _ => And.left, h.imp fun _ => And.right⟩⟩
  rintro ⟨⟨e₁, h₁, hP⟩, e₂, h₂, hQ⟩
  suffices same : e₁ = e₂ from ⟨e₁, h₁, hP, same ▸ hQ⟩
  cases k with
  | child =>
    obtain ⟨i, rfl⟩ := h₁
    obtain ⟨j, h⟩ := h₂
    exact (List.cons.inj h).2
  | nextSibling =>
    obtain ⟨i, place, rfl, rfl⟩ := h₁
    obtain ⟨j, place', rfl, h⟩ := h₂
    obtain ⟨next, rfl⟩ := List.cons.inj h
    rw [Nat.succ.inj next]
  | followingSibling => exact absurd rfl single

/-- Siblings have the same parent. -/
theorem before_child_and {k : Combinator} (sibling : k ≠ .child) :
    Before .child P e ∧ Before k Q e ↔ Before k (fun e' => Q e' ∧ Before .child P e') e := by
  have same : ∀ {e' parent : Address}, Joint.Holds (some k) e' e →
      (Joint.Holds (some .child) parent e ↔ Joint.Holds (some .child) parent e') := by
    intro e' parent h
    cases k with
    | child => exact absurd rfl sibling
    | nextSibling =>
      obtain ⟨i, place, rfl, rfl⟩ := h
      simp [Joint.Holds]
    | followingSibling =>
      obtain ⟨i, j, place, rfl, rfl, -⟩ := h
      simp [Joint.Holds]
  constructor
  · rintro ⟨⟨parent, above, hP⟩, e', h, hQ⟩
    exact ⟨e', h, hQ, parent, (same h).1 above, hP⟩
  · rintro ⟨e', h, hQ, parent, above, hP⟩
    exact ⟨⟨parent, (same h).2 above, hP⟩, e', h, hQ⟩

/-- Two siblings before an element are one, or either of them comes first. -/
theorem before_following_and :
    Before .followingSibling P e ∧ Before .followingSibling Q e ↔
      Before .followingSibling (fun e' => Q e' ∧ Before .followingSibling P e') e ∨
        Before .followingSibling (fun e' => P e' ∧ Before .followingSibling Q e') e ∨
        Before .followingSibling (fun e' => P e' ∧ Q e') e := by
  constructor
  · rintro ⟨⟨_, ⟨i, n, place, rfl, rfl, hi⟩, hP⟩, _, ⟨j, n', place', rfl, h, hj⟩, hQ⟩
    obtain ⟨rfl, rfl⟩ := List.cons.inj h
    rcases lt_trichotomy i j with order | rfl | order
    · exact .inl ⟨_, ⟨j, n, place, rfl, rfl, hj⟩, hQ, _, ⟨i, j, place, rfl, rfl, order⟩, hP⟩
    · exact .inr (.inr ⟨_, ⟨i, n, place, rfl, rfl, hi⟩, hP, hQ⟩)
    · exact .inr (.inl ⟨_, ⟨i, n, place, rfl, rfl, hi⟩, hP, _, ⟨j, i, place, rfl, rfl, order⟩, hQ⟩)
  · have earlier : ∀ {P : Address → Prop} {e' : Address},
        Joint.Holds (some .followingSibling) e' e →
        Before .followingSibling P e' → Before .followingSibling P e := by
      rintro P _ ⟨i, n, place, rfl, rfl, hi⟩ ⟨_, ⟨j, i', place', rfl, h, hj⟩, hP⟩
      obtain ⟨rfl, rfl⟩ := List.cons.inj h
      exact ⟨_, ⟨j, n, place, rfl, rfl, hj.trans hi⟩, hP⟩
    rintro (⟨e', h, hQ, hP⟩ | ⟨e', h, hP, hQ⟩ | ⟨e', h, hP, hQ⟩)
    · exact ⟨earlier h hP, e', h, hQ⟩
    · exact ⟨⟨e', h, hP⟩, earlier h hQ⟩
    · exact ⟨⟨e', h, hP⟩, e', h, hQ⟩

/-- A sibling before an element is its neighbour, or comes before that. -/
theorem before_following_and_next :
    Before .followingSibling P e ∧ Before .nextSibling Q e ↔
      Before .nextSibling (fun e' => Q e' ∧ Before .followingSibling P e') e ∨
        Before .nextSibling (fun e' => P e' ∧ Q e') e := by
  constructor
  · rintro ⟨⟨_, ⟨i, n, place, rfl, rfl, hi⟩, hP⟩, _, ⟨j, place', rfl, h⟩, hQ⟩
    obtain ⟨rfl, rfl⟩ := List.cons.inj h
    rcases (Nat.le_of_lt_succ hi).lt_or_eq with order | rfl
    · exact .inl ⟨_, ⟨j, place, rfl, rfl⟩, hQ, _, ⟨i, j, place, rfl, rfl, order⟩, hP⟩
    · exact .inr ⟨_, ⟨i, place, rfl, rfl⟩, hP, hQ⟩
  · rintro (⟨_, ⟨j, place, rfl, rfl⟩, hQ, _, ⟨i, j', place', rfl, h, order⟩, hP⟩ |
      ⟨_, ⟨j, place, rfl, rfl⟩, hP, hQ⟩)
    · obtain ⟨rfl, rfl⟩ := List.cons.inj h
      exact ⟨⟨_, ⟨i, j + 1, place, rfl, rfl, order.trans (Nat.lt_succ_self j)⟩, hP⟩,
        _, ⟨j, place, rfl, rfl⟩, hQ⟩
    · exact ⟨⟨_, ⟨j, j + 1, place, rfl, rfl, Nat.lt_succ_self j⟩, hP⟩, _, ⟨j, place, rfl, rfl⟩, hQ⟩

/-! ## Pairs -/

/-- An element that meets a compound stands behind the pair. -/
abbrev Behind (doc : Document) (c : Compound) (k : Combinator) (e : Address) : Prop :=
  Before k (doc.Meets · c) e

/-- A pair and an end match where the end is met and the pair stands behind. -/
theorem matches_pair {c b : Compound} {k : Combinator} :
    doc.Matches (pairItems c k ++ [.compound b]) e ↔ doc.Behind c k e ∧ doc.Meets e b := by
  show doc.Matches (rowOf c [⟨some k, b⟩]) e ↔ _
  rw [matches_rowOf]
  simp only [Trail, Behind, Before]
  constructor
  · rintro ⟨start, hc, next, hj, hb, rfl⟩
    exact ⟨⟨start, hj, hc⟩, hb⟩
  · rintro ⟨⟨start, hj, hc⟩, hb⟩
    exact ⟨start, hc, e, hj, hb, rfl⟩

/-- Two pairs are read from the end. -/
theorem matches_two_pairs {c d b : Compound} {k l : Combinator} :
    doc.Matches (pairItems c k ++ pairItems d l ++ [.compound b]) e ↔
      Before l (fun e' => doc.Meets e' d ∧ doc.Behind c k e') e ∧ doc.Meets e b := by
  show doc.Matches (rowOf c [⟨some k, d⟩, ⟨some l, b⟩]) e ↔ _
  rw [matches_rowOf]
  simp only [Trail, Behind, Before]
  constructor
  · rintro ⟨start, hc, mid, hj, hd, next, hj', hb, rfl⟩
    exact ⟨⟨mid, hj', hd, start, hj, hc⟩, hb⟩
  · rintro ⟨⟨mid, hj', hd, start, hj, hc⟩, hb⟩
    exact ⟨start, hc, mid, hj, hd, e, hj', hb, rfl⟩

/-! ## Compounds of classes -/

variable {p q : List String}

theorem meets_join : doc.Meets e (classes (p.foldl addDistinct q)) ↔
    doc.Meets e (classes p) ∧ doc.Meets e (classes q) := by
  simp only [Meets, classes, List.forall_mem_map, mem_foldl_addDistinct]
  constructor
  · rintro ⟨he, h⟩
    exact ⟨⟨he, fun name hn => h name (.inr hn)⟩, he, fun name hn => h name (.inl hn)⟩
  · rintro ⟨⟨he, hp⟩, -, hq⟩
    exact ⟨he, fun name hn => hn.elim (hq name) (hp name)⟩

/-- The relation between compounds of classes is sound for elements. -/
theorem meets_of_isSuperselector (h : Compound.isSuperselector (classes p) (classes q) = true)
    (hq : doc.Meets e (classes q)) : doc.Meets e (classes p) := by
  have part : ∀ name ∈ p, name ∈ q := by
    rw [Compound.isSuperselector, covers_eq_all (isSelfContained_classes _)
      (isSelfContained_classes _)] at h
    simpa [classes] using h
  exact ⟨hq.1, List.forall_mem_map.2 fun name hn => List.forall_mem_map.1 hq.2 name (part name hn)⟩

end Document

/-! ## The alternatives for a place -/

/-- In front of any compound, the rows match what stands behind both pairs. -/
def StandFor (rows : List (List Item)) (c₁ : Compound) (k₁ : Combinator) (c₂ : Compound)
    (k₂ : Combinator) : Prop :=
  ∀ (doc : Document) (e : Address) (b : Compound),
    (∃ row ∈ rows, doc.Matches (row ++ [.compound b]) e) ↔
      (doc.Behind c₁ k₁ e ∧ doc.Behind c₂ k₂ e) ∧ doc.Meets e b

section

variable {p q : List String}

open Document

theorem StandFor.symm {rows : List (List Item)} {c₁ c₂ : Compound} {k₁ k₂ : Combinator}
    (h : StandFor rows c₁ k₁ c₂ k₂) : StandFor rows c₂ k₂ c₁ k₁ := by
  intro doc e b
  rw [h doc e b, and_comm (a := doc.Behind c₁ k₁ e)]

theorem standFor_pair {c₁ c₂ c : Compound} {k₁ k₂ k : Combinator}
    (h : ∀ (doc : Document) (e : Address), doc.Behind c k e ↔ doc.Behind c₁ k₁ e ∧
      doc.Behind c₂ k₂ e) :
    StandFor [pairItems c k] c₁ k₁ c₂ k₂ := by
  intro doc e b
  rw [List.exists_mem_cons_iff, matches_pair, h]
  simp

/-- Two `~` at one place: either may be the nearer, or one element is both. -/
theorem mergeFollowing_standFor : StandFor (mergeFollowing (classes p) (classes q))
    (classes p) .followingSibling (classes q) .followingSibling := by
  unfold mergeFollowing
  split
  · rename_i above
    exact standFor_pair fun doc e => (and_iff_right_of_imp
      (Before.imp fun _ => meets_of_isSuperselector above)).symm
  split
  · rename_i above
    exact standFor_pair fun doc e => (and_iff_left_of_imp
      (Before.imp fun _ => meets_of_isSuperselector above)).symm
  · intro doc e b
    rw [unify_classes, before_following_and, or_and_right, or_and_right]
    simp only [Option.map_some, Option.toList_some, List.cons_append, List.nil_append,
      List.exists_mem_cons_iff, List.not_mem_nil, false_and, exists_false, or_false,
      matches_two_pairs, matches_pair, Behind, meets_join]

/-- `~` and `+` at one place: the first may be further off, or the same element. -/
theorem mergeFollowingNext_standFor : StandFor (mergeFollowingNext (classes p) (classes q))
    (classes p) .followingSibling (classes q) .nextSibling := by
  unfold mergeFollowingNext
  split
  · rename_i above
    exact standFor_pair fun doc e => (and_iff_right_of_imp fun h =>
      (h.imp fun _ => meets_of_isSuperselector above).followingSibling).symm
  · intro doc e b
    rw [unify_classes, before_following_and_next, or_and_right]
    simp only [Option.map_some, Option.toList_some, List.cons_append, List.nil_append,
      List.exists_mem_cons_iff, List.not_mem_nil, false_and, exists_false, or_false,
      matches_two_pairs, matches_pair, Behind, meets_join]

/-- Elsewhere two pairs with the same combinator ask one element for both compounds. -/
theorem standFor_same {k : Combinator} (single : k ≠ .followingSibling) :
    StandFor [pairItems (classes (p.foldl addDistinct q)) k] (classes p) k (classes q) k :=
  standFor_pair fun doc e => by
    rw [before_and single]
    simp only [Behind, meets_join]

/-- A parent and a sibling are different elements, and the parent is common to siblings. -/
theorem standFor_child {c₁ c₂ : Compound} {k : Combinator} (sibling : k ≠ .child) :
    StandFor [pairItems c₁ .child ++ pairItems c₂ k] c₁ .child c₂ k := by
  intro doc e b
  rw [List.exists_mem_cons_iff, matches_two_pairs, before_child_and sibling]
  simp

/-! ## Weaving the pairs -/

theorem mergeTrailingOnto_next {found : List (List (List Item))} {row₁ row₂ rest₁ rest₂ : List Item}
    {choice : List (List Item)} (h : trailingStep row₁ row₂ = .next choice rest₁ rest₂) :
    mergeTrailingOnto found row₁ row₂ = mergeTrailingOnto (choice :: found) rest₁ rest₂ := by
  rw [mergeTrailingOnto, h]

theorem mergeTrailingOnto_nil (found : List (List (List Item))) :
    mergeTrailingOnto found [] [] = some (found, [], []) := by
  have finished : trailingStep [] [] = .finished := rfl
  rw [mergeTrailingOnto, finished]

theorem mergeTrailing_pairs {c₁ c₂ : Compound} {k₁ k₂ : Combinator} {choice : List (List Item)}
    (h : mergePair c₁ k₁ c₂ k₂ = some ⟨choice, [], []⟩) :
    mergeTrailing (pairItems c₁ k₁) (pairItems c₂ k₂) = some ([choice], [], []) := by
  have step : trailingStep (pairItems c₁ k₁).reverse (pairItems c₂ k₂).reverse
      = .next choice [] [] := by
    have ends : ∀ (c : Compound) (k : Combinator), endCombinators (pairItems c k).reverse = [k] :=
      fun _ _ => rfl
    have starts : ∀ (c : Compound) (k : Combinator),
        beforeCombinators (pairItems c k).reverse = [.compound c] := fun _ _ => rfl
    simp only [trailingStep, ends, starts, h, List.append_nil]
  rw [mergeTrailing, mergeTrailingOnto_next step, mergeTrailingOnto_nil]
  rfl

/-- A pair before `>` goes in front of one before a sibling combinator. -/
theorem mergeTrailing_child {c₁ c₂ : Compound} {k₂ : Combinator} (sibling : k₂ ≠ .child) :
    mergeTrailing (pairItems c₁ .child) (pairItems c₂ k₂)
      = some ([[pairItems c₁ .child], [pairItems c₂ k₂]], [], []) := by
  have step : trailingStep (pairItems c₁ .child).reverse (pairItems c₂ k₂).reverse
      = .next [pairItems c₂ k₂] (pairItems c₁ .child).reverse [] := by
    cases k₂ with
    | child => exact absurd rfl sibling
    | nextSibling => rfl
    | followingSibling => rfl
  have step' : trailingStep (pairItems c₁ .child).reverse [] = .next [pairItems c₁ .child] [] [] :=
    rfl
  rw [mergeTrailing, mergeTrailingOnto_next step, mergeTrailingOnto_next step',
    mergeTrailingOnto_nil]
  rfl

/-- With `>` on one side only, the sibling stands nearer. -/
theorem child_mergeTrailing {c₁ c₂ : Compound} {k₁ : Combinator} (sibling : k₁ ≠ .child) :
    mergeTrailing (pairItems c₁ k₁) (pairItems c₂ .child)
      = some ([[pairItems c₂ .child], [pairItems c₁ k₁]], [], []) := by
  have step : trailingStep (pairItems c₁ k₁).reverse (pairItems c₂ .child).reverse
      = .next [pairItems c₁ k₁] [] (pairItems c₂ .child).reverse := by
    cases k₁ with
    | child => exact absurd rfl sibling
    | nextSibling => rfl
    | followingSibling => rfl
  have step' : trailingStep [] (pairItems c₂ .child).reverse = .next [pairItems c₂ .child] [] [] :=
    rfl
  rw [mergeTrailing, mergeTrailingOnto_next step, mergeTrailingOnto_next step',
    mergeTrailingOnto_nil]
  rfl

/-- Nothing but the trailing choices is left to weave. -/
theorem weaveParents_pairs {c₁ c₂ : Compound} {k₁ k₂ : Combinator}
    {choices : List (List (List Item))}
    (h : mergeTrailing (pairItems c₁ k₁) (pairItems c₂ k₂) = some (choices, [], [])) :
    weaveParents (pairItems c₁ k₁) (pairItems c₂ k₂)
      = some (rowsOfChoices ([[]] :: [] :: choices)) := by
  have start : ∀ (c : Compound) (k : Combinator), startCombinators (pairItems c k) = [] ∧
      (pairItems c k).dropWhile Item.isCombinator = pairItems c k := fun _ _ => ⟨rfl, rfl⟩
  rw [weaveParents, weaveParentsWithin, (start c₁ k₁).1, (start c₁ k₁).2, (start c₂ k₂).1,
    (start c₂ k₂).2, h]
  rfl

/-- Where there is one choice, weaving gives exactly its alternatives. -/
theorem weaveParents_of_mergePair {c₁ c₂ : Compound} {k₁ k₂ : Combinator}
    {choice : List (List Item)} (h : mergePair c₁ k₁ c₂ k₂ = some ⟨choice, [], []⟩)
    (filled : choice ≠ []) :
    weaveParents (pairItems c₁ k₁) (pairItems c₂ k₂) = some choice := by
  have rows : rowsOfChoices [[[]], [], choice] = choice := by
    simp [rowsOfChoices, selections, filled, ← List.map_eq_flatMap, Function.comp_def]
  rw [weaveParents_pairs (mergeTrailing_pairs h), rows]

theorem mergeFollowing_ne_nil (c₁ c₂ : Compound) : mergeFollowing c₁ c₂ ≠ [] := by
  unfold mergeFollowing
  split
  · simp
  split <;> simp

theorem mergeFollowingNext_ne_nil (c₁ c₂ : Compound) : mergeFollowingNext c₁ c₂ ≠ [] := by
  unfold mergeFollowingNext
  split <;> simp

/-- **Weaving two pairs gives all that stands behind both.** -/
theorem weaveParents_standFor (p q : List String) (k₁ k₂ : Combinator) :
    ∃ rows, weaveParents (pairItems (classes p) k₁) (pairItems (classes q) k₂) = some rows ∧
      rows ≠ [] ∧ StandFor rows (classes p) k₁ (classes q) k₂ := by
  have same : ∀ {k : Combinator}, k ≠ .followingSibling →
      mergePair (classes p) k (classes q) k
        = (Compound.unify (classes p) (classes q)).map (fun c => ⟨[pairItems c k], [], []⟩) →
      ∃ rows, weaveParents (pairItems (classes p) k) (pairItems (classes q) k) = some rows ∧
        rows ≠ [] ∧ StandFor rows (classes p) k (classes q) k := by
    intro k single h
    rw [unify_classes] at h
    exact ⟨_, weaveParents_of_mergePair h (List.cons_ne_nil _ _), List.cons_ne_nil _ _,
      standFor_same single⟩
  have sibling : Combinator.nextSibling ≠ .child ∧ Combinator.followingSibling ≠ .child := by decide
  cases k₁ with
  | child =>
    cases k₂ with
    | child => exact same (by decide) rfl
    | nextSibling =>
      exact ⟨_, weaveParents_pairs (mergeTrailing_child sibling.1), List.cons_ne_nil _ _,
        standFor_child sibling.1⟩
    | followingSibling => exact ⟨_, weaveParents_pairs (mergeTrailing_child sibling.2),
        List.cons_ne_nil _ _, standFor_child sibling.2⟩
  | nextSibling =>
    cases k₂ with
    | child => exact ⟨_, weaveParents_pairs (child_mergeTrailing sibling.1), List.cons_ne_nil _ _,
        (standFor_child sibling.1).symm⟩
    | nextSibling => exact same (by decide) rfl
    | followingSibling =>
      have next := mergeFollowingNext_ne_nil (classes q) (classes p)
      exact ⟨_, weaveParents_of_mergePair rfl next, next, mergeFollowingNext_standFor.symm⟩
  | followingSibling =>
    cases k₂ with
    | child => exact ⟨_, weaveParents_pairs (child_mergeTrailing sibling.2), List.cons_ne_nil _ _,
        (standFor_child sibling.2).symm⟩
    | nextSibling =>
      have next := mergeFollowingNext_ne_nil (classes p) (classes q)
      exact ⟨_, weaveParents_of_mergePair rfl next, next, mergeFollowingNext_standFor⟩
    | followingSibling =>
      have filled := mergeFollowing_ne_nil (classes p) (classes q)
      exact ⟨_, weaveParents_of_mergePair rfl filled, filled, mergeFollowing_standFor⟩

end

/-! ## Unifying the pairs -/

/-- A compound, and another one joined to it by a combinator. -/
def joinedRow (c : Compound) (k : Combinator) (b : Compound) : List Item :=
  pairItems c k ++ [.compound b]

/-- The ends are unified, and each alternative is put before them. -/
theorem unifyRows_joined {c₁ c₂ b₁ b₂ b : Compound} {k₁ k₂ : Combinator} {rows : List (List Item)}
    (base : Compound.unify b₂ b₁ = some b)
    (h : weaveParents (pairItems c₁ k₁) (pairItems c₂ k₂) = some rows) :
    unifyRows [joinedRow c₁ k₁ b₁, joinedRow c₂ k₂ b₂] = some (rows.map (· ++ [.compound b])) := by
  have bases : unifyBases [joinedRow c₁ k₁ b₁, joinedRow c₂ k₂ b₂] = some b := by
    simp [unifyBases, joinedRow, baseOfRow, Item.compound?, base]
  show (unifyBases _).map _ = _
  rw [bases]
  show some ([pairItems c₁ k₁].flatMap fun before =>
    ((weaveParents before (pairItems c₂ k₂)).getD []).map (· ++ [.compound b])) = _
  rw [List.flatMap_singleton, h]
  rfl

/-- Unification of selectors drops only empty rows. -/
theorem Complex.unify_of_unifyRows {c₁ c₂ : Complex} {rows : List (List Item)}
    (h : unifyRows [c₁.items, c₂.items] = some rows) (nonempty : rows ≠ [])
    (filled : ∀ row ∈ rows, row ≠ []) :
    c₁.unify c₂ = some (rows.map (⟨·, false⟩)) := by
  have kept : rows.filter (!·.isEmpty) = rows :=
    List.filter_eq_self.2 fun row hr => by simp [filled row hr]
  rw [Complex.unify, h]
  simp only [kept]

/-- **Two pairs joined by combinators unify to exactly what both match.** -/
theorem unify_joined_exact (p x q y : List String) (k₁ k₂ : Combinator)
    (lineBreak₁ lineBreak₂ : Bool) :
    ∃ rs, Complex.unify ⟨joinedRow (classes p) k₁ (classes x), lineBreak₁⟩
        ⟨joinedRow (classes q) k₂ (classes y), lineBreak₂⟩ = some rs ∧
      ∀ (doc : Document) (e : Address),
        doc.Matches (joinedRow (classes p) k₁ (classes x)) e ∧
          doc.Matches (joinedRow (classes q) k₂ (classes y)) e ↔
        ∃ r ∈ rs, doc.Matches r.items e := by
  obtain ⟨rows, woven, filled, exact⟩ := weaveParents_standFor p q k₁ k₂
  refine ⟨_, Complex.unify_of_unifyRows (unifyRows_joined (unify_classes y x) woven)
    (by simpa using filled) (by simp), fun doc e => ?_⟩
  calc
    _ ↔ (doc.Behind (classes p) k₁ e ∧ doc.Behind (classes q) k₂ e) ∧
        doc.Meets e (classes (y.foldl addDistinct x)) := by
      rw [joinedRow, joinedRow, Document.matches_pair, Document.matches_pair, and_and_and_comm,
        Document.meets_join, and_comm (a := doc.Meets e (classes y))]
    _ ↔ ∃ row ∈ rows, doc.Matches (row ++ [.compound (classes (y.foldl addDistinct x))]) e :=
      (exact doc e _).symm
    _ ↔ _ := by simp

end SelectorAlgebra
