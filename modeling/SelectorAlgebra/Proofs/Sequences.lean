import Mathlib.Data.List.Forall2
import SelectorAlgebra.Proofs.SubsequenceTable
import SelectorAlgebra.Sequence.Choices

/-!
# Proofs/Sequences — selections, common subsequences, and sequences laid into others

* `mem_selections` — the selections are the ways to pick one option from each choice;
  `head?_selections` — the first of them picks all first options.
* `forall_mem_commonSubsequence` — a common subsequence holds nothing but what stands for two
  compatible elements.
* `selections_map`, `commonSubsequence_map` — both go along with renaming the elements.

`List.SublistForall₂ R` says that a sequence is laid into another one in order, every element to one
that `R` allows.  It goes along with concatenation (`sublistForall₂_append`).
-/

namespace SelectorAlgebra

variable {α β γ : Type}

/-- A list of images is the image of a list. -/
theorem exists_map_eq {f : α → β} {P : α → Prop} : ∀ {l : List β},
    (∀ y ∈ l, ∃ x, P x ∧ f x = y) → ∃ xs : List α, (∀ x ∈ xs, P x) ∧ xs.map f = l
  | [], _ => ⟨[], by simp, rfl⟩
  | y :: l, h => by
    rw [List.forall_mem_cons] at h
    obtain ⟨⟨x, hx, rfl⟩, rest⟩ := h
    obtain ⟨xs, hxs, rfl⟩ := exists_map_eq rest
    exact ⟨x :: xs, List.forall_mem_cons.2 ⟨hx, hxs⟩, rfl⟩

theorem exists_mem_of_forall₂ {P : α → β → Prop} {xs : List α} {ys : List β}
    (h : List.Forall₂ P xs ys) {x : α} (mem : x ∈ xs) : ∃ y ∈ ys, P x y := by
  induction h with
  | nil => cases mem
  | @cons x' y xs ys hxy _ ih =>
    rcases List.mem_cons.1 mem with rfl | mem
    · exact ⟨y, List.mem_cons_self, hxy⟩
    · obtain ⟨y', hy', h⟩ := ih mem
      exact ⟨y', List.mem_cons_of_mem y hy', h⟩

/-- Pairs in relation, combined. -/
theorem forall₂_zipWith {P : α → β → Prop} {Q : α → γ → Prop} {f : α → β → γ} {xs : List α}
    {ys : List β} (h : List.Forall₂ P xs ys) (imp : ∀ x ∈ xs, ∀ y, P x y → Q x (f x y)) :
    List.Forall₂ Q xs (List.zipWith f xs ys) := by
  induction h with
  | nil => exact .nil
  | cons hxy _ ih =>
    rw [List.forall_mem_cons] at imp
    exact .cons (imp.1 _ hxy) (ih imp.2)

/-! ## Selections -/

/-- The selections that begin with what was picked before. -/
theorem mem_foldl_choices {choices picked : List (List α)} {selection : List α} :
    selection ∈ choices.foldl (fun picked choice => choice.flatMap fun o => picked.map (· ++ [o]))
      picked
      ↔ ∃ before ∈ picked, ∃ after, List.Forall₂ (· ∈ ·) after choices ∧
        selection = before ++ after := by
  induction choices generalizing picked with
  | nil => simp
  | cons choice choices ih =>
    rw [List.foldl_cons, ih]
    constructor
    · rintro ⟨before, hb, after, ha, rfl⟩
      obtain ⟨o, ho, hb⟩ := List.mem_flatMap.1 hb
      obtain ⟨start, hs, rfl⟩ := List.mem_map.1 hb
      exact ⟨start, hs, o :: after, .cons ho ha, by simp⟩
    · rintro ⟨before, hb, after, ha, rfl⟩
      cases ha with
      | @cons o _ after _ ho ha =>
        exact ⟨before ++ [o], List.mem_flatMap.2 ⟨o, ho, List.mem_map.2 ⟨before, hb, rfl⟩⟩, after,
          ha, by simp⟩

/-- A selection picks one member from each choice. -/
theorem mem_selections {choices : List (List α)} {selection : List α} :
    selection ∈ selections choices ↔ List.Forall₂ (· ∈ ·) selection choices := by
  rw [selections, mem_foldl_choices]
  simp

theorem forall_mem_of_mem_selections {choices : List (List α)} {selection : List α} {P : α → Prop}
    (h : ∀ choice ∈ choices, ∀ o ∈ choice, P o) (mem : selection ∈ selections choices) :
    ∀ o ∈ selection, P o := by
  intro o ho
  obtain ⟨choice, hchoice, ho⟩ := exists_mem_of_forall₂ (mem_selections.1 mem) ho
  exact h choice hchoice o ho

/-- If every choice has a good option, there is a selection of good ones. -/
theorem exists_mem_selections {P : α → Prop} {choices : List (List α)}
    (h : ∀ choice ∈ choices, ∃ o ∈ choice, P o) :
    ∃ selection ∈ selections choices, ∀ o ∈ selection, P o := by
  simp only [mem_selections]
  induction choices with
  | nil => exact ⟨[], .nil, by simp⟩
  | cons choice choices ih =>
    rw [List.forall_mem_cons] at h
    obtain ⟨⟨o, ho, hP⟩, h⟩ := h
    obtain ⟨selection, hs, good⟩ := ih h
    exact ⟨o :: selection, .cons ho hs, List.forall_mem_cons.2 ⟨hP, good⟩⟩

/-- Picking the first of each choice comes first, from any picked so far. -/
theorem head?_foldl_choices {choices : List (List α)} {firsts : List α} (picked : List (List α))
    (start : List α) (hp : picked.head? = some start)
    (h : List.Forall₂ (fun o choice => choice.head? = some o) firsts choices) :
    (choices.foldl (fun picked choice => choice.flatMap fun o => picked.map (· ++ [o]))
      picked).head? = some (start ++ firsts) := by
  induction h generalizing picked start with
  | nil => simpa using hp
  | @cons o choice firsts choices ho _ ih =>
    obtain ⟨choice, rfl⟩ := List.head?_eq_some_iff.1 ho
    obtain ⟨picked, rfl⟩ := List.head?_eq_some_iff.1 hp
    rw [List.foldl_cons, ih _ (start ++ [o]) (by simp), List.append_assoc]
    rfl

/-- The first selection picks the first option of every choice. -/
theorem head?_selections {choices : List (List α)} {firsts : List α}
    (h : List.Forall₂ (fun o choice => choice.head? = some o) firsts choices) :
    (selections choices).head? = some firsts :=
  head?_foldl_choices [[]] [] rfl h

/-- If every choice has one option, there is one selection. -/
theorem selections_singletons (l : List α) : selections (l.map ([·])) = [l] := by
  have onto : ∀ start : List α, (l.map ([·])).foldl
      (fun picked choice => choice.flatMap fun o => picked.map (· ++ [o])) [start]
      = [start ++ l] := by
    induction l with
    | nil => simp
    | cons o l ih =>
      intro start
      simpa using ih (start ++ [o])
  exact onto []

/-! ## Common subsequences -/

section CommonSubsequence

variable {select : α → β → Option γ} {P : γ → Prop}

/-- What the best subsequence has was selected. -/
theorem forall_mem_bestSubsequence {xs : List α} {ys : List β}
    (h : ∀ x ∈ xs, ∀ y ∈ ys, ∀ z, select x y = some z → P z) :
    ∀ z ∈ bestSubsequence select xs ys, P z := by
  induction xs, ys using bestSubsequence.induct with
  | case1 x xs y ys diagonal left above =>
    have tails : ∀ x' ∈ xs, ∀ y' ∈ ys, ∀ z, select x' y' = some z → P z :=
      fun x' hx y' hy => h x' (List.mem_cons_of_mem _ hx) y' (List.mem_cons_of_mem _ hy)
    rw [bestSubsequence]
    rcases subsequenceCell_cases select x y (bestSubsequence select xs ys)
      (bestSubsequence select (x :: xs) ys) (bestSubsequence select xs (y :: ys)) with
      ⟨z, selected, cell⟩ | ⟨-, cell | cell, -⟩
    · rw [cell]
      exact List.forall_mem_cons.2
        ⟨h x List.mem_cons_self y List.mem_cons_self z selected, diagonal tails⟩
    · rw [cell]
      exact left fun x' hx y' hy => h x' hx y' (List.mem_cons_of_mem _ hy)
    · rw [cell]
      exact above fun x' hx y' hy => h x' (List.mem_cons_of_mem _ hx) y' hy
  | case2 xs ys empty =>
    rw [bestSubsequence]
    · exact List.forall_mem_nil _
    · exact empty

/-- **Whatever stands in a common subsequence stands for two compatible elements.** -/
theorem forall_mem_commonSubsequence {xs : List α} {ys : List β}
    (h : ∀ x ∈ xs, ∀ y ∈ ys, ∀ z, select x y = some z → P z) :
    ∀ z ∈ commonSubsequence select xs ys, P z := by
  intro z hz
  rw [commonSubsequence_eq, List.mem_reverse] at hz
  refine forall_mem_bestSubsequence (fun x hx y hy => ?_) z hz
  exact h x (List.mem_reverse.1 hx) y (List.mem_reverse.1 hy)

end CommonSubsequence

/-! ## Sequences laid into others -/

section Laid

variable {R : α → α → Prop}

/-- Sequences are laid in part by part. -/
theorem sublistForall₂_append {a b c d : List α} (h : List.SublistForall₂ R a c)
    (h' : List.SublistForall₂ R b d) : List.SublistForall₂ R (a ++ b) (c ++ d) := by
  rw [List.sublistForall₂_iff] at h h' ⊢
  obtain ⟨l, hl, sub⟩ := h
  obtain ⟨l', hl', sub'⟩ := h'
  exact ⟨l ++ l', List.rel_append hl hl', sub.append sub'⟩

theorem sublistForall₂_append_right {a b : List α} (c : List α) (h : List.SublistForall₂ R a b) :
    List.SublistForall₂ R a (b ++ c) := by
  rw [← List.append_nil a]
  exact sublistForall₂_append h .nil

theorem sublistForall₂_append_left {a b : List α} (c : List α) (h : List.SublistForall₂ R a b) :
    List.SublistForall₂ R a (c ++ b) := by
  rw [← List.nil_append a]
  exact sublistForall₂_append .nil h

theorem sublistForall₂_of_cons {R : α → β → Prop} {x : α} {a : List α} {b : List β}
    (h : List.SublistForall₂ R (x :: a) b) : List.SublistForall₂ R a b := by
  rw [List.sublistForall₂_iff] at h ⊢
  obtain ⟨l, hl, sub⟩ := h
  cases hl with
  | cons _ hl => exact ⟨_, hl, (List.sublist_cons_self _ _).trans sub⟩

/-- What is laid in is no longer. -/
theorem length_le_of_sublistForall₂ {R : α → β → Prop} {a : List α} {b : List β}
    (h : List.SublistForall₂ R a b) : a.length ≤ b.length := by
  obtain ⟨l, hl, sub⟩ := List.sublistForall₂_iff.1 h
  exact hl.length_eq ▸ sub.length_le

end Laid

/-! ## Sequences of renamed elements -/

section Renamed

variable {α' β' γ' : Type} {f : α → α'} {g : β → β'} {h : γ → γ'}
  {select : α → β → Option γ} {select' : α' → β' → Option γ'}

/-- Selections commute with renaming. -/
theorem selections_map (f : α → α') (choices : List (List α)) :
    selections (choices.map (List.map f)) = (selections choices).map (List.map f) := by
  have onto : ∀ picked : List (List α),
      (choices.map (List.map f)).foldl
        (fun picked choice => choice.flatMap fun o => picked.map (· ++ [o]))
        (picked.map (List.map f))
      = (choices.foldl (fun picked choice => choice.flatMap fun o => picked.map (· ++ [o]))
        picked).map (List.map f) := by
    induction choices with
    | nil => exact fun _ => rfl
    | cons choice choices ih =>
      intro picked
      rw [List.map_cons, List.foldl_cons, List.foldl_cons, ← ih]
      simp [List.flatMap_map, List.map_flatMap, Function.comp_def]
  exact onto [[]]

theorem longerOf_map (left above : List γ) :
    longerOf (left.map h) (above.map h) = (longerOf left above).map h := by
  simp only [longerOf, List.length_map]
  split <;> rfl

variable (natural : ∀ x y, select' (f x) (g y) = (select x y).map h)

include natural

/-- One cell commutes with renaming, when selecting does. -/
theorem subsequenceCell_map (x : α) (y : β) (diagonal left above : List γ) :
    subsequenceCell select' (f x) (g y) (diagonal.map h) (left.map h) (above.map h)
      = (subsequenceCell select x y diagonal left above).map h := by
  rw [subsequenceCell, natural, subsequenceCell]
  cases select x y with
  | none => exact longerOf_map left above
  | some z => rfl

/-- So does the whole recursion. -/
theorem bestSubsequence_map (xs : List α) (ys : List β) :
    bestSubsequence select' (xs.map f) (ys.map g) = (bestSubsequence select xs ys).map h := by
  induction xs, ys using bestSubsequence.induct with
  | case1 x xs y ys diagonal left above =>
    rw [List.map_cons] at left above
    rw [List.map_cons, List.map_cons, bestSubsequence, diagonal, left, above,
      subsequenceCell_map natural, ← bestSubsequence]
  | case2 xs ys empty =>
    have ended : bestSubsequence select xs ys = [] := by
      rw [bestSubsequence]
      exact empty
    rw [ended, List.map_nil]
    rcases xs with _ | ⟨x, xs⟩
    · exact nil_bestSubsequence _
    rcases ys with _ | ⟨y, ys⟩
    · exact bestSubsequence_nil _
    · exact (empty x xs y ys rfl rfl).elim

/-- A common subsequence of renamed elements, if what stands for two is renamed with them. -/
theorem commonSubsequence_map (xs : List α) (ys : List β) :
    commonSubsequence select' (xs.map f) (ys.map g) = (commonSubsequence select xs ys).map h := by
  rw [commonSubsequence_eq, commonSubsequence_eq, ← List.map_reverse, ← List.map_reverse,
    bestSubsequence_map natural, List.map_reverse]

end Renamed

end SelectorAlgebra
