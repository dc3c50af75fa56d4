import Mathlib
import SelectorAlgebra.Proofs.Occurrence
import SelectorAlgebra.Proofs.WholeResults

/-!
# Proofs/NestedOrder — choices without `&` go inside the parent, parent by parent

    c, d  under  e, f   ↦   e c, e d, f c, f d

A rule that does not name its parent has one choice for each pair of a parent and a choice of
its own, parents outermost (`resolveParents_of_isParentFree`).  So nesting is associative: it
does not matter whether a rule in a rule in a rule is resolved from the inside or from the
outside (`nesting_order`).

The resolutions of the choices are rows that take turns.  The engine is that such rows transpose a
table, whatever its size (`roundRobin_table`).
-/

namespace SelectorAlgebra

/-! ## Selectors that do not name their parent -/

/-- The selector `&` occurs nowhere in the list, at any depth. -/
def SelectorList.IsParentFree (l : SelectorList) : Prop := ∀ suffix, ¬ OccursIn (.parent suffix) l

/-- The executable test for `&` at any depth. -/
theorem SelectorList.containsParent_iff {l : SelectorList} :
    l.containsParent = true ↔ ∃ suffix, OccursIn (.parent suffix) l := by
  rw [SelectorList.containsParent, List.any_eq_true]
  constructor
  · rintro ⟨s, hs, isParent⟩
    cases s with
    | parent suffix => exact ⟨suffix, mem_simples_iff.1 hs⟩
    | _ => cases isParent
  · rintro ⟨suffix, occurs⟩
    exact ⟨_, mem_simples_iff.2 occurs, rfl⟩

theorem SelectorList.isParentFree_iff {l : SelectorList} :
    l.IsParentFree ↔ l.containsParent = false := by
  rw [IsParentFree, ← not_exists, ← containsParent_iff, Bool.not_eq_true]

theorem SelectorList.containsParent_eq_any (l : SelectorList) :
    l.containsParent = l.any Complex.containsParent := by
  rw [SelectorList.containsParent, SelectorList.simples, simplesOfList_eq_flatMap, List.any_flatMap]
  rfl

/-- A list is free of `&` if each of its choices is. -/
theorem SelectorList.isParentFree_iff_forall {l : SelectorList} :
    l.IsParentFree ↔ ∀ c ∈ l, c.containsParent = false := by
  rw [isParentFree_iff, containsParent_eq_any, List.any_eq_false]
  simp only [Bool.not_eq_true]

theorem simplesOfItems_append (row row' : List Item) :
    simplesOfItems (row ++ row') = simplesOfItems row ++ simplesOfItems row' := by
  induction row with
  | nil => rfl
  | cons item row ih =>
    cases item with
    | compound c => simp only [List.cons_append, simplesOfItems, ih, List.append_assoc]
    | combinator k => simp only [List.cons_append, simplesOfItems, ih]

/-! ## Nesting without `&` -/

/-- The selector inside a parent. -/
def Complex.under (c parent : Complex) : Complex :=
  ⟨parent.items ++ c.items, parent.lineBreak || c.lineBreak⟩

/-- Putting a selector under a parent brings in only the parent's `&`. -/
theorem Complex.containsParent_under (c parent : Complex) :
    (c.under parent).containsParent = (parent.containsParent || c.containsParent) := by
  rw [containsParent, Complex.simples, under, simplesOfItems_append, List.any_append]
  rfl

/-- **Nesting is associative**, line breaks included. -/
theorem Complex.under_under (c parent grandparent : Complex) :
    (c.under parent).under grandparent = c.under (parent.under grandparent) := by
  simp only [under, List.append_assoc, Bool.or_assoc]

section Nested

variable {l parent : SelectorList}

/-- Lists without `&` nest to one without. -/
theorem SelectorList.isParentFree_under (hl : l.IsParentFree) (hp : parent.IsParentFree) :
    SelectorList.IsParentFree (parent.flatMap fun p => l.map fun c => c.under p) := by
  rw [isParentFree_iff_forall] at hl hp ⊢
  intro d hd
  obtain ⟨p, hmem, hd⟩ := List.mem_flatMap.1 hd
  obtain ⟨c, hc, rfl⟩ := List.mem_map.1 hd
  rw [Complex.containsParent_under, hp p hmem, hl c hc]
  rfl

/-- **Choices without `&` go inside each parent**, parents outermost. -/
theorem resolveParents_of_isParentFree (free : l.IsParentFree) (parent : SelectorList) :
    l.resolveParents (some parent) true
      = .ok (parent.flatMap fun p => l.map fun c => c.under p) := by
  rw [SelectorList.isParentFree_iff_forall] at free
  have each : ∀ c ∈ l, resolveComplex (resolveWithin l.nesting parent false) parent true c
      = .ok (parent.map fun p => c.under p) := by
    intro c hc
    rw [resolveComplex, free c hc]
    simp only [Bool.false_eq_true, if_false, if_true, Complex.under, Bool.or_comm c.lineBreak]
  rw [SelectorList.resolveParents, resolveWithin, mapM_ok each]
  exact congrArg Except.ok (roundRobin_table (fun p c => c.under p) parent l)

end Nested

/-- **The choices of a rule without `&` stand parent by parent**, each the items of the parent and
then its own, with a line break if either has one.  So resolving a rule under the resolution of its
parent is resolving its resolution under the grandparent. -/
theorem nesting_order {l : SelectorList} (hl : l.IsParentFree) (parent : SelectorList) :
    l.resolveParents (some parent) true = .ok (parent.flatMap fun p => l.map fun c =>
      ⟨p.items ++ c.items, p.lineBreak || c.lineBreak⟩) ∧
    (parent.IsParentFree → ∀ grandparent : SelectorList, ∃ inner outer result,
      l.resolveParents (some parent) true = .ok inner ∧
      parent.resolveParents (some grandparent) true = .ok outer ∧
      l.resolveParents (some outer) true = .ok result ∧
      inner.resolveParents (some grandparent) true = .ok result) := by
  refine ⟨resolveParents_of_isParentFree hl parent, fun hp grandparent => ?_⟩
  refine ⟨_, _, _, resolveParents_of_isParentFree hl parent,
    resolveParents_of_isParentFree hp grandparent, resolveParents_of_isParentFree hl _, ?_⟩
  rw [resolveParents_of_isParentFree (SelectorList.isParentFree_under hl hp)]
  simp only [List.flatMap_assoc, List.flatMap_map, List.map_flatMap, List.map_map,
    Function.comp_def, Complex.under_under]

/-- The rule `.c, :not(.d)` in `.e >, .f` in `.g`, with a line break before `.f`. -/
theorem nesting_order_three :
    let l : SelectorList := [.ofCompound [.className "c"],
      .ofCompound [.pseudo (.around "not" [.ofCompound [.className "d"]])]]
    let parent : SelectorList := [⟨[.compound [.className "e"], .combinator .child], false⟩,
      ⟨[.compound [.className "f"]], true⟩]
    let grandparent : SelectorList := [.ofCompound [.className "g"]]
    l.IsParentFree ∧ parent.IsParentFree ∧ ∃ inner outer result,
      l.resolveParents (some parent) true = .ok inner ∧
      inner.map Complex.text = [".e > .c", ".e > :not(.d)", ".f .c", ".f :not(.d)"] ∧
      inner.map Complex.lineBreak = [false, false, true, true] ∧
      parent.resolveParents (some grandparent) true = .ok outer ∧
      l.resolveParents (some outer) true = .ok result ∧
      inner.resolveParents (some grandparent) true = .ok result := by
  intro l parent grandparent
  have hl : l.IsParentFree := SelectorList.isParentFree_iff.2 (by decide +kernel)
  have hp : parent.IsParentFree := SelectorList.isParentFree_iff.2 (by decide +kernel)
  obtain ⟨closed, assoc⟩ := nesting_order hl parent
  obtain ⟨inner, outer, result, hinner, houter, hresult, same⟩ := assoc hp grandparent
  obtain rfl := Except.ok.inj (closed.symm.trans hinner)
  exact ⟨hl, hp, _, outer, result, hinner, by decide +kernel, by decide +kernel, houter, hresult,
    same⟩

end SelectorAlgebra
