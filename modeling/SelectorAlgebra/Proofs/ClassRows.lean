import Mathlib
import SelectorAlgebra.Proofs.ClassCompounds
import SelectorAlgebra.Proofs.Interleaving
import SelectorAlgebra.Proofs.LongestSubsequence

/-!
# Proofs/ClassRows — unifying rows of compounds of classes

A row of compounds of classes is a sequence of sets of names.  Two of them always unify, and the
rows that come out are known (`exists_unifyRows_classRows`): the parents stand in an order in which
they are `Woven` around the parents that are shared, and the last compound has the names of both.

Between two shared parents, what is left of either side stays together, so there are two orders for
each gap.  Which parents are shared is a common subsequence of the two sides, one parent standing
for another if either has all the names of the other (`sharedParents`).

One row is above another exactly if it can be laid into it (`itemsSuperselector_classRows`).
-/

namespace SelectorAlgebra

/-! ## Rows of sets of names -/

/-- The row of the compounds of classes with the given names. -/
def classRows (ps : List (List String)) : List Item := (ps.map classes).map .compound

theorem classRows_append (ps qs : List (List String)) :
    classRows (ps ++ qs) = classRows ps ++ classRows qs := by
  simp [classRows]

theorem isPlain_classes (names : List String) : Compound.IsPlain (classes names) := by
  intro s hs
  obtain ⟨name, -, rfl⟩ := List.mem_map.1 hs
  rfl

/-- Rows of classes are plain, so the theory of plain rows applies. -/
theorem arePlain_classes (ps : List (List String)) : ArePlain (ps.map classes) :=
  List.forall_mem_map.2 fun names _ => isPlain_classes names

theorem partOf_classes {p q : List String} : Compound.PartOf (classes p) (classes q) ↔ p ⊆ q := by
  simp only [Compound.PartOf, classes, List.forall_mem_map]
  rw [← classes]
  simp [List.subset_def]

/-- One row is laid into another when its sets fit into a subsequence of the other's. -/
theorem laid_classes {ps qs : List (List String)} :
    Laid (ps.map classes) (qs.map classes) ↔ List.SublistForall₂ (· ⊆ ·) ps qs := by
  rw [Laid, List.sublistForall₂_map_left_iff, List.sublistForall₂_map_right_iff]
  simp only [partOf_classes]

/-! ## One row above another -/

/-- **One row of compounds of classes is above another exactly if it can be laid into it.** -/
theorem itemsSuperselector_classRows {ps qs : List (List String)} {x y : List String} :
    itemsSuperselector (classRows (ps ++ [x])) (classRows (qs ++ [y])) = true ↔
      List.SublistForall₂ (· ⊆ ·) ps qs ∧ x ⊆ y := by
  have rows : ∀ (ps : List (List String)) (x : List String),
      classRows (ps ++ [x]) = (ps.map classes ++ [classes x]).map .compound := by
    simp [classRows]
  have plain : ∀ (ps : List (List String)) (x : List String),
      ArePlain (ps.map classes ++ [classes x]) := by
    intro ps x
    simpa using arePlain_classes (ps ++ [x])
  rw [rows, rows, itemsSuperselector_iff_laid (plain ps x) (plain qs y), laid_classes,
    partOf_classes]

/-! ## Shared parents -/

/-- The larger of two sets of names, if either contains the other. -/
def largerNames (p q : List String) : Option (List String) :=
  if p ⊆ q then some q else if q ⊆ p then some p else none

/-- The parents that stand for one of each side when the second row is woven into the first. -/
def sharedParents (ps qs : List (List String)) : List (List String) :=
  commonSubsequence largerNames qs ps

/-- One parent is above another when its names are among the other's. -/
theorem parentSuperselector_classes (p q : List String) :
    parentSuperselector [.compound (classes p)] [.compound (classes q)] = decide (p ⊆ q) := by
  rw [Bool.eq_iff_iff, decide_eq_true_iff, ← partOf_classes]
  refine ⟨partOf_of_parentSuperselector (isPlain_classes p) (isPlain_classes q), fun part => ?_⟩
  have plain : ∀ names : List String, ArePlain ([classes names] ++ [unmentioned]) := fun names =>
    List.forall_mem_cons.2 ⟨isPlain_classes names,
      List.forall_mem_singleton.2 (List.forall_mem_singleton.2 rfl)⟩
  have above := itemsSuperselector_of_laid (plain p) (plain q) (.cons part .nil)
    (Std.Refl.refl unmentioned)
  simpa [parentSuperselector, Item.isCombinator] using above

/-- Classes are never unique, so no two groups must unify. -/
theorem mustUnify_classes (p q : List String) :
    mustUnify [.compound (classes p)] [.compound (classes q)] = false := by
  have empty : ∀ names : List String, uniqueConditions [.compound (classes names)] = [] := by
    intro names
    simp [uniqueConditions, Item.compound?, classes, List.filter_eq_nil_iff, Simple.isUnique,
      Simple.isId, Simple.isPseudoElement]
  simp [mustUnify, empty]

/-- Two parents have the larger set in common, if one contains the other. -/
theorem commonGroup_classes {unify : List Item → List Item → Option (List (List Item))}
    (p q : List String) :
    commonGroup unify [.compound (classes p)] [.compound (classes q)]
      = (largerNames p q).map fun names => [.compound (classes names)] := by
  have same : equivItems [.compound (classes p)] [.compound (classes q)] = true → p = q := by
    intro h
    simpa using classNames_congr (isClassCompound_ofCompound p) (isClassCompound_ofCompound q) h
  rw [commonGroup, mustUnify_classes, parentSuperselector_classes, parentSuperselector_classes,
    largerNames]
  by_cases equiv : equivItems [.compound (classes p)] [.compound (classes q)] = true
  · rw [if_pos equiv, same equiv, if_pos (List.Subset.refl q)]
    rfl
  · rw [if_neg equiv]
    by_cases hpq : p ⊆ q
    · simp [hpq, Item.isCompound]
    · by_cases hqp : q ⊆ p
      · simp [hpq, hqp, Item.isCompound]
      · simp [hpq, hqp, Item.isCompound]

/-- The common groups of two rows of parents are a common subsequence of their sets of names. -/
theorem commonSubsequence_classes {unify : List Item → List Item → Option (List (List Item))}
    (ps qs : List (List String)) :
    commonSubsequence (commonGroup unify) (singletons (qs.map classes))
      (singletons (ps.map classes))
      = singletons ((sharedParents ps qs).map classes) := by
  simp only [singletons, List.map_map, sharedParents]
  exact commonSubsequence_map commonGroup_classes qs ps

/-! ## Orders of the parents -/

/-- The parents before the first one that is shared. -/
def upTo (shared : List String) (ps : List (List String)) : List (List String) :=
  ps.takeWhile fun p => !decide (p ⊆ shared)

/-- The parents after the first one that is shared. -/
def past (shared : List String) (ps : List (List String)) : List (List String) :=
  (ps.dropWhile fun p => !decide (p ⊆ shared)).tail

/-- The orders in which the parents of two sides may stand around those they share. -/
def Woven : List (List String) → List (List String) → List (List String) → List (List String) → Prop
  | [], ps, qs, row => row = ps ++ qs ∨ row = qs ++ ps
  | shared :: common, ps, qs, row => ∃ run rest,
      (run = upTo shared ps ++ upTo shared qs ∨ run = upTo shared qs ++ upTo shared ps) ∧
        Woven common (past shared ps) (past shared qs) rest ∧ row = run ++ shared :: rest

theorem mem_rowsOfChoices_cons_iff {choice : List (List Item)} {choices : List (List (List Item))}
    {row : List Item} (filled : choice ≠ []) :
    row ∈ rowsOfChoices (choice :: choices) ↔
      ∃ option ∈ choice, ∃ rest ∈ rowsOfChoices choices, row = option ++ rest := by
  constructor
  · intro h
    rcases mem_rowsOfChoices_cons h with ⟨empty, -⟩ | h
    · exact absurd empty filled
    · exact h
  · rintro ⟨option, ho, rest, hr, rfl⟩
    obtain ⟨selection, hs, rfl⟩ := List.mem_map.1 hr
    rw [rowsOfChoices, List.filter_cons_of_pos (by simpa using filled)]
    exact List.mem_map.2 ⟨option :: selection, mem_selections.2 (.cons ho (mem_selections.1 hs)),
      rfl⟩

theorem mem_runOrders_classes {ps qs : List (List String)} (filled : ps ≠ [] ∨ qs ≠ [])
    {row : List Item} :
    row ∈ runOrders (singletons (ps.map classes)) (singletons (qs.map classes)) ↔
      row = classRows (ps ++ qs) ∨ row = classRows (qs ++ ps) := by
  have flat : ∀ ps : List (List String), (singletons (ps.map classes)).flatten = classRows ps :=
    fun ps => flatten_singletons _
  rcases ps with _ | ⟨p, ps⟩ <;> rcases qs with _ | ⟨q, qs⟩
  · simp at filled
  · show row ∈ [(singletons ((q :: qs).map classes)).flatten] ↔ _
    rw [flat, List.mem_singleton, List.nil_append, List.append_nil, or_self]
  · show row ∈ [(singletons ((p :: ps).map classes)).flatten] ↔ _
    rw [flat, List.mem_singleton, List.nil_append, List.append_nil, or_self]
  · show row ∈ [(singletons ((p :: ps).map classes) ++ singletons ((q :: qs).map classes)).flatten,
      (singletons ((q :: qs).map classes) ++ singletons ((p :: ps).map classes)).flatten] ↔ _
    rw [List.flatten_append, List.flatten_append, flat, flat, ← classRows_append,
      ← classRows_append, List.mem_pair]

/-- Two runs, in either order, in front of a choice. -/
theorem mem_rowsOfChoices_runOrders {ps qs : List (List String)} {choices : List (List (List Item))}
    {row : List Item} :
    row ∈ rowsOfChoices
      (runOrders (singletons (ps.map classes)) (singletons (qs.map classes)) :: choices) ↔
      ∃ run, (run = ps ++ qs ∨ run = qs ++ ps) ∧ ∃ rest ∈ rowsOfChoices choices,
        row = classRows run ++ rest := by
  by_cases filled : ps ≠ [] ∨ qs ≠ []
  · have ordered : runOrders (singletons (ps.map classes)) (singletons (qs.map classes)) ≠ [] :=
      fun empty => not_and_or.2 filled (by simpa using runOrders_eq_nil empty)
    rw [mem_rowsOfChoices_cons_iff ordered]
    simp only [mem_runOrders_classes filled]
    constructor
    · rintro ⟨option, rfl | rfl, h⟩
      · exact ⟨_, .inl rfl, h⟩
      · exact ⟨_, .inr rfl, h⟩
    · rintro ⟨run, rfl | rfl, h⟩
      · exact ⟨_, .inl rfl, h⟩
      · exact ⟨_, .inr rfl, h⟩
  · obtain ⟨rfl, rfl⟩ : ps = [] ∧ qs = [] := by simpa using filled
    have skipped : rowsOfChoices
        (runOrders (singletons ([].map classes)) (singletons ([].map classes)) :: choices)
        = rowsOfChoices choices := rfl
    rw [skipped]
    simp [classRows]

/-- **Interleaving gives the orders around the common parents.** -/
theorem mem_rowsOfChoices_interleave : ∀ {common ps qs : List (List String)} {row : List Item},
    row ∈ rowsOfChoices (interleave (singletons (common.map classes)) (singletons (ps.map classes))
        (singletons (qs.map classes))) ↔ ∃ ns, Woven common ps qs ns ∧ row = classRows ns
  | [], ps, qs, row => by
    have empty : ∀ rest, rest ∈ rowsOfChoices [] ↔ rest = [] := fun rest => List.mem_singleton
    show row ∈ rowsOfChoices [runOrders _ _] ↔ _
    simp only [mem_rowsOfChoices_runOrders, empty, exists_eq_left, List.append_nil, Woven]
  | shared :: common, ps, qs, row => by
    have cut : ∀ ps : List (List String),
        ((singletons (ps.map classes)).takeWhile fun g =>
          !parentSuperselector g [.compound (classes shared)])
          = singletons ((upTo shared ps).map classes) ∧
        ((singletons (ps.map classes)).dropWhile fun g =>
          !parentSuperselector g [.compound (classes shared)]).tail
          = singletons ((past shared ps).map classes) := by
      intro ps
      simp only [singletons, List.map_map, List.takeWhile_map, List.dropWhile_map, ← List.map_tail,
        Function.comp_def, parentSuperselector_classes, upTo, past, and_self]
    rw [List.map_cons, singletons, List.map_cons, ← singletons, interleave, (cut ps).1, (cut ps).2,
      (cut qs).1, (cut qs).2, mem_rowsOfChoices_runOrders]
    simp only [mem_rowsOfChoices_cons_iff (List.cons_ne_nil _ _), List.mem_singleton,
      exists_eq_left, mem_rowsOfChoices_interleave, Woven]
    constructor
    · rintro ⟨run, order, _, ⟨_, ⟨ns, woven, rfl⟩, rfl⟩, rfl⟩
      exact ⟨_, ⟨run, ns, order, woven, rfl⟩, by rw [classRows_append]; rfl⟩
    · rintro ⟨_, ⟨run, ns, order, woven, rfl⟩, rfl⟩
      exact ⟨run, order, _, ⟨_, ⟨ns, woven, rfl⟩, rfl⟩, by rw [classRows_append]; rfl⟩

/-! ## Unifying two rows -/

/-- Rows of parents weave to exactly the rows that `Woven` describes. -/
theorem exists_weaveParents_classes (ps qs : List (List String)) :
    ∃ rows, weaveParents (classRows ps) (classRows qs) = some rows ∧
      ∀ row, row ∈ rows ↔ ∃ ns, Woven (sharedParents ps qs) ps qs ns ∧ row = classRows ns := by
  have woven : weaveParents (classRows ps) (classRows qs)
      = some (rowsOfChoices ([[]] :: interleave (singletons ((sharedParents ps qs).map classes))
          (singletons (ps.map classes)) (singletons (qs.map classes)))) := by
    rw [weaveParents, classRows, classRows,
      weaveParentsWithin_plain (arePlain_classes ps) (arePlain_classes qs),
      commonSubsequence_classes]
  refine ⟨_, woven, fun row => ?_⟩
  rw [mem_rowsOfChoices_cons_iff (List.cons_ne_nil _ _)]
  simp [mem_rowsOfChoices_interleave]

/-- **Two rows of compounds of classes unify to the orders in which their parents may stand.** -/
theorem exists_unifyRows_classRows (ps qs : List (List String)) (x y : List String) :
    ∃ rows, unifyRows [classRows (ps ++ [x]), classRows (qs ++ [y])] = some rows ∧
      ∀ row, row ∈ rows ↔ ∃ ns, Woven (sharedParents ps qs) ps qs ns ∧
        row = classRows (ns ++ [y.foldl addDistinct x]) := by
  have last : ∀ (ps : List (List String)) (x : List String),
      classRows (ps ++ [x]) = classRows ps ++ [.compound (classes x)] :=
    fun ps x => classRows_append ps [x]
  have base : unifyBases [classRows (ps ++ [x]), classRows (qs ++ [y])]
      = some (classes (y.foldl addDistinct x)) := by
    simp [unifyBases, baseOfRow, last, Item.compound?, unify_classes]
  have unified : unifyRows [classRows (ps ++ [x]), classRows (qs ++ [y])]
      = some (weaveRow weaveParents [classRows ps]
        (classRows (qs ++ [y.foldl addDistinct x]))) := by
    show (unifyBases _).map _ = _
    rw [base]
    simp [weaveWith, withBase, last]
  refine ⟨_, unified, fun row => ?_⟩
  rw [last qs]
  cases qs with
  | nil =>
    have empty : sharedParents ps [] = [] := by
      rw [sharedParents, commonSubsequence_eq, List.reverse_nil, nil_bestSubsequence,
        List.reverse_nil]
    simp [weaveRow, classRows, empty, Woven]
  | cons q qs =>
    obtain ⟨rows, woven, mem⟩ := exists_weaveParents_classes ps (q :: qs)
    have rowsOf : weaveRow weaveParents [classRows ps]
        (classRows (q :: qs) ++ [.compound (classes (y.foldl addDistinct x))])
        = rows.map (· ++ [.compound (classes (y.foldl addDistinct x))]) := by
      rw [weaveRow, List.getLast?_concat, List.dropLast_concat]
      show ([classRows ps].flatMap fun before =>
        ((weaveParents before (classRows (q :: qs))).getD []).map _) = _
      rw [List.flatMap_singleton, woven]
      rfl
    rw [rowsOf]
    simp only [List.mem_map, mem, last]
    constructor
    · rintro ⟨_, ⟨ns, order, rfl⟩, rfl⟩
      exact ⟨ns, order, rfl⟩
    · rintro ⟨ns, order, rfl⟩
      exact ⟨_, ⟨ns, order, rfl⟩, rfl⟩

end SelectorAlgebra
