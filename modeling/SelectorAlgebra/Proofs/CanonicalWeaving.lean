import Mathlib
import SelectorAlgebra.Proofs.CanonicalCover
import SelectorAlgebra.Proofs.Sequences

/-!
# Proofs/CanonicalWeaving — unifying and weaving canonical forms

* `Compound.unify_canonical` — canonical compounds unify to the canonical form of what the compounds
  unify to.
* `weave_canonical`, `unifyRows_canonical` — the same for rows, woven or unified.

One equation for each operation, in the order of the definitions: the operation on canonical forms
gives the canonical form of what it gives.
-/

namespace SelectorAlgebra

/-! ## Two compounds -/

/-- An element condition has no argument to normalize. -/
theorem Simple.canonical_ofElementName (ns : Option Namespace) (name : Option String) :
    (ofElementName ns name).canonical = ofElementName ns name := by
  cases name <;> rfl

/-- What two element conditions unify to is already canonical. -/
theorem Simple.canonical_of_unifyElement {s₁ s₂ s : Simple} (h : s₁.unifyElement s₂ = some s) :
    s.canonical = s := by
  simp only [unifyElement, Option.bind_eq_bind, Option.bind_eq_some_iff] at h
  obtain ⟨_, -, _, -, ns, -, name, -, found⟩ := h
  exact Option.some.inj found ▸ canonical_ofElementName ns name

/-- Unifying element conditions reads their names and namespaces only. -/
theorem Simple.unifyElement_canonical (s₁ s₂ : Simple) :
    s₁.unifyElement s₂.canonical = s₁.unifyElement s₂ := by
  rw [unifyElement, elementName?_canonical, unifyElement]

/-- An element name in front of canonical conditions. -/
theorem unifyElement_cons_canonical (s₁ s₂ : Simple) (rest : Compound) :
    (s₁.unifyElement s₂.canonical).map (· :: rest.map Simple.canonical)
      = ((s₁.unifyElement s₂).map (· :: rest)).map (List.map Simple.canonical) := by
  rw [Simple.unifyElement_canonical]
  cases h : s₁.unifyElement s₂ with
  | none => rfl
  | some s => simp [Simple.canonical_of_unifyElement h]

/-- Unifying with `*` changes the first condition or stands before it. -/
theorem unifyUniversal_canonical (ns : Option Namespace) (c : Compound) :
    unifyUniversal ns (c.map Simple.canonical)
      = (unifyUniversal ns c).map (List.map Simple.canonical) := by
  cases c with
  | nil => rfl
  | cons first rest =>
    have element := unifyElement_cons_canonical (.universal ns) first rest
    simp only [List.map_cons, unifyUniversal, Simple.isUniversalOrType_canonical,
      Simple.isHostLike_canonical, List.isEmpty_map, element]
    split_ifs <;> rfl

/-- Unifying with a type changes the first condition or stands before it. -/
theorem unifyType_canonical (name : QualifiedName) (c : Compound) :
    unifyType name (c.map Simple.canonical)
      = (unifyType name c).map (List.map Simple.canonical) := by
  cases c with
  | nil => rfl
  | cons first rest =>
    have element := unifyElement_cons_canonical (.type name) first rest
    simp only [List.map_cons, unifyType, Simple.isUniversalOrType_canonical, element]
    split_ifs <;> rfl

@[simp] theorem Compound.hasPseudoElement_canonical (c : Compound) :
    Compound.hasPseudoElement (c.map Simple.canonical) = c.hasPseudoElement := by
  simp [hasPseudoElement, Function.comp_def]

/-- A pseudo goes before the pseudo-element, which is found at the same place. -/
theorem insertPseudo_canonical (p : Pseudo) (c : Compound) :
    insertPseudo p.canonical (c.map Simple.canonical)
      = (insertPseudo p c).map (List.map Simple.canonical) := by
  have known := contains_map_canonical c (.pseudo p)
  rw [Simple.canonical_pseudo] at known
  have inserted : (c.map Simple.canonical).flatMap
      (fun s => if s.isPseudoElement then [.pseudo p.canonical, s] else [s])
      = (c.flatMap fun s => if s.isPseudoElement then [.pseudo p, s] else [s]).map
        Simple.canonical := by
    rw [List.flatMap_map, List.map_flatMap]
    refine List.flatMap_congr fun s _ => ?_
    simp only [Simple.isPseudoElement_canonical]
    split <;> simp
  simp only [insertPseudo, known, Compound.hasPseudoElement_canonical, Pseudo.isElement_canonical,
    inserted]
  split_ifs <;> simp

/-- `:host` unifies with the same compounds. -/
theorem unifyHost_canonical (p : Pseudo) (c : Compound) :
    unifyHost p.canonical (c.map Simple.canonical)
      = (unifyHost p c).map (List.map Simple.canonical) := by
  simp only [unifyHost, List.all_map, Function.comp_def, Simple.standsWithHost_canonical,
    insertPseudo_canonical, apply_ite (Option.map (List.map Simple.canonical)), Option.map_none]

/-- The special cases for a compound of one condition. -/
theorem unifyWithLone_canonical (s : Simple) (c : Compound) :
    unifyWithLone s.canonical (c.map Simple.canonical)
      = (unifyWithLone s c).map (Option.map (List.map Simple.canonical)) := by
  rcases c with _ | ⟨first, _ | _⟩
  · rfl
  · cases first with
    | universal ns => exact congrArg some (unifyUniversal_canonical ns [s])
    | pseudo p =>
      have host := unifyHost_canonical p [s]
      simp only [List.map_cons, List.map_nil] at host
      simp only [List.map_cons, List.map_nil, Simple.canonical_pseudo, unifyWithLone,
        Pseudo.isHost_canonical, Pseudo.isHostContext_canonical, host]
      split_ifs <;> rfl
    | _ => rfl
  · cases first <;> simp [unifyWithLone]

/-- Any other condition goes before the first pseudo. -/
theorem insertBeforePseudos_canonical (s : Simple) (c : Compound) :
    insertBeforePseudos s.canonical (c.map Simple.canonical)
      = (insertBeforePseudos s c).map Simple.canonical := by
  simp only [insertBeforePseudos, contains_map_canonical, List.takeWhile_map, List.dropWhile_map,
    Function.comp_def, Simple.isPseudo_canonical]
  split_ifs <;> simp

/-- The general case: insertion unless the condition is there already. -/
theorem unifyOrdinary_canonical (s : Simple) (c : Compound) :
    unifyOrdinary s.canonical (c.map Simple.canonical)
      = (unifyOrdinary s c).map (List.map Simple.canonical) := by
  rw [unifyOrdinary, unifyWithLone_canonical, unifyOrdinary]
  cases unifyWithLone s c with
  | none => exact congrArg some (insertBeforePseudos_canonical s c)
  | some result => rfl

/-- One condition unifies with a compound the same way in canonical form. -/
theorem Simple.unify_canonical (s : Simple) (c : Compound) :
    s.canonical.unify (c.map canonical) = (s.unify c).map (List.map canonical) := by
  have ordinary := unifyOrdinary_canonical s c
  cases s with
  | universal ns => exact unifyUniversal_canonical ns c
  | type name => exact unifyType_canonical name c
  | idName name =>
    have other : ((c.map canonical).any fun t => t.isId && t != .idName name)
        = c.any fun t => t.isId && t != .idName name := by
      rw [List.any_map]
      refine List.any_congr rfl fun t => ?_
      show (t.canonical.isId && (t.canonical != (idName name).canonical)) = _
      rw [isId_canonical, bne_canonical]
    rw [canonical_idName] at ordinary ⊢
    simp only [unify, other, ordinary]
    split_ifs <;> rfl
  | pseudo p =>
    have lone := unifyWithLone_canonical (.pseudo p) c
    rw [canonical_pseudo] at lone ⊢
    simp only [unify, Pseudo.isHost_canonical, Pseudo.isHostContext_canonical, unifyHost_canonical,
      insertPseudo_canonical, lone]
    split_ifs
    · rfl
    · cases unifyWithLone (.pseudo p) c <;> rfl
  | className | attr | placeholder | parent => exact ordinary

/-- **Canonical compounds unify to canonical compounds.** -/
theorem Compound.unify_canonical (c₁ c₂ : Compound) :
    Compound.unify (c₁.map Simple.canonical) (c₂.map Simple.canonical)
      = (Compound.unify c₁ c₂).map (List.map Simple.canonical) := by
  simp only [Compound.unify]
  induction c₁ generalizing c₂ with
  | nil => rfl
  | cons s c₁ ih =>
    rw [List.map_cons, List.foldlM_cons, List.foldlM_cons, Simple.unify_canonical]
    cases s.unify c₂ with
    | none => rfl
    | some found => exact ih found

/-! ## Trailing combinators -/

/-- The canonical forms of the alternatives for one place. -/
abbrev canonicalRows (rows : List (List Item)) : List (List Item) :=
  rows.map (List.map Item.canonical)

@[simp] theorem endCombinators_canonical (row : List Item) :
    endCombinators (row.map Item.canonical) = endCombinators row := by
  simp [endCombinators, List.takeWhile_map, Function.comp_def]

@[simp] theorem beforeCombinators_canonical (row : List Item) :
    beforeCombinators (row.map Item.canonical) = (beforeCombinators row).map Item.canonical := by
  simp [beforeCombinators, List.dropWhile_map, Function.comp_def]

@[simp] theorem pairItems_canonical (c : Compound) (k : Combinator) :
    pairItems (c.map Simple.canonical) k = (pairItems c k).map Item.canonical := rfl

theorem mergeFollowing_canonical (c₁ c₂ : Compound) :
    mergeFollowing (c₁.map Simple.canonical) (c₂.map Simple.canonical)
      = canonicalRows (mergeFollowing c₁ c₂) := by
  simp only [mergeFollowing, Compound.isSuperselector_canonical, Compound.unify_canonical]
  split_ifs
  · rfl
  · rfl
  · cases Compound.unify c₁ c₂ <;> simp

theorem mergeFollowingNext_canonical (following next : Compound) :
    mergeFollowingNext (following.map Simple.canonical) (next.map Simple.canonical)
      = canonicalRows (mergeFollowingNext following next) := by
  simp only [mergeFollowingNext, Compound.isSuperselector_canonical, Compound.unify_canonical]
  split_ifs
  · rfl
  · cases Compound.unify following next <;> simp

/-- The canonical forms of what one place merges to. -/
def PairMerge.canonical (m : PairMerge) : PairMerge :=
  ⟨canonicalRows m.choice, m.back₁.map Item.canonical, m.back₂.map Item.canonical⟩

/-- Every case of merging two trailing pairs. -/
theorem mergePair_canonical (c₁ : Compound) (k₁ : Combinator) (c₂ : Compound) (k₂ : Combinator) :
    mergePair (c₁.map Simple.canonical) k₁ (c₂.map Simple.canonical) k₂
      = (mergePair c₁ k₁ c₂ k₂).map PairMerge.canonical := by
  cases k₁ <;> cases k₂ <;>
    simp only [mergePair, mergeFollowing_canonical, mergeFollowingNext_canonical,
      Compound.unify_canonical, Option.map_map] <;>
    rfl

/-- A compound that is implied is dropped in the same places. -/
theorem dropImplied_canonical (c : Compound) (k : Combinator) (row : List Item) :
    dropImplied (c.map Simple.canonical) k (row.map Item.canonical)
      = (dropImplied c k row).map Item.canonical := by
  rcases row with _ | ⟨_ | _, row⟩
  · rfl
  · simp only [List.map_cons, Item.canonical_compound, dropImplied,
      Compound.isSuperselector_canonical]
    split_ifs <;> rfl
  · rfl

/-- The canonical forms of what one look leads to. -/
def TrailingStep.canonical : TrailingStep → TrailingStep
  | .finished => .finished
  | .refused => .refused
  | .last choice rest₁ rest₂ =>
    .last (canonicalRows choice) (rest₁.map Item.canonical) (rest₂.map Item.canonical)
  | .next choice rest₁ rest₂ =>
    .next (canonicalRows choice) (rest₁.map Item.canonical) (rest₂.map Item.canonical)

/-- One step over the trailing combinators takes the same branch. -/
theorem trailingStep_canonical (row₁ row₂ : List Item) :
    trailingStep (row₁.map Item.canonical) (row₂.map Item.canonical)
      = (trailingStep row₁ row₂).canonical := by
  simp only [trailingStep, endCombinators_canonical, beforeCombinators_canonical]
  split
  · rfl
  · rename_i k₁ k₂ _ _
    rcases beforeCombinators row₁ with _ | ⟨c₁ | _, rest₁⟩
    · rfl
    · rcases beforeCombinators row₂ with _ | ⟨c₂ | _, rest₂⟩
      · rfl
      · simp only [List.map_cons, Item.canonical_compound, mergePair_canonical]
        cases mergePair c₁ k₁ c₂ k₂ with
        | none => rfl
        | some m => simp [TrailingStep.canonical, PairMerge.canonical]
      · rfl
    · rfl
  · rename_i k₁ _ _
    rcases beforeCombinators row₁ with _ | ⟨c₁ | _, rest₁⟩
    · rfl
    · simp [TrailingStep.canonical, dropImplied_canonical]
    · rfl
  · rename_i k₂ _ _
    rcases beforeCombinators row₂ with _ | ⟨c₂ | _, rest₂⟩
    · rfl
    · simp [TrailingStep.canonical, dropImplied_canonical]
    · rfl
  · cases mergeCombinators (endCombinators row₁) (endCombinators row₂) with
    | none => rfl
    | some kept => simp [TrailingStep.canonical, Function.comp_def]

/-- The canonical forms of the choices at the end of two rows, and of what is left of the rows. -/
def canonicalEnds (ends : List (List (List Item)) × List Item × List Item) :
    List (List (List Item)) × List Item × List Item :=
  (ends.1.map canonicalRows, ends.2.1.map Item.canonical, ends.2.2.map Item.canonical)

/-- All the steps, from any choices found so far; the induction follows the recursion. -/
theorem mergeTrailingOnto_canonical (found : List (List (List Item))) (row₁ row₂ : List Item) :
    mergeTrailingOnto (found.map canonicalRows) (row₁.map Item.canonical) (row₂.map Item.canonical)
      = (mergeTrailingOnto found row₁ row₂).map canonicalEnds := by
  induction found, row₁, row₂ using mergeTrailingOnto.induct with
  | case1 found row₁ row₂ step =>
    have step' := trailingStep_canonical row₁ row₂
    rw [step] at step'
    rw [mergeTrailingOnto, step', mergeTrailingOnto, step]
    rfl
  | case2 found row₁ row₂ step =>
    have step' := trailingStep_canonical row₁ row₂
    rw [step] at step'
    rw [mergeTrailingOnto, step', mergeTrailingOnto, step]
    rfl
  | case3 found row₁ row₂ choice rest₁ rest₂ step =>
    have step' := trailingStep_canonical row₁ row₂
    rw [step] at step'
    rw [mergeTrailingOnto, step', mergeTrailingOnto, step]
    rfl
  | case4 found row₁ row₂ choice rest₁ rest₂ step ih =>
    have step' := trailingStep_canonical row₁ row₂
    rw [step] at step'
    rw [mergeTrailingOnto, step', mergeTrailingOnto, step]
    exact ih

theorem mergeTrailing_canonical (row₁ row₂ : List Item) :
    mergeTrailing (row₁.map Item.canonical) (row₂.map Item.canonical)
      = (mergeTrailing row₁ row₂).map canonicalEnds := by
  have onto := mergeTrailingOnto_canonical [] row₁.reverse row₂.reverse
  rw [List.map_nil, List.map_reverse, List.map_reverse] at onto
  rw [mergeTrailing, onto, mergeTrailing, Option.map_map, Option.map_map]
  congr 1
  funext ends
  simp [canonicalEnds]

/-! ## Weaving parents -/

@[simp] theorem Compound.isRoot_canonical (c : Compound) :
    Compound.isRoot (c.map Simple.canonical) = c.isRoot := by
  rw [isRoot, List.any_map, isRoot]
  refine List.any_congr rfl fun s => ?_
  cases s with
  | pseudo p => simp
  | _ => rfl

/-- The root of a row is split off at the same place. -/
theorem splitRoot_canonical (row : List Item) : splitRoot (row.map Item.canonical)
    = ((splitRoot row).1.map (List.map Simple.canonical),
      (splitRoot row).2.map Item.canonical) := by
  rcases row with _ | ⟨c | _, row⟩
  · rfl
  · simp only [List.map_cons, Item.canonical_compound, splitRoot, Compound.isRoot_canonical]
    split_ifs <;> rfl
  · rfl

/-- Two rows share a root in canonical form when they share one at all. -/
theorem shareRoot_canonical (row₁ row₂ : List Item) :
    shareRoot (row₁.map Item.canonical) (row₂.map Item.canonical)
      = (shareRoot row₁ row₂).map fun rows =>
        (rows.1.map Item.canonical, rows.2.map Item.canonical) := by
  rw [shareRoot, splitRoot_canonical, splitRoot_canonical, shareRoot]
  rcases splitRoot row₁ with ⟨_ | root₁, rest₁⟩ <;> rcases splitRoot row₂ with ⟨_ | root₂, rest₂⟩
  · rfl
  · rfl
  · rfl
  · simp only [Option.map_some, Compound.unify_canonical, Option.map_map]
    rfl

/-- An item joins the first group or starts one, by its constructor alone. -/
theorem consGroup_canonical (item : Item) (groups : List (List Item)) :
    consGroup item.canonical (canonicalRows groups) = canonicalRows (consGroup item groups) := by
  rcases groups with _ | ⟨_ | ⟨next, group⟩, groups⟩
  · rfl
  · rfl
  · simp only [canonicalRows, List.map_cons, consGroup, Item.isCombinator_canonical]
    split_ifs <;> rfl

/-- Rows fall into the same groups. -/
@[simp] theorem groupItems_canonical (row : List Item) :
    groupItems (row.map Item.canonical) = canonicalRows (groupItems row) := by
  induction row with
  | nil => rfl
  | cons item row ih =>
    show consGroup item.canonical (groupItems (row.map Item.canonical)) = _
    rw [ih, consGroup_canonical]
    rfl

/-- The conditions of a row that only one element can meet. -/
theorem uniqueConditions_canonical (row : List Item) :
    uniqueConditions (row.map Item.canonical) = (uniqueConditions row).map Simple.canonical := by
  have compounds : (row.map Item.canonical).filterMap Item.compound?
      = (row.filterMap Item.compound?).map (List.map Simple.canonical) := by
    rw [List.filterMap_map, List.map_filterMap]
    exact List.filterMap_congr fun item _ => Item.compound?_canonical item
  simp only [uniqueConditions, compounds, ← List.map_flatten, List.filter_map, Function.comp_def,
    Simple.isUnique_canonical]

/-- Whether two groups must unify compares these conditions. -/
@[simp] theorem mustUnify_canonical (group₁ group₂ : List Item) :
    mustUnify (group₁.map Item.canonical) (group₂.map Item.canonical)
      = mustUnify group₁ group₂ := by
  simp only [mustUnify, uniqueConditions_canonical, List.any_map, Function.comp_def,
    contains_map_canonical]

/-- What two groups have in common, over a unification that commutes with canonical forms. -/
theorem commonGroup_canonical {unify unify' : List Item → List Item → Option (List (List Item))}
    (h : ∀ group₁ group₂, unify' (group₁.map Item.canonical) (group₂.map Item.canonical)
      = (unify group₁ group₂).map canonicalRows) (group₁ group₂ : List Item) :
    commonGroup unify' (group₁.map Item.canonical) (group₂.map Item.canonical)
      = (commonGroup unify group₁ group₂).map (List.map Item.canonical) := by
  have heads : ∀ group : List Item, (group.map Item.canonical).head?.any Item.isCompound
      = group.head?.any Item.isCompound := by
    intro group
    cases group <;> simp
  simp only [commonGroup, equivItems_canonical, heads, parentSuperselector_canonical,
    mustUnify_canonical, h]
  split_ifs
  · rfl
  · rfl
  · rfl
  · rfl
  · rcases unify group₁ group₂ with _ | _ | ⟨_, _ | _⟩ <;> rfl
  · rfl

/-! ## Orders and rows -/

theorem runOrders_canonical (run₁ run₂ : List (List Item)) :
    runOrders (canonicalRows run₁) (canonicalRows run₂) = canonicalRows (runOrders run₁ run₂) := by
  rcases run₁ with _ | ⟨_, _⟩ <;> rcases run₂ with _ | ⟨_, _⟩ <;>
    simp [runOrders, List.map_flatten]

/-- The orders around the common groups. -/
theorem interleave_canonical : ∀ common groups₁ groups₂ : List (List Item),
    interleave (canonicalRows common) (canonicalRows groups₁) (canonicalRows groups₂)
      = (interleave common groups₁ groups₂).map canonicalRows
  | [], groups₁, groups₂ => congrArg (fun orders => [orders]) (runOrders_canonical groups₁ groups₂)
  | group :: common, groups₁, groups₂ => by
    have other :
        ((fun g => !parentSuperselector g (group.map Item.canonical)) ∘ List.map Item.canonical)
        = fun g => !parentSuperselector g group := by
      funext g
      simp
    have rest := interleave_canonical common
      (groups₁.dropWhile fun g => !parentSuperselector g group).tail
      (groups₂.dropWhile fun g => !parentSuperselector g group).tail
    have orders := runOrders_canonical (groups₁.takeWhile fun g => !parentSuperselector g group)
      (groups₂.takeWhile fun g => !parentSuperselector g group)
    simp only [canonicalRows, List.map_tail] at rest orders
    simp only [canonicalRows, List.map_cons, interleave, List.takeWhile_map, List.dropWhile_map,
      other, orders, rest, List.map_nil]

theorem rowsOfChoices_canonical (choices : List (List (List Item))) :
    rowsOfChoices (choices.map canonicalRows) = canonicalRows (rowsOfChoices choices) := by
  have full : (choices.map canonicalRows).filter (!·.isEmpty)
      = (choices.filter (!·.isEmpty)).map (List.map (List.map Item.canonical)) := by
    simp [List.filter_map, Function.comp_def, canonicalRows]
  rw [rowsOfChoices, full, selections_map, rowsOfChoices, List.map_map, canonicalRows, List.map_map]
  simp only [Function.comp_def, List.map_flatten]

section Weaving

variable {merge merge' : List Item → List Item → Option (List (List Item))}
  (h : ∀ row₁ row₂, merge' (row₁.map Item.canonical) (row₂.map Item.canonical)
    = (merge row₁ row₂).map canonicalRows)

theorem baseOfRow_canonical (row : List Item) :
    baseOfRow (row.map Item.canonical) = (baseOfRow row).map (List.map Simple.canonical) := by
  rw [baseOfRow, List.getLast?_map, baseOfRow]
  cases row.getLast? <;> simp

theorem unifyBases_canonical (rows : List (List Item)) :
    unifyBases (canonicalRows rows) = (unifyBases rows).map (List.map Simple.canonical) := by
  have onto : ∀ (rows : List (List Item)) (base : Compound),
      (canonicalRows rows).foldlM (fun found row => do Compound.unify (← baseOfRow row) found)
        (base.map Simple.canonical)
      = (rows.foldlM (fun found row => do Compound.unify (← baseOfRow row) found) base).map
        (List.map Simple.canonical) := by
    intro rows
    induction rows with
    | nil => exact fun _ => rfl
    | cons row rows ih =>
      intro base
      rw [canonicalRows, List.map_cons, List.foldlM_cons, List.foldlM_cons, baseOfRow_canonical]
      rcases baseOfRow row with _ | c
      · rfl
      simp only [Option.map_some, Option.bind_eq_bind, Option.bind_some, Compound.unify_canonical]
      rcases Compound.unify c base with _ | found
      · rfl
      · exact ih found
  cases rows with
  | nil => rfl
  | cons first rows =>
    rw [canonicalRows, List.map_cons, unifyBases, baseOfRow_canonical, unifyBases]
    rcases baseOfRow first with _ | base
    · rfl
    · exact onto rows base

theorem withBase_canonical (base : Compound) : ∀ rows : List (List Item),
    withBase (base.map Simple.canonical) (canonicalRows rows) = canonicalRows (withBase base rows)
  | [] => rfl
  | [row] => by simp [withBase, canonicalRows, List.map_dropLast]
  | row :: row' :: rows => by
    have rest := withBase_canonical base (row' :: rows)
    simp only [canonicalRows, List.map_cons, withBase, List.map_dropLast] at rest ⊢
    rw [rest]

include h

/-- One row woven onto those woven so far. -/
theorem weaveRow_canonical (woven : List (List Item)) (row : List Item) :
    weaveRow merge' (canonicalRows woven) (row.map Item.canonical)
      = canonicalRows (weaveRow merge woven row) := by
  simp only [weaveRow, List.getLast?_map, ← List.map_dropLast]
  rcases row.getLast? with _ | target
  · rfl
  rcases row.dropLast with _ | ⟨item, parents⟩
  · simp [canonicalRows]
  · simp only [Option.map_some, canonicalRows, List.flatMap_map, List.map_flatMap, List.map_cons]
    refine List.flatMap_congr fun before _ => ?_
    have merged := h before (item :: parents)
    rw [List.map_cons] at merged
    rw [merged]
    cases merge before (item :: parents) <;> simp [canonicalRows]

/-- All rows, over a merge of parents that commutes with canonical forms. -/
theorem weaveWith_canonical (rows : List (List Item)) :
    weaveWith merge' (canonicalRows rows) = canonicalRows (weaveWith merge rows) := by
  have onto : ∀ rows woven : List (List Item),
      (canonicalRows rows).foldl (weaveRow merge') (canonicalRows woven)
        = canonicalRows (rows.foldl (weaveRow merge) woven) := by
    intro rows
    induction rows with
    | nil => exact fun _ => rfl
    | cons row rows ih =>
      intro woven
      show (canonicalRows rows).foldl (weaveRow merge')
        (weaveRow merge' (canonicalRows woven) (row.map Item.canonical)) = _
      rw [weaveRow_canonical h, ih, List.foldl_cons]
  cases rows with
  | nil => rfl
  | cons first rows => exact onto rows [first]

/-- Unification of rows, over such a merge. -/
theorem unifyRowsWith_canonical (rows : List (List Item)) :
    unifyRowsWith merge' (canonicalRows rows) = (unifyRowsWith merge rows).map canonicalRows := by
  have several : ((unifyBases (canonicalRows rows)).map fun base =>
      weaveWith merge' (withBase base (canonicalRows rows)))
      = ((unifyBases rows).map fun base => weaveWith merge (withBase base rows)).map
        canonicalRows := by
    rw [unifyBases_canonical]
    cases unifyBases rows with
    | none => rfl
    | some base =>
      simp only [Option.map_some, withBase_canonical, weaveWith_canonical h]
  rcases rows with _ | ⟨row, _ | ⟨row', rows⟩⟩
  · exact several
  · rfl
  · exact several

end Weaving

@[simp] theorem startCombinators_canonical (row : List Item) :
    startCombinators (row.map Item.canonical) = startCombinators row :=
  endCombinators_canonical row

/-- **Canonical parents are woven into canonical rows.** -/
theorem weaveParentsWithin_canonical : ∀ (n : ℕ) (parents₁ parents₂ : List Item),
    weaveParentsWithin n (parents₁.map Item.canonical) (parents₂.map Item.canonical)
      = (weaveParentsWithin n parents₁ parents₂).map canonicalRows
  | 0, _, _ => rfl
  | n + 1, parents₁, parents₂ => by
    have body : ∀ row : List Item, (row.map Item.canonical).dropWhile Item.isCombinator
        = (row.dropWhile Item.isCombinator).map Item.canonical := beforeCombinators_canonical
    have unified : ∀ group₁ group₂ : List Item, unifyRowsWith (weaveParentsWithin n)
        [group₁.map Item.canonical, group₂.map Item.canonical]
        = (unifyRowsWith (weaveParentsWithin n) [group₁, group₂]).map canonicalRows :=
      fun group₁ group₂ =>
        unifyRowsWith_canonical (weaveParentsWithin_canonical n) [group₁, group₂]
    simp only [weaveParentsWithin, startCombinators_canonical, body, mergeTrailing_canonical]
    rcases mergeCombinators (startCombinators parents₁) (startCombinators parents₂) with _ | leading
    · rfl
    rcases mergeTrailing (parents₁.dropWhile Item.isCombinator)
      (parents₂.dropWhile Item.isCombinator) with _ | ⟨trailing, row₁, row₂⟩
    · rfl
    simp only [Option.map_some, canonicalEnds, Option.bind_eq_bind, Option.bind_some,
      shareRoot_canonical]
    rcases shareRoot row₁ row₂ with _ | ⟨row₁, row₂⟩
    · rfl
    have select : ∀ group₁ group₂ : List Item, commonGroup (fun group₁ group₂ =>
        unifyRowsWith (weaveParentsWithin n) [group₁, group₂]) (group₁.map Item.canonical)
          (group₂.map Item.canonical)
        = (commonGroup (fun group₁ group₂ => unifyRowsWith (weaveParentsWithin n) [group₁, group₂])
          group₁ group₂).map (List.map Item.canonical) := commonGroup_canonical unified
    have common := commonSubsequence_map select (groupItems row₂) (groupItems row₁)
    have rows := rowsOfChoices_canonical ([leading.map .combinator] ::
      interleave (commonSubsequence (commonGroup fun group₁ group₂ =>
        unifyRowsWith (weaveParentsWithin n) [group₁, group₂]) (groupItems row₂) (groupItems row₁))
        (groupItems row₁) (groupItems row₂) ++ trailing)
    simp only [Option.map_some, Option.bind_some, groupItems_canonical, common]
    have start : canonicalRows [leading.map .combinator] = [leading.map .combinator] := by
      simp [canonicalRows, Function.comp_def]
    rw [List.map_append, List.map_cons, start, ← interleave_canonical] at rows
    exact congrArg some rows

/-- Weaving two rows of parents at the depth they need. -/
@[simp] theorem weaveParents_canonical (parents₁ parents₂ : List Item) :
    weaveParents (parents₁.map Item.canonical) (parents₂.map Item.canonical)
      = (weaveParents parents₁ parents₂).map canonicalRows := by
  rw [weaveParents, List.length_map, List.length_map, weaveParentsWithin_canonical, weaveParents]

/-- **Weaving commutes with canonical forms.** -/
theorem weave_canonical (rows : List (List Item)) :
    weave (canonicalRows rows) = canonicalRows (weave rows) :=
  weaveWith_canonical weaveParents_canonical rows

/-- **Unification of rows commutes with canonical forms.** -/
theorem unifyRows_canonical (rows : List (List Item)) :
    unifyRows (canonicalRows rows) = (unifyRows rows).map canonicalRows :=
  unifyRowsWith_canonical weaveParents_canonical rows

end SelectorAlgebra
