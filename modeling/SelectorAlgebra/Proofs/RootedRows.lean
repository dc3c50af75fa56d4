import Mathlib
import SelectorAlgebra.Proofs.LongestSubsequence
import SelectorAlgebra.Proofs.MisplacedRows
import SelectorAlgebra.Proofs.RootStarts

/-!
# Proofs/RootedRows — where `:root` stands in a woven row

Weaving takes the roots off two rows.  It puts what they unify to before both, or a single root
before the row that had none, and only then looks for groups that the rows have in common.  So a
root stands first in what is woven in two cases.

* *Both rows have one.*  The unified root is then the first group of either row, and nothing but the
  root itself can stand for it (`eq_of_commonGroup_root`): it is the first common group, and the
  rest is woven behind it (`exists_middleChoices_roots`).
* *One row has one, and nothing else is left of that row* once its end is merged
  (`isRootlessBehind_weave_one`): then no group of its own can get before it.

`RootsAgree` has these cases, rows without a root, and a row without parents.  In all of them the
root stands first, and once (`isRootlessBehind_of_rootsAgree`).  What happens to other rows is said
in `Proofs/DisplacedRoots`.
-/

namespace SelectorAlgebra

/-! ## Groups beside a root -/

/-- The condition does not ask for the root, and is none of those of `root` that only
one element can meet. -/
def StandsApart (root : Compound) (s : Simple) : Prop :=
  s.IsRootless ∧ (s.isUnique = true → root.contains s = false)

section Groups

variable {root c : Compound} {row group z : List Item}
  {unify : List Item → List Item → Option (List (List Item))}

/-- A compound before a compound is a group of its own. -/
theorem groupItems_cons_compound (h : ∀ item ∈ row.head?, item.isCompound = true) (c : Compound) :
    groupItems (.compound c :: row) = [.compound c] :: groupItems row := by
  rw [groupItems, List.foldr_cons, ← groupItems]
  rcases hgroups : groupItems row with _ | ⟨_ | ⟨next, group⟩, groups⟩
  · rfl
  · rfl
  · have flat := (isGrouping_groupItems row).flatten
    rw [hgroups, List.flatten_cons, List.cons_append] at flat
    have plain : next.isCombinator = false := by
      have first := h next (by rw [← flat]; rfl)
      cases next with
      | compound d => rfl
      | combinator k => cases first
    have loose : ((Item.compound c).isCombinator || next.isCombinator) = false := plain
    rw [consGroup, loose, if_neg Bool.false_ne_true]

/-- The place that is found is accepted behind all that was passed over. -/
theorem exists_accepted {accept : Compound → List Item → Bool} :
    ∀ {lower parents rest : List Item}, firstAccepted accept parents lower = some rest →
      ∃ skipped e, lower = skipped ++ .compound e :: rest ∧ rest ≠ [] ∧
        accept e (parents ++ skipped) = true
  | [], _, _, h => by cases h
  | [_], _, _, h => by cases h
  | item :: next :: lower, parents, rest, h => by
    rw [firstAccepted] at h
    split at h
    · rename_i accepted
      obtain rfl := Option.some.inj h
      cases item with
      | compound e =>
        exact ⟨[], e, rfl, List.cons_ne_nil _ _, by simpa [Item.compound?] using accepted⟩
      | combinator k => cases accepted
    · obtain ⟨skipped, e, hrow, filled, accepted⟩ := exists_accepted h
      exact ⟨item :: skipped, e, by rw [hrow]; rfl, filled, by simpa using accepted⟩

/-- A group that is above another one as parents covers one of its compounds with its first one. -/
theorem exists_covered_of_parentSuperselector {upper lower : List Item} (filled : upper ≠ [])
    (h : parentSuperselector upper lower = true) :
    ∃ c upper', upper = .compound c :: upper' ∧ ∃ skipped e rest,
      lower = skipped ++ .compound e :: rest ∧ covers itemsSuperselector c e skipped = true := by
  simp only [parentSuperselector, itemsSuperselector_eq, rowCovers, Bool.and_eq_true] at h
  obtain ⟨⟨⟨first, -⟩, -⟩, -, walked⟩ := h
  rcases upper with _ | ⟨c | k, upper⟩
  · exact absurd rfl filled
  · refine ⟨c, upper, rfl, ?_⟩
    have steps := walked_of_walk walked
    generalize hupper : Item.compound c :: upper ++ [.compound unmentioned] = upper' at steps
    generalize hlower : lower ++ [.compound unmentioned] = lower' at steps
    cases steps with
    | last _ => simp at hupper
    | step found _ _ _ =>
      obtain ⟨rfl, -⟩ : c = _ ∧ _ := by simpa using hupper
      obtain ⟨skipped, e, place, rest, covered⟩ := exists_accepted found
      rcases List.eq_nil_or_concat _ |>.resolve_left rest with ⟨rest, last, eq⟩
      rw [eq, ← hlower, List.concat_eq_append, ← List.cons_append, ← List.append_assoc] at place
      exact ⟨skipped, e, rest, (List.append_inj' place rfl).1, covered⟩
  · cases first

/-- A root is above no group without one. -/
theorem parentSuperselector_root (hr : Compound.isRoot root = true) (upper : List Item)
    (h : AllCompounds Compound.IsRootless group) :
    parentSuperselector (.compound root :: upper) group = false := by
  refine Bool.eq_false_iff.2 fun above => ?_
  obtain ⟨c, upper', eq, skipped, e, rest, rfl, covered⟩ :=
    exists_covered_of_parentSuperselector (List.cons_ne_nil _ _) above
  obtain rfl : root = c := by simpa using (List.cons.inj eq).1
  have he : Compound.IsRootless e := h e (List.mem_append_right _ List.mem_cons_self)
  rw [covers_eq_false_of_isRoot hr he] at covered
  cases covered

theorem equivItems_comm (row row' : List Item) : equivItems row row' = equivItems row' row := by
  rw [Bool.eq_iff_iff, equivItems_iff, equivItems_iff, eq_comm]

/-- What is equivalent to a single compound is one that has its conditions. -/
theorem exists_of_equivItems_compound (h : equivItems group [.compound c] = true) :
    ∃ d, group = [.compound d] ∧ ∀ s ∈ c, ∃ t ∈ d, (s == t) = true := by
  rw [equivItems_iff] at h
  rcases group with _ | ⟨d | k, _ | ⟨item, group⟩⟩
  · cases h
  · have conditions : d.map Simple.canonical = c.map Simple.canonical := by
      simpa [canonicalItems, canonicalCompound_eq_map] using h
    refine ⟨d, rfl, fun s hs => ?_⟩
    have there : s.canonical ∈ d.map Simple.canonical := conditions ▸ List.mem_map_of_mem hs
    obtain ⟨t, ht, eq⟩ := List.mem_map.1 there
    exact ⟨t, ht, Simple.beq_iff.2 eq.symm⟩
  · cases item <;> simp [canonicalItems] at h
  · cases h
  · cases h

/-- A root is equivalent to no group without one. -/
theorem equivItems_root (hr : Compound.isRoot root = true)
    (h : AllCompounds Compound.IsRootless group) :
    equivItems group [.compound root] = false := by
  refine Bool.eq_false_iff.2 fun same => ?_
  obtain ⟨p, hp, isRoot⟩ := Compound.isRoot_iff.1 hr
  obtain ⟨c, rfl, conditions⟩ := exists_of_equivItems_compound same
  obtain ⟨s, hs, same⟩ := conditions _ hp
  have unimplied := h c List.mem_cons_self s hs p isRoot
  rw [Simple.impliedBy_of_beq same] at unimplied
  cases unimplied

theorem mem_uniqueConditions {s : Simple} :
    s ∈ uniqueConditions row ↔ (∃ c, .compound c ∈ row ∧ s ∈ c) ∧ s.isUnique = true := by
  rw [uniqueConditions, List.mem_filter, List.mem_flatten]
  exact and_congr_left fun _ => exists_congr fun c => and_congr_left fun _ =>
    mem_filterMap_compound?

theorem uniqueConditions_subset {row' : List Item} (sub : row ⊆ row') :
    uniqueConditions row ⊆ uniqueConditions row' := by
  intro s hs
  obtain ⟨⟨c, hc, mem⟩, unique⟩ := mem_uniqueConditions.1 hs
  exact mem_uniqueConditions.2 ⟨⟨c, sub hc, mem⟩, unique⟩

/-- A row without roots stands apart from a root that has none of its unique conditions. -/
theorem allCompounds_standsApart (rootless : AllCompounds Compound.IsRootless row)
    (free : ∀ s ∈ uniqueConditions row, root.contains s = false) :
    AllCompounds (∀ s ∈ ·, StandsApart root s) row := fun c hc s hs =>
  ⟨rootless c hc s hs, fun unique => free s (mem_uniqueConditions.2 ⟨⟨c, hc, hs⟩, unique⟩)⟩

/-- Nothing forces such a group to be unified with the root. -/
theorem mustUnify_root (h : AllCompounds (∀ s ∈ ·, StandsApart root s) group) :
    mustUnify [.compound root] group = false ∧ mustUnify group [.compound root] = false := by
  have apart : ∀ s ∈ uniqueConditions group, ∀ t ∈ uniqueConditions [.compound root],
      (s == t) = false := by
    intro s hs t ht
    obtain ⟨⟨c, hc, hs⟩, unique⟩ := mem_uniqueConditions.1 hs
    obtain ⟨⟨d, hd, mem⟩, -⟩ := mem_uniqueConditions.1 ht
    obtain rfl : d = root := by simpa using hd
    exact Bool.eq_false_iff.2 fun same =>
      Bool.eq_false_iff.1 ((h c hc s hs).2 unique)
        (List.contains_iff_exists_mem_beq.2 ⟨t, mem, same⟩)
  constructor
  · refine List.any_eq_false.2 fun s hs contained => ?_
    obtain ⟨t, ht, same⟩ := List.contains_iff_exists_mem_beq.1 contained
    rw [apart s hs t ht] at same
    cases same
  · refine List.any_eq_false.2 fun t ht contained => ?_
    obtain ⟨s, hs, same⟩ := List.contains_iff_exists_mem_beq.1 contained
    rw [BEq.comm, apart s hs t ht] at same
    cases same

/-- **What stands for a root and such a group is the root.** -/
theorem eq_of_commonGroup_root (hr : Compound.isRoot root = true)
    (h : AllCompounds (∀ s ∈ ·, StandsApart root s) group) :
    (commonGroup unify [.compound root] group = some z → z = [.compound root]) ∧
      (commonGroup unify group [.compound root] = some z → z = [.compound root]) := by
  have rootless : AllCompounds Compound.IsRootless group := fun c hc s hs => (h c hc s hs).1
  obtain ⟨apart, apart'⟩ := mustUnify_root h
  have below := parentSuperselector_root hr [] rootless
  constructor
  · intro selected
    unfold commonGroup at selected
    rw [below, apart] at selected
    split at selected
    · exact (Option.some.inj selected).symm
    split at selected
    · cases selected
    rw [if_neg Bool.false_ne_true] at selected
    split at selected
    · exact (Option.some.inj selected).symm
    · cases selected
  · intro selected
    unfold commonGroup at selected
    rw [equivItems_root hr rootless, below, apart', if_neg Bool.false_ne_true] at selected
    split at selected
    · cases selected
    split at selected
    · exact (Option.some.inj selected).symm
    · cases selected

end Groups

/-! ## Weaving behind a root -/

/-- The common groups of two rows, found with at most `n` steps into groups. -/
def commonGroups (n : ℕ) (row₁ row₂ : List Item) : List (List Item) :=
  commonSubsequence
    (commonGroup fun group₁ group₂ => unifyRowsWith (weaveParentsWithin n) [group₁, group₂])
    (groupItems row₂) (groupItems row₁)

/-- The choices before the trailing ones. -/
def middleChoices (n : ℕ) (row₁ row₂ : List Item) : List (List (List Item)) :=
  interleave (commonGroups n row₁ row₂) (groupItems row₁) (groupItems row₂)

/-- `:root` is asked for by the first item at most. -/
def IsRootlessBehind (row : List Item) : Prop := AllCompounds Compound.IsRootless row.tail

section Weaving

variable {root : Compound} {n : ℕ} {row row₁ row₂ rest : List Item}

/-- One level of weaving for rows that begin with compounds. -/
theorem weaveParentsWithin_of_head (n : ℕ) {parents₁ parents₂ : List Item}
    (h₁ : ∀ item ∈ parents₁.head?, item.isCompound = true)
    (h₂ : ∀ item ∈ parents₂.head?, item.isCompound = true) :
    weaveParentsWithin (n + 1) parents₁ parents₂
      = (mergeTrailing parents₁ parents₂).bind fun split =>
        (shareRoot split.2.1 split.2.2).map fun rows =>
          rowsOfChoices ([[]] :: (middleChoices n rows.1 rows.2 ++ split.1)) := by
  have lead₁ : startCombinators parents₁ = [] := startCombinators_lead h₁ []
  have lead₂ : startCombinators parents₂ = [] := startCombinators_lead h₂ []
  have body₁ : parents₁.dropWhile Item.isCombinator = parents₁ := dropWhile_isCombinator_lead h₁ []
  have body₂ : parents₂.dropWhile Item.isCombinator = parents₂ := dropWhile_isCombinator_lead h₂ []
  rw [weaveParentsWithin, lead₁, lead₂, body₁, body₂, mergeCombinators_nil]
  cases mergeTrailing parents₁ parents₂ with
  | none => rfl
  | some split =>
    cases hs : shareRoot split.2.1 split.2.2 with
    | none => simp [hs]
    | some rows => simp [hs, middleChoices, commonGroups]

/-- The rows of a single choice of orders. -/
theorem eq_of_mem_rowsOfChoices_runOrders {groups₁ groups₂ : List (List Item)}
    (h : row ∈ rowsOfChoices [runOrders groups₁ groups₂]) :
    row = (groups₁ ++ groups₂).flatten ∨ row = (groups₂ ++ groups₁).flatten := by
  have last : ∀ {rest : List Item}, rest ∈ rowsOfChoices [] → rest = [] := fun mem =>
    List.mem_singleton.1 mem
  rcases mem_rowsOfChoices_cons h with ⟨empty, mem⟩ | ⟨option, mem, rest, mem', rfl⟩
  · rcases groups₁ with _ | ⟨g₁, groups₁⟩ <;> rcases groups₂ with _ | ⟨g₂, groups₂⟩
    · exact .inl (last mem)
    all_goals cases empty
  · rw [last mem', List.append_nil]
    exact (mem_runOrders mem).2

/-- With nothing to be woven in, a row stays as it is. -/
theorem eq_of_mem_middleChoices_nil :
    (rest ∈ rowsOfChoices (middleChoices n [] row) → rest = row) ∧
      (rest ∈ rowsOfChoices (middleChoices n row []) → rest = row) := by
  have empty : commonGroups n [] row = [] ∧ commonGroups n row [] = [] :=
    ⟨List.eq_nil_iff_forall_not_mem.2 (forall_mem_commonSubsequence fun _ _ _ mem => by cases mem),
      List.eq_nil_iff_forall_not_mem.2 (forall_mem_commonSubsequence fun _ mem => by cases mem)⟩
  have flat := (isGrouping_groupItems row).flatten
  constructor
  · intro h
    rw [middleChoices, empty.1, interleave] at h
    simpa [groupItems.eq_def [], flat] using eq_of_mem_rowsOfChoices_runOrders h
  · intro h
    rw [middleChoices, empty.2, interleave] at h
    simpa [groupItems.eq_def [], flat] using eq_of_mem_rowsOfChoices_runOrders h

/-- A group has itself in common with itself. -/
theorem commonGroup_self (unify : List Item → List Item → Option (List (List Item)))
    (group : List Item) :
    commonGroup unify group group = some group := by
  rw [commonGroup, (equivItems_iff group group).2 rfl, if_pos rfl]

/-- **Behind a shared root, the rest is woven.** -/
theorem exists_middleChoices_roots (hr : Compound.isRoot root = true)
    (own : parentSuperselector [.compound root] [.compound root] = true)
    (h₁ : IsClosedRow (StandsApart root) row₁) (h₂ : IsClosedRow (StandsApart root) row₂) (n : ℕ) :
    ∃ common, (∀ group ∈ common, AllCompounds Compound.IsRootless group) ∧
      middleChoices n (.compound root :: row₁) (.compound root :: row₂)
        = [] :: [[.compound root]] :: interleave common (groupItems row₁) (groupItems row₂) := by
  have rootless : ∀ {row : List Item}, IsClosedRow (StandsApart root) row →
      ∀ group ∈ groupItems row, AllCompounds Compound.IsRootless group := fun h =>
    allCompounds_groupItems fun c hc s hs => (h.conditions c hc s hs).1
  have apart : ∀ {row : List Item}, IsClosedRow (StandsApart root) row →
      ∀ group ∈ groupItems row, AllCompounds (∀ s ∈ ·, StandsApart root s) group := fun h =>
    allCompounds_groupItems h.conditions
  have groups₁ := groupItems_cons_compound h₁.head root
  have groups₂ := groupItems_cons_compound h₂.head root
  have same :
      (commonGroup (fun group₁ group₂ => unifyRowsWith (weaveParentsWithin n) [group₁, group₂])
      [.compound root] [.compound root]).isSome = true := by
    rw [commonGroup_self]
    rfl
  obtain ⟨z, common, hcommon, found⟩ :=
    exists_cons_of_commonSubsequence same (groupItems row₂) (groupItems row₁)
  -- The first common group stands for the first group of one row, the root, and some group of the
  -- other.
  obtain rfl : z = [.compound root] := by
    rcases found.front with ⟨group, mem, selected⟩ | ⟨group, mem, selected⟩
    · rcases List.mem_cons.1 mem with rfl | mem
      · rw [commonGroup_self] at selected
        exact (Option.some.inj selected).symm
      · exact (eq_of_commonGroup_root hr (apart h₁ group mem)).1 selected
    · rcases List.mem_cons.1 mem with rfl | mem
      · rw [commonGroup_self] at selected
        exact (Option.some.inj selected).symm
      · exact (eq_of_commonGroup_root hr (apart h₂ group mem)).2 selected
  refine ⟨common, fun group hgroup => ?_, ?_⟩
  · obtain ⟨group₂, mem₂, group₁, mem₁, selected⟩ := found.rest group hgroup
    exact allCompounds_of_commonGroup unifyKeeps_isRootless
      (weavesAll_weaveParentsWithin unifyKeeps_isRootless n) (rootless h₂ group₂ mem₂)
      (rootless h₁ group₁ mem₁) selected
  · rw [middleChoices, commonGroups, groups₁, groups₂, hcommon, interleave]
    simp [own, runOrders]

theorem splitRoot_cons (hr : Compound.isRoot root = true) (row : List Item) :
    splitRoot (.compound root :: row) = (some root, row) := by
  rw [splitRoot, if_pos hr]

theorem isStable_isRootless : IsStable Simple.IsRootless where
  element _ := Simple.isRootless_of_isUniversalOrType
  rootless p h := Bool.eq_false_iff.2 fun isRoot => by
    have unimplied := h p isRoot
    rw [Simple.impliedBy_of_beq BEq.rfl] at unimplied
    cases unimplied

/-- Rootless items may follow. -/
theorem IsRootlessBehind.append {last : List Item} (h : IsRootlessBehind row)
    (hlast : AllCompounds Compound.IsRootless last) : IsRootlessBehind (row ++ last) := by
  cases row with
  | nil => exact hlast.of_subset (List.tail_subset last)
  | cons item row => exact allCompounds_append.2 ⟨h, hlast⟩

theorem isRootlessBehind_cons (item : Item) (h : AllCompounds Compound.IsRootless row) :
    IsRootlessBehind (item :: row) := h

/-- A row that is woven from two rows behind their roots. -/
structure IsWovenBehind (n : ℕ) (start₁ row₁ start₂ row₂ rest₁ rest₂ row : List Item) : Prop where
  trailing : ∃ choices, mergeTrailing row₁ row₂ = some (choices, rest₁, rest₂)
  closed₁ : IsClosedRow Simple.IsRootless rest₁
  closed₂ : IsClosedRow Simple.IsRootless rest₂
  middle : ∃ row₁' row₂' middle last, shareRoot (start₁ ++ rest₁) (start₂ ++ rest₂)
    = some (row₁', row₂') ∧
    middle ∈ rowsOfChoices (middleChoices n row₁' row₂') ∧ AllCompounds Compound.IsRootless last ∧
    row = middle ++ last

/-- Every woven row is taken apart into starts, a middle and the trailing pairs. -/
theorem exists_isWovenBehind {start₁ start₂ : List Item} {rows : List (List Item)}
    (hs₁ : IsRootStart start₁) (hs₂ : IsRootStart start₂) (h₁ : IsOpenRow Simple.IsRootless row₁)
    (h₂ : IsOpenRow Simple.IsRootless row₂)
    (h : weaveParentsWithin (n + 1) (start₁ ++ row₁) (start₂ ++ row₂) = some rows)
    (mem : row ∈ rows) :
    ∃ rest₁ rest₂, IsWovenBehind n start₁ row₁ start₂ row₂ rest₁ rest₂ row := by
  have head : ∀ {start row : List Item}, IsRootStart start → IsOpenRow Simple.IsRootless row →
      ∀ item ∈ (start ++ row).head?, item.isCompound = true := by
    rintro _ row (rfl | ⟨r, rfl, -⟩) isOpen
    · exact isOpen.head
    · rintro _ ⟨⟩
      rfl
  rw [weaveParentsWithin_of_head n (head hs₁ h₁) (head hs₂ h₂), mergeTrailing_roots hs₁ hs₂ h₁ h₂,
    Option.bind_eq_some_iff] at h
  obtain ⟨split', hsplit, h⟩ := h
  obtain ⟨⟨choices, rest₁, rest₂⟩, trailing, rfl⟩ := Option.map_eq_some_iff.1 hsplit
  obtain ⟨⟨row₁', row₂'⟩, shared, rfl⟩ := Option.map_eq_some_iff.1 h
  have split := isSplit_mergeTrailing isStable_isRootless.element h₁ h₂ trailing
  have rootless := (allCompounds_of_mergeTrailing unifyKeeps_isRootless h₁.conditions h₂.conditions
    trailing).1
  refine ⟨rest₁, rest₂, ⟨choices, trailing⟩, split.closed₁, split.closed₂, row₁', row₂', ?_⟩
  rcases mem_rowsOfChoices_cons mem with ⟨empty, -⟩ | ⟨option, hoption, body, hbody, rfl⟩
  · cases empty
  obtain ⟨middle, hmiddle, last, hlast, rfl⟩ := mem_rowsOfChoices_append hbody
  refine ⟨middle, last, shared, hmiddle, allCompounds_of_mem_rowsOfChoices rootless hlast, ?_⟩
  rw [List.mem_singleton.1 hoption, List.nil_append]

/-- One row has a root, and nothing else before what is tied to its last compound. -/
theorem isRootlessBehind_weave_one {r : Compound} {rows : List (List Item)}
    (hr : Compound.isRoot r = true) (h₁ : IsOpenRow Simple.IsRootless row₁)
    (h₂ : IsOpenRow Simple.IsRootless row₂) (tied : IsPaired row₁.reverse)
    (h : weaveParentsWithin (n + 1) (.compound r :: row₁) row₂ = some rows ∨
      weaveParentsWithin (n + 1) row₂ (.compound r :: row₁) = some rows) :
    ∀ row ∈ rows, IsRootlessBehind row := by
  have start : IsRootStart [.compound r] := .inr ⟨r, rfl, hr⟩
  intro row mem
  rcases h with h | h
  · obtain ⟨rest₁, rest₂, ⟨choices, trailing⟩, closed₁, closed₂, row₁', row₂', middle, last, shared,
      hmiddle, hlast, rfl⟩ := exists_isWovenBehind start (.inl rfl) h₁ h₂ h mem
    obtain rfl := (eq_nil_of_mergeTrailing isStable_isRootless.element h₁ h₂ trailing).1 tied
    rw [List.singleton_append, List.nil_append, shareRoot, splitRoot_cons hr,
      splitRoot_of_stable isStable_isRootless closed₂.toIsOpenRow] at shared
    cases shared
    rw [eq_of_mem_middleChoices_nil.1 hmiddle]
    exact (isRootlessBehind_cons _ closed₂.conditions).append hlast
  · obtain ⟨rest₂, rest₁, ⟨choices, trailing⟩, closed₂, closed₁, row₂', row₁', middle, last, shared,
      hmiddle, hlast, rfl⟩ := exists_isWovenBehind (.inl rfl) start h₂ h₁ h mem
    obtain rfl := (eq_nil_of_mergeTrailing isStable_isRootless.element h₂ h₁ trailing).2 tied
    rw [List.singleton_append, List.nil_append, shareRoot, splitRoot_cons hr,
      splitRoot_of_stable isStable_isRootless closed₂.toIsOpenRow] at shared
    cases shared
    rw [eq_of_mem_middleChoices_nil.2 hmiddle]
    exact (isRootlessBehind_cons _ closed₂.conditions).append hlast

theorem isUnique_eq_false_of_isUniversalOrType {s : Simple} (h : s.isUniversalOrType = true) :
    s.isUnique = false := by
  cases s with
  | universal ns => rfl
  | type name => rfl
  | _ => cases h

theorem standsApart_of_isUniversalOrType (root : Compound) (s : Simple)
    (h : s.isUniversalOrType = true) :
    StandsApart root s := by
  refine ⟨Simple.isRootless_of_isUniversalOrType h, fun unique => ?_⟩
  rw [isUnique_eq_false_of_isUniversalOrType h] at unique
  cases unique

section Unified

variable {r₁ r₂ : Compound}

/-- A root unified with anything is a root. -/
theorem isRoot_unify (hr : Compound.isRoot r₂ = true) (h : Compound.unify r₁ r₂ = some root) :
    Compound.isRoot root = true := by
  obtain ⟨p, hp, isRoot⟩ := Compound.isRoot_iff.1 hr
  exact Compound.isRoot_iff.2 ⟨p, Compound.mem_unify_of_mem_right h hp rfl, isRoot⟩

/-- What stands apart from two roots stands apart from what they unify to. -/
theorem standsApart_unify (h : Compound.unify r₁ r₂ = some root) {s : Simple}
    (h₁ : StandsApart r₁ s) (h₂ : StandsApart r₂ s) : StandsApart root s := by
  refine ⟨h₁.1, fun unique => Bool.eq_false_iff.2 fun contained => ?_⟩
  have plain : s.isUniversalOrType = false := Bool.eq_false_iff.2 fun named => by
    rw [isUnique_eq_false_of_isUniversalOrType named] at unique
    cases unique
  rcases (Compound.contains_unify_iff h plain).1 contained with contained | contained
  · rw [h₁.2 unique] at contained
    cases contained
  · rw [h₂.2 unique] at contained
    cases contained

/-- A compound whose arguments are regular is above itself as parents. -/
theorem parentSuperselector_self (h : (Complex.ofCompound root).hasRegularArguments = true) :
    parentSuperselector [.compound root] [.compound root] = true := by
  have own : itemsSuperselector [.compound root, .compound unmentioned]
      [.compound root, .compound unmentioned] = true := by
    refine itemsSuperselector_self rfl fun c hc parents => ?_
    rcases List.mem_pair.1 hc with eq | eq
    · obtain rfl := Item.compound.inj eq
      exact Complex.covers_itself h (List.mem_singleton_self _) parents
    · obtain rfl := Item.compound.inj eq
      refine covers_self (fun p l hp => ?_) parents
      simp [unmentioned] at hp
  simpa [parentSuperselector, Item.isCombinator] using own

theorem hasRegularArguments_ofCompound {c : Compound} :
    (Complex.ofCompound c).hasRegularArguments = true ↔
      ∀ s ∈ c, ∀ t ∈ s.simples, t.hasRegularArgument = true := by
  rw [Complex.hasRegularArguments, List.all_eq_true]
  constructor
  · exact fun h s hs t ht => h t (mem_simplesOfItems.2 ⟨c, List.mem_singleton_self _, s, hs, ht⟩)
  · intro h t ht
    obtain ⟨d, hd, s, hs, inside⟩ := mem_simplesOfItems.1 ht
    obtain rfl := Item.compound.inj (List.mem_singleton.1 hd)
    exact h s hs t inside

/-- Unification makes up no arguments. -/
theorem hasRegularArguments_unify (h : Compound.unify r₁ r₂ = some root)
    (h₁ : (Complex.ofCompound r₁).hasRegularArguments = true)
    (h₂ : (Complex.ofCompound r₂).hasRegularArguments = true) :
    (Complex.ofCompound root).hasRegularArguments = true := by
  rw [hasRegularArguments_ofCompound] at h₁ h₂ ⊢
  refine forall_mem_unify (fun s named t ht => ?_) h₁ h₂ h
  rcases Simple.mem_simples.1 ht with rfl | ⟨l, hl, -⟩
  · cases t with
    | universal ns => rfl
    | type name => rfl
    | _ => cases named
  · cases s with
    | pseudo p => cases named
    | _ => cases hl

end Unified

/-- Both rows have a root, and behind it nothing that only the same element can meet. -/
theorem isRootlessBehind_weave_both {r₁ r₂ : Compound} {rows : List (List Item)}
    (hr₁ : Compound.isRoot r₁ = true) (hr₂ : Compound.isRoot r₂ = true)
    (regular₁ : (Complex.ofCompound r₁).hasRegularArguments = true)
    (regular₂ : (Complex.ofCompound r₂).hasRegularArguments = true)
    (h₁ : IsOpenRow (fun s => StandsApart r₁ s ∧ StandsApart r₂ s) row₁)
    (h₂ : IsOpenRow (fun s => StandsApart r₁ s ∧ StandsApart r₂ s) row₂)
    (h : weaveParentsWithin (n + 1) (.compound r₁ :: row₁) (.compound r₂ :: row₂) = some rows) :
    ∀ row ∈ rows, IsRootlessBehind row := by
  have rootless : ∀ s, StandsApart r₁ s ∧ StandsApart r₂ s → s.IsRootless := fun s h => h.1.1
  intro row mem
  obtain ⟨rest₁, rest₂, ⟨choices, trailing⟩, -, -,
    row₁', row₂', middle, last, shared, hmiddle, hlast, rfl⟩ :=
      exists_isWovenBehind (.inr ⟨r₁, rfl, hr₁⟩) (.inr ⟨r₂, rfl, hr₂⟩) (h₁.mono rootless)
        (h₂.mono rootless) h mem
  have split := isSplit_mergeTrailing (fun s named => ⟨standsApart_of_isUniversalOrType r₁ s named,
    standsApart_of_isUniversalOrType r₂ s named⟩) h₁ h₂ trailing
  rw [List.singleton_append, List.singleton_append, shareRoot, splitRoot_cons hr₁,
    splitRoot_cons hr₂] at shared
  obtain ⟨root, unified, eq⟩ := Option.map_eq_some_iff.1 shared
  cases eq
  have apart : ∀ s, StandsApart r₁ s ∧ StandsApart r₂ s → StandsApart root s :=
    fun s h => standsApart_unify unified h.1 h.2
  obtain ⟨common, hcommon, choices_eq⟩ := exists_middleChoices_roots (isRoot_unify hr₂ unified)
    (parentSuperselector_self (hasRegularArguments_unify unified regular₁ regular₂))
    (split.closed₁.mono apart) (split.closed₂.mono apart) n
  rw [choices_eq] at hmiddle
  rcases mem_rowsOfChoices_cons hmiddle with ⟨-, hmiddle⟩ | ⟨_, absent, -⟩
  · rcases mem_rowsOfChoices_cons hmiddle with ⟨absent, -⟩ | ⟨option, hoption, rest, hrest, rfl⟩
    · cases absent
    · rw [List.mem_singleton.1 hoption]
      refine (isRootlessBehind_cons _ ?_).append hlast
      exact allCompounds_of_mem_rowsOfChoices (allCompounds_interleave hcommon
        (allCompounds_groupItems fun c hc s hs => (split.closed₁.conditions c hc s hs).1.1)
        (allCompounds_groupItems fun c hc s hs => (split.closed₂.conditions c hc s hs).1.1)) hrest
  · cases absent

end Weaving

/-! ## Unifying two rows -/

/-- The row begins with `r`, which has `:root`, and behind a space `rest` does not ask for it. -/
structure RootAhead (r : Compound) (rest row : List Item) : Prop where
  eq : row = .compound r :: rest
  isRoot : Compound.isRoot r = true
  spaced : rest.head?.any Item.isCompound = true
  rootless : AllCompounds Compound.IsRootless rest

/-- Two rows whose roots weaving can put together. -/
inductive RootsAgree (row₁ row₂ : List Item) : Prop where
  /-- Neither asks for the root. -/
  | neither (h₁ : AllCompounds Compound.IsRootless row₁)
    (h₂ : AllCompounds Compound.IsRootless row₂)
  /-- One group stands behind the only root there is, in the first row. -/
  | first {r : Compound} {rest : List Item} (h₁ : RootAhead r rest row₁) (one : IsOneGroup rest)
      (h₂ : AllCompounds Compound.IsRootless row₂)
  /-- One group stands behind the only root there is, in the second row. -/
  | second {r : Compound} {rest : List Item} (h₁ : AllCompounds Compound.IsRootless row₁)
      (h₂ : RootAhead r rest row₂) (one : IsOneGroup rest)
  /-- Both have a root that is above itself, and what only one element can meet is not both in
  a root and behind one. -/
  | both {r₁ r₂ : Compound} {rest₁ rest₂ : List Item} (h₁ : RootAhead r₁ rest₁ row₁)
      (h₂ : RootAhead r₂ rest₂ row₂) (regular₁ : (Complex.ofCompound r₁).hasRegularArguments = true)
      (regular₂ : (Complex.ofCompound r₂).hasRegularArguments = true)
      (apart : ∀ s ∈ uniqueConditions (rest₁ ++ rest₂), r₁.contains s = false ∧
        r₂.contains s = false)
  /-- The second row is a single compound, which goes to the last one of the first row. -/
  | alone {base : Compound} (h₁ : IsRootlessBehind row₁) (h₂ : row₂ = [.compound base])
      (plain : row₁.tail = [] ∨ Compound.IsRootless base)

section Unify

variable {parents₁ parents₂ : List Item} {base₁ base₂ : Compound}

/-- Two rows are unified by unifying their last compounds and weaving the others. -/
theorem unifyRowsWith_concat (merge : List Item → List Item → Option (List (List Item)))
    (parents₁ parents₂ : List Item) (base₁ base₂ : Compound) :
    unifyRowsWith merge [parents₁ ++ [Item.compound base₁], parents₂ ++ [Item.compound base₂]]
      = (Compound.unify base₂ base₁).map fun base =>
        if parents₂ = [] then [parents₁ ++ [Item.compound base]]
        else ((merge parents₁ parents₂).getD []).map (· ++ [.compound base]) := by
  have bases : unifyBases [parents₁ ++ [Item.compound base₁], parents₂ ++ [Item.compound base₂]]
      = Compound.unify base₂ base₁ := by
    simp [unifyBases, baseOfRow, Item.compound?]
  rw [unifyRowsWith, bases]
  · refine congrArg (Option.map · _) (funext fun base => ?_)
    simp only [withBase, List.dropLast_concat, weaveWith, List.foldl_cons, List.foldl_nil, weaveRow,
      List.getLast?_concat]
    rcases parents₂ with _ | ⟨item, parents₂⟩
    · simp
    · simp
  · simp

/-- It is enough that weaving keeps the root first. -/
theorem isRootlessBehind_unify_concat (hbase₁ : Compound.IsRootless base₁)
    (hbase₂ : Compound.IsRootless base₂) {rows : List (List Item)}
    (h : unifyRows [parents₁ ++ [Item.compound base₁], parents₂ ++ [Item.compound base₂]]
      = some rows)
    (alone : parents₂ = [] → IsRootlessBehind parents₁)
    (woven : ∀ found, weaveParents parents₁ parents₂ = some found →
      ∀ row ∈ found, IsRootlessBehind row) :
    ∀ row ∈ rows, IsRootlessBehind row := by
  rw [unifyRows, unifyRowsWith_concat] at h
  obtain ⟨base, hbase, rfl⟩ := Option.map_eq_some_iff.1 h
  have last : AllCompounds Compound.IsRootless [.compound base] :=
    allCompounds_compound (unifyKeeps_isRootless _ _ _ hbase₂ hbase₁ hbase)
  intro row mem
  split at mem
  · rename_i empty
    rw [List.mem_singleton.1 mem]
    exact (alone empty).append last
  · obtain ⟨init, hinit, rfl⟩ := List.mem_map.1 mem
    cases hfound : weaveParents parents₁ parents₂ with
    | none =>
      rw [hfound] at hinit
      cases hinit
    | some found =>
      rw [hfound] at hinit
      exact (woven found hfound init hinit).append last

variable {G : Simple → Prop} {r : Compound} {rest row row₁ row₂ : List Item}

/-- A single compound brings no root to a row that has others. -/
theorem isRootlessBehind_unify_alone (closed : IsClosedRow G row₁) (filled : row₁ ≠ [])
    (behind : IsRootlessBehind row₁) (plain : row₁.tail = [] ∨ Compound.IsRootless base₂)
    {rows : List (List Item)} (h : unifyRows [row₁, [.compound base₂]] = some rows) :
    ∀ row ∈ rows, IsRootlessBehind row := by
  obtain ⟨init, base₁, rfl, -, -⟩ := closed.exists_concat filled
  rw [← List.nil_append [Item.compound base₂], unifyRows, unifyRowsWith_concat] at h
  obtain ⟨base, hbase, rfl⟩ := Option.map_eq_some_iff.1 h
  rw [if_pos rfl]
  refine List.forall_mem_singleton.2 ?_
  rcases init with _ | ⟨first, init⟩
  · exact fun c absent => by cases absent
  · rw [IsRootlessBehind, List.cons_append, List.tail_cons, allCompounds_append] at behind ⊢
    have rootless₂ :=
      plain.resolve_left (List.append_ne_nil_of_right_ne_nil _ (List.cons_ne_nil _ _))
    have rootless₁ := behind.2 base₁ (List.mem_singleton_self _)
    exact ⟨behind.1, allCompounds_compound (unifyKeeps_isRootless _ _ _ rootless₂ rootless₁ hbase)⟩

/-- What stands behind a root and a space is a row of its own. -/
theorem RootAhead.isClosedRow (h : RootAhead r rest row) (closed : IsClosedRow G row) :
    IsClosedRow Simple.IsRootless rest ∧ rest ≠ [] := by
  obtain ⟨rfl, -, spaced, rootless⟩ := h
  rcases rest with _ | ⟨first, rest⟩
  · cases spaced
  refine ⟨⟨⟨closed.beside.tail, ?_, rootless⟩, fun item hitem => closed.last item ?_⟩,
    List.cons_ne_nil _ _⟩
  · rintro _ ⟨⟩
    exact spaced
  · rwa [List.getLast?_cons_cons]

section Ahead

variable {r₁ r₂ : Compound} {rest₁ rest₂ : List Item} {rows : List (List Item)}

/-- The only root is in the first row, and one group stands behind it. -/
theorem isRootlessBehind_unify_first (h₁ : IsClosedRow G row₁) (ahead : RootAhead r rest row₁)
    (one : IsOneGroup rest) (h₂ : IsClosedRow Simple.IsRootless row₂) (filled : row₂ ≠ [])
    (h : unifyRows [row₁, row₂] = some rows) : ∀ row ∈ rows, IsRootlessBehind row := by
  obtain ⟨closed, filled₁⟩ := ahead.isClosedRow h₁
  obtain ⟨rfl, hr, -, -⟩ := ahead
  obtain ⟨init₁, base₁, rfl, open₁, hbase₁⟩ := closed.exists_concat filled₁
  obtain ⟨init₂, base₂, rfl, open₂, hbase₂⟩ := h₂.exists_concat filled
  rw [← List.cons_append] at h
  refine isRootlessBehind_unify_concat hbase₁ hbase₂ h (fun _ => open₁.conditions)
    fun found hfound => ?_
  exact isRootlessBehind_weave_one hr open₁ open₂ ((isOneGroup_concat_iff open₁).1 one)
    (.inl hfound)

/-- The only root is in the second row, and one group stands behind it. -/
theorem isRootlessBehind_unify_second (h₁ : IsClosedRow Simple.IsRootless row₁) (filled : row₁ ≠ [])
    (h₂ : IsClosedRow G row₂) (ahead : RootAhead r rest row₂) (one : IsOneGroup rest)
    (h : unifyRows [row₁, row₂] = some rows) : ∀ row ∈ rows, IsRootlessBehind row := by
  obtain ⟨closed, filled₂⟩ := ahead.isClosedRow h₂
  obtain ⟨rfl, hr, -, -⟩ := ahead
  obtain ⟨init₁, base₁, rfl, open₁, hbase₁⟩ := h₁.exists_concat filled
  obtain ⟨init₂, base₂, rfl, open₂, hbase₂⟩ := closed.exists_concat filled₂
  rw [← List.cons_append] at h
  refine isRootlessBehind_unify_concat hbase₁ hbase₂ h (fun empty => by cases empty)
    fun found hfound => ?_
  exact isRootlessBehind_weave_one hr open₂ open₁ ((isOneGroup_concat_iff open₂).1 one)
    (.inr hfound)

/-- Both rows have a root, and stand apart from both behind it. -/
theorem isRootlessBehind_unify_both (h₁ : IsClosedRow G row₁) (h₂ : IsClosedRow G row₂)
    (ahead₁ : RootAhead r₁ rest₁ row₁) (ahead₂ : RootAhead r₂ rest₂ row₂)
    (regular₁ : (Complex.ofCompound r₁).hasRegularArguments = true)
    (regular₂ : (Complex.ofCompound r₂).hasRegularArguments = true)
    (apart : ∀ s ∈ uniqueConditions (rest₁ ++ rest₂), r₁.contains s = false ∧ r₂.contains s = false)
    (h : unifyRows [row₁, row₂] = some rows) : ∀ row ∈ rows, IsRootlessBehind row := by
  have stands : ∀ {rest}, IsClosedRow Simple.IsRootless rest → rest ⊆ rest₁ ++ rest₂ →
      IsClosedRow (fun s => StandsApart r₁ s ∧ StandsApart r₂ s) rest := fun closed sub =>
    closed.of_conditions fun c hc s hs =>
      ⟨allCompounds_standsApart closed.conditions
        (fun t ht => (apart t (uniqueConditions_subset sub ht)).1) c hc s hs,
      allCompounds_standsApart closed.conditions
        (fun t ht => (apart t (uniqueConditions_subset sub ht)).2) c hc s hs⟩
  obtain ⟨closed₁, filled₁⟩ := ahead₁.isClosedRow h₁
  obtain ⟨closed₂, filled₂⟩ := ahead₂.isClosedRow h₂
  have apart₁ := stands closed₁ (List.subset_append_left _ _)
  have apart₂ := stands closed₂ (List.subset_append_right _ _)
  obtain ⟨rfl, hr₁, -, -⟩ := ahead₁
  obtain ⟨rfl, hr₂, -, -⟩ := ahead₂
  obtain ⟨init₁, base₁, rfl, open₁, hbase₁⟩ := apart₁.exists_concat filled₁
  obtain ⟨init₂, base₂, rfl, open₂, hbase₂⟩ := apart₂.exists_concat filled₂
  rw [← List.cons_append, ← List.cons_append] at h
  refine isRootlessBehind_unify_concat (fun s hs => (hbase₁ s hs).1.1)
    (fun s hs => (hbase₂ s hs).1.1) h (fun empty => by cases empty) fun found hfound => ?_
  exact isRootlessBehind_weave_both hr₁ hr₂ regular₁ regular₂ open₁ open₂ hfound

/-- **Roots that agree stand first, and once.** -/
theorem isRootlessBehind_of_rootsAgree (h₁ : IsClosedRow G row₁ ∧ row₁ ≠ [])
    (h₂ : IsClosedRow G row₂ ∧ row₂ ≠ []) (agree : RootsAgree row₁ row₂)
    (h : unifyRows [row₁, row₂] = some rows) : ∀ row ∈ rows, IsRootlessBehind row := by
  cases agree with
  | neither rootless₁ rootless₂ =>
    have all := allCompounds_of_unifyRows unifyKeeps_isRootless
      (List.forall_mem_cons.2 ⟨rootless₁, List.forall_mem_singleton.2 rootless₂⟩) h
    exact fun row mem => (all row mem).of_subset (List.tail_subset row)
  | first ahead one rootless =>
    exact isRootlessBehind_unify_first h₁.1 ahead one (h₂.1.of_conditions rootless) h₂.2 h
  | second rootless ahead one =>
    exact isRootlessBehind_unify_second (h₁.1.of_conditions rootless) h₁.2 h₂.1 ahead one h
  | both ahead₁ ahead₂ regular₁ regular₂ apart =>
    exact isRootlessBehind_unify_both h₁.1 h₂.1 ahead₁ ahead₂ regular₁ regular₂ apart h
  | alone behind eq plain =>
    obtain rfl := eq
    exact isRootlessBehind_unify_alone h₁.1 h₁.2 behind plain h

end Ahead

end Unify

end SelectorAlgebra
