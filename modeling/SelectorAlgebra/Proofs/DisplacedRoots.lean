import Mathlib
import SelectorAlgebra.Proofs.ClassRows
import SelectorAlgebra.Proofs.RootedRows
import SelectorAlgebra.Proofs.TidyCompounds

/-!
# Proofs/DisplacedRoots — when `:root` stays first

Selectors whose roots agree unify to selectors with `:root` in the first item, if anywhere
(`rootStandsFirst_unify`).  For a selector with a root that has nothing in common with what stands
behind it, the same theorem says how far that goes:

    no selector without a root displaces it  ↔  one group stands behind it, and a space before that

One direction is `isRootlessBehind_of_rootsAgree`.  For the other, a selector has to be found that
displaces the root.

**The stranger** is `::name :is(.y)`, for a name that the selector does not mention.  Its base goes
with every compound (`exists_unify_withinY`), and its parent has nothing in common with any
(`commonGroup_stranger`): beside it, just what is tied to the last compound is taken off
(`exists_mergeTrailing_stranger`), and what is left may stand on either side.

**The root moves** (`exists_woven_displaced`).  The root is put before the stranger, and if more is
left of its row, the row comes first, with the root in the middle.  If it is tied to the last
compound itself, the stranger comes first.
-/

namespace SelectorAlgebra

/-! ## A stranger -/

/-- A pseudo-element, for a parent that has nothing to do with another row. -/
def stranger (name : String) : Simple := .pseudo (.ofElement name)

/-- `:is(.y)`, which goes with every compound. -/
def withinY : Simple := .pseudo (.around "is" [.ofCompound [.className "y"]])

/-- The parent `::name` of `:is(.y)`. -/
def strangerRow (name : String) : List Item := [.compound [stranger name], .compound [withinY]]

section Stranger

variable {name : String} {c r : Compound} {row rest group : List Item} {p : Pseudo}

/-- Inserting a pseudo fails only for a second pseudo-element. -/
theorem exists_insertPseudo (h : p.isElement = false ∨ Compound.hasPseudoElement c = false) :
    ∃ found, insertPseudo p c = some found := by
  unfold insertPseudo
  split
  · exact ⟨_, rfl⟩
  split
  · rename_i has
    rcases h with h | h
    · rw [if_neg (Bool.eq_false_iff.1 h)]
      exact ⟨_, rfl⟩
    · rw [h] at has
      cases has
  · exact ⟨_, rfl⟩

/-- `:is(.y)` unifies with every compound, so the stranger's row never fails at its end. -/
theorem exists_unify_withinY (c : Compound) : ∃ base, Compound.unify [withinY] c = some base := by
  have host : withinY.isHostLike = false := by decide +kernel
  have lone : ∀ result, unifyWithLone withinY c = some result → ∃ base, result = some base := by
    intro result h
    unfold unifyWithLone at h
    split at h
    · obtain rfl := Option.some.inj h
      exact ⟨_, unifyUniversal_singleton _ rfl host⟩
    · split at h
      · obtain rfl := Option.some.inj h
        rw [unifyHost, if_pos (by decide +kernel)]
        exact exists_insertPseudo (.inr (by decide +kernel))
      · cases h
    · cases h
  obtain ⟨base, hbase⟩ : ∃ base, withinY.unify c = some base := by
    rw [withinY, Simple.unify, if_neg (by decide +kernel)]
    split
    · exact lone _ ‹_›
    · exact exists_insertPseudo (.inl (by decide +kernel))
  exact ⟨base, by rw [Compound.unify_cons, hbase]; rfl⟩

theorem isRootless_stranger (name : String) : (stranger name).IsRootless :=
  Simple.isRootless_of_argument? rfl rfl

theorem isRootless_withinY : withinY.IsRootless := by
  intro p root
  have apart : (Simple.pseudo p == withinY) = false :=
    beq_eq_false_of_isRoot root (by decide +kernel)
  have missing : ([.className "y"] : Compound).contains (.pseudo p) = false := by
    rw [List.contains_cons, beq_eq_false_of_isRoot root rfl, List.contains_nil, Bool.or_self]
  have required : SelectorList.requires [.ofCompound [.className "y"]] (.pseudo p) = false := by
    simp [SelectorList.requires, Complex.ofCompound, Complex.singleCompound?, missing]
  have unfolded : (Simple.pseudo p).impliedBy withinY = (Simple.pseudo p == withinY ||
      (Pseudo.around "is" [.ofCompound [.className "y"]]).kind.isRestriction &&
        SelectorList.requires [.ofCompound [.className "y"]] (.pseudo p)) := rfl
  rw [unfolded, apart, required, Bool.and_false, Bool.or_self]

theorem rootless_strangerRow (name : String) :
    AllCompounds Compound.IsRootless (strangerRow name) := by
  intro c hc
  rcases List.mem_pair.1 hc with eq | eq
  · obtain rfl := Item.compound.inj eq
    exact List.forall_mem_singleton.2 (isRootless_stranger name)
  · obtain rfl := Item.compound.inj eq
    exact List.forall_mem_singleton.2 isRootless_withinY

/-- No compound of the row has anything to do with `::name`. -/
def IsStrangeTo (name : String) (row : List Item) : Prop :=
  AllCompounds (fun c => (stranger name).metBy c = false) row

/-- A compound that does not meet the stranger neither covers it nor is covered by it. -/
theorem covers_stranger (h : (stranger name).metBy c = false) (sup : ItemsRelation)
    (parents : List Item) :
    covers sup [stranger name] c parents = false ∧
      covers sup c [stranger name] parents = false := by
  refine ⟨?_, covers_unmet_element h parents⟩
  have unmet : (stranger name).metBehind sup c parents = false := h
  rw [covers, List.all_cons, unmet, Bool.false_and, Bool.false_and]

theorem not_mem_of_metBy (h : (stranger name).metBy c = false) :
    ∀ s ∈ c, (stranger name == s) = false := fun s hs =>
  Bool.eq_false_iff.2 fun same =>
    List.any_eq_false.1 h s hs (Simple.impliedBy_of_beq same)

/-- The four ways to have a group in common, all refused. -/
theorem commonGroup_eq_none {unify : List Item → List Item → Option (List (List Item))}
    {group₁ group₂ : List Item} (equiv : equivItems group₁ group₂ = false)
    (above : parentSuperselector group₁ group₂ = false)
    (below : parentSuperselector group₂ group₁ = false) (free : mustUnify group₁ group₂ = false) :
    commonGroup unify group₁ group₂ = none := by
  simp [commonGroup, equiv, above, below, free]

/-- The stranger has nothing in common with a group it is strange to. -/
theorem commonGroup_stranger (unify : List Item → List Item → Option (List (List Item)))
    (h : IsStrangeTo name group) (filled : group ≠ []) :
    commonGroup unify [.compound [stranger name]] group = none := by
  refine commonGroup_eq_none ?_ ?_ ?_ ?_
  · refine Bool.eq_false_iff.2 fun same => ?_
    rw [equivItems_comm] at same
    obtain ⟨c, rfl, conditions⟩ := exists_of_equivItems_compound same
    obtain ⟨s, hs, same⟩ := conditions _ (List.mem_singleton_self _)
    rw [not_mem_of_metBy (h c List.mem_cons_self) s hs] at same
    cases same
  · refine Bool.eq_false_iff.2 fun above => ?_
    obtain ⟨c, upper, eq, skipped, e, rest, rfl, covered⟩ :=
      exists_covered_of_parentSuperselector (List.cons_ne_nil _ _) above
    obtain rfl : [stranger name] = c := by simpa using (List.cons.inj eq).1
    have he := h e (List.mem_append_right _ List.mem_cons_self)
    rw [(covers_stranger he _ _).1] at covered
    cases covered
  · refine Bool.eq_false_iff.2 fun above => ?_
    obtain ⟨c, upper, rfl, skipped, e, rest, eq, covered⟩ :=
      exists_covered_of_parentSuperselector filled above
    obtain rfl : [stranger name] = e := by
      have mem : Item.compound e ∈ [Item.compound [stranger name]] :=
        eq ▸ List.mem_append_right _ List.mem_cons_self
      simpa using (List.mem_singleton.1 mem).symm
    rw [(covers_stranger (h c List.mem_cons_self) _ _).2] at covered
    cases covered
  · refine List.any_eq_false.2 fun s hs contained => ?_
    obtain ⟨⟨c, hc, hs⟩, -⟩ := mem_uniqueConditions.1 hs
    obtain ⟨t, ht, same⟩ := List.contains_iff_exists_mem_beq.1 contained
    obtain ⟨⟨d, hd, ht⟩, -⟩ := mem_uniqueConditions.1 ht
    obtain rfl := Item.compound.inj (List.mem_singleton.1 hd)
    obtain rfl := List.mem_singleton.1 ht
    rw [BEq.comm, not_mem_of_metBy (h c hc) s hs] at same
    cases same

end Stranger

/-! ## A row beside the stranger -/

/-- Compounds, each with a combinator behind it. -/
def tiedItems (pairs : List (Compound × Combinator)) : List Item :=
  pairs.flatMap fun pair => pairItems pair.1 pair.2

section Beside

variable {G : Simple → Prop} {name : String} {r : Compound} {row rest : List Item}
  {pairs : List (Compound × Combinator)}

theorem isPaired_tiedItems (pairs : List (Compound × Combinator)) :
    IsPaired (tiedItems pairs).reverse := by
  induction pairs using List.reverseRecOn with
  | nil => exact .nil
  | append_singleton pairs pair ih =>
    rw [tiedItems, List.flatMap_append, List.flatMap_singleton, List.reverse_append]
    exact .pair pair.2 pair.1 ih

theorem isOpenRow_tiedItems (pairs : List (Compound × Combinator)) :
    IsOpenRow (fun _ => True) (tiedItems pairs) := by
  induction pairs with
  | nil => exact isOpenRow_nil
  | cons pair pairs ih =>
    exact (isJoinedRow_pair (fun _ _ => trivial) pair.2).toIsOpenRow.append ih

/-- The tied compounds are the one row that can be picked from their single choices. -/
theorem tiedItems_mem_rowsOfChoices (pairs : List (Compound × Combinator)) :
    tiedItems pairs ∈ rowsOfChoices (pairs.map fun pair => [pairItems pair.1 pair.2]) := by
  induction pairs with
  | nil => exact List.mem_singleton_self _
  | cons pair pairs ih =>
    rw [List.map_cons, mem_rowsOfChoices_cons_iff (List.cons_ne_nil _ _)]
    exact ⟨_, List.mem_singleton_self _, _, ih, rfl⟩

/-- Beside the stranger, which has no combinators, the tied end of a row comes off pair by pair; the
induction is on the shape of the row. -/
theorem exists_mergeTrailingOnto_stranger (h : IsOpenRow G row.reverse)
    (strange : IsStrangeTo name row) (found : List (List (List Item))) :
    ∃ rest pairs, row.reverse = rest.reverse ++ tiedItems pairs ∧
      mergeTrailingOnto found row [.compound [stranger name]]
        = some (pairs.map (fun pair => [pairItems pair.1 pair.2]) ++ found, rest,
          [.compound [stranger name]]) := by
  -- The row is read from its end, and two items go at a time.
  induction len : row.length using Nat.strong_induction_on generalizing row found with
  | _ n ih =>
    rcases reverse_cases h with ⟨ends, -⟩ | ⟨k, c, rest, rfl, open', -⟩
    · have step : trailingStep row [.compound [stranger name]] = .finished := by
        rw [trailingStep, ends]
        rfl
      refine ⟨row, [], (List.append_nil _).symm, ?_⟩
      rw [mergeTrailingOnto, step]
      rfl
    · have unmet := strange c (List.mem_cons_of_mem _ List.mem_cons_self)
      have kept : dropImplied c k [.compound [stranger name]] = [.compound [stranger name]] := by
        have below : Compound.isSuperselector [stranger name] c = false :=
          (covers_stranger unmet _ _).1
        rw [dropImplied, below, Bool.and_false, if_neg Bool.false_ne_true]
      have step : trailingStep (.combinator k :: .compound c :: rest) [.compound [stranger name]]
          = .next [pairItems c k] rest [.compound [stranger name]] :=
        congrArg (TrailingStep.next [pairItems c k] rest) kept
      have shorter : rest.length < n := by
        rw [← len]
        exact Nat.lt_add_right 1 (Nat.lt_succ_self _)
      have strange' : IsStrangeTo name rest := strange.of_subset fun item hitem =>
        List.mem_cons_of_mem _ (List.mem_cons_of_mem _ hitem)
      obtain ⟨rest', pairs, split, run⟩ :=
        ih rest.length shorter open' strange' ([pairItems c k] :: found) rfl
      refine ⟨rest', pairs ++ [(c, k)], ?_, ?_⟩
      · rw [List.reverse_cons, List.reverse_cons, split, tiedItems, tiedItems, List.flatMap_append]
        simp [pairItems]
      · rw [mergeTrailingOnto, step]
        simpa using run

/-- **Beside the stranger, what is tied to the end of a row is taken off, and nothing else.** -/
theorem exists_mergeTrailing_stranger (h : IsOpenRow G row) (strange : IsStrangeTo name row) :
    ∃ rest pairs, row = rest ++ tiedItems pairs ∧
      mergeTrailing row [.compound [stranger name]]
        = some (pairs.map (fun pair => [pairItems pair.1 pair.2]), rest,
          [.compound [stranger name]]) := by
  have strange' : IsStrangeTo name row.reverse :=
    strange.of_subset (List.reverse_subset.2 (List.Subset.refl _))
  obtain ⟨rest, pairs, split, run⟩ :=
    exists_mergeTrailingOnto_stranger ((List.reverse_reverse row).symm ▸ h) strange' []
  rw [List.reverse_reverse] at split
  refine ⟨rest.reverse, pairs, split, ?_⟩
  rw [mergeTrailing, List.reverse_singleton, run, List.append_nil]
  rfl

/-- Rows without common groups may stand one behind the other. -/
theorem append_mem_middleChoices {row₁ row₂ : List Item} (n : ℕ)
    (apart : ∀ group₂ ∈ groupItems row₂, ∀ group₁ ∈ groupItems row₁,
      commonGroup (fun group₁ group₂ => unifyRowsWith (weaveParentsWithin n) [group₁, group₂])
      group₂ group₁
        = none) : row₁ ++ row₂ ∈ rowsOfChoices (middleChoices n row₁ row₂) := by
  have nothing : commonGroups n row₁ row₂ = [] := by
    refine List.eq_nil_iff_forall_not_mem.2 (forall_mem_commonSubsequence ?_)
    intro group₂ mem₂ group₁ mem₁ z selected
    rw [apart group₂ mem₂ group₁ mem₁] at selected
    cases selected
  have flat : (groupItems row₁ ++ groupItems row₂).flatten = row₁ ++ row₂ := by
    rw [List.flatten_append, (isGrouping_groupItems row₁).flatten,
      (isGrouping_groupItems row₂).flatten]
  rw [middleChoices, nothing, interleave, ← flat]
  rcases groupItems row₁ with _ | ⟨g₁, groups₁⟩ <;> rcases groupItems row₂ with _ | ⟨g₂, groups₂⟩
  · exact List.mem_singleton_self _
  all_goals
    rw [mem_rowsOfChoices_cons_iff (by simp [runOrders])]
    exact ⟨_, by simp [runOrders], [], List.mem_singleton_self _, (List.append_nil _).symm⟩

/-- A root is put in front of the stranger. -/
theorem shareRoot_stranger (name : String) :
    shareRoot [] [.compound [stranger name]] = some ([], [.compound [stranger name]]) ∧
      ∀ (r : Compound) (rest : List Item), Compound.isRoot r = true →
        shareRoot (.compound r :: rest) [.compound [stranger name]]
          = some (rest, [.compound r, .compound [stranger name]]) := by
  have other : Compound.isRoot [stranger name] = false :=
    Compound.IsRootless.isRoot_eq_false (List.forall_mem_singleton.2 (isRootless_stranger name))
  have split : splitRoot [.compound [stranger name]] = (none, [.compound [stranger name]]) := by
    rw [splitRoot, other, if_neg Bool.false_ne_true]
  refine ⟨?_, fun r rest hr => ?_⟩
  · rw [shareRoot, split]
    rfl
  · rw [shareRoot, split, splitRoot_cons hr]

/-- What is woven of a row and the stranger, seen from what is left before the tied end. -/
theorem exists_weaveParents_stranger (h : IsOpenRow G row) (strange : IsStrangeTo name row) :
    ∃ rest pairs, row = rest ++ tiedItems pairs ∧
      ∀ row₁ row₂ middle, shareRoot rest [.compound [stranger name]] = some (row₁, row₂) →
        middle ∈ rowsOfChoices (middleChoices (row.length + 1) row₁ row₂) →
        ∃ found, weaveParents row [.compound [stranger name]] = some found ∧
          middle ++ tiedItems pairs ∈ found := by
  obtain ⟨rest, pairs, eq, trailing⟩ := exists_mergeTrailing_stranger h strange
  refine ⟨rest, pairs, eq, fun row₁ row₂ middle shared hmiddle => ?_⟩
  have head : ∀ item ∈ [Item.compound [stranger name]].head?, item.isCompound = true := by
    rintro _ ⟨⟩
    rfl
  have within : weaveParents row [.compound [stranger name]]
      = weaveParentsWithin (row.length + 1 + 1) row [.compound [stranger name]] := rfl
  rw [within, weaveParentsWithin_of_head _ h.head head, trailing, Option.bind_some, shared]
  refine ⟨_, rfl, ?_⟩
  rw [mem_rowsOfChoices_cons_iff (List.cons_ne_nil _ _)]
  refine ⟨[], List.mem_singleton_self _, _, ?_, (List.nil_append _).symm⟩
  obtain ⟨selection, picked, rfl⟩ := mem_rowsOfChoices.1 hmiddle
  obtain ⟨selection', picked', eq'⟩ := mem_rowsOfChoices.1 (tiedItems_mem_rowsOfChoices pairs)
  refine mem_rowsOfChoices.2 ⟨selection ++ selection', ?_, ?_⟩
  · rw [List.filter_append]
    exact List.rel_append picked picked'
  · rw [List.flatten_append, eq']

end Beside

/-! ## A root beside the stranger -/

/-- A compound with `:root`, and behind it a row that has nothing in common with it. -/
structure RootApart (r : Compound) (rest : List Item) : Prop where
  isRoot : Compound.isRoot r = true
  rootless : AllCompounds Compound.IsRootless rest
  uncovered : AllCompounds (Compound.isSuperselector · r = false) rest
  free : ∀ s ∈ uniqueConditions rest, r.contains s = false

section Displaced

variable {G : Simple → Prop} {name : String} {r : Compound}
  {row rest rest' group parents : List Item}

theorem RootApart.of_subset (h : RootApart r rest) (sub : rest' ⊆ rest) : RootApart r rest' := by
  refine ⟨h.isRoot, h.rootless.of_subset sub, h.uncovered.of_subset sub, fun s hs => h.free s ?_⟩
  exact uniqueConditions_subset sub hs

/-- A root that is apart has nothing in common with the groups behind it. -/
theorem commonGroup_rootApart (h : RootApart r group) (filled : group ≠ [])
    (unify : List Item → List Item → Option (List (List Item))) :
    commonGroup unify [.compound r] group = none := by
  have apart := allCompounds_standsApart h.rootless h.free
  refine commonGroup_eq_none ?_ (parentSuperselector_root h.isRoot [] h.rootless) ?_
    (mustUnify_root apart).1
  · rw [equivItems_comm, equivItems_root h.isRoot h.rootless]
  · refine Bool.eq_false_iff.2 fun above => ?_
    obtain ⟨c, upper, rfl, skipped, e, rest, eq, covered⟩ :=
      exists_covered_of_parentSuperselector filled above
    obtain ⟨rfl, rfl⟩ : skipped = [] ∧ r = e := by
      rcases skipped with _ | ⟨first, skipped⟩
      · exact ⟨rfl, Item.compound.inj (List.cons.inj eq).1⟩
      · exact absurd (List.cons.inj eq).2.symm
          (List.append_ne_nil_of_right_ne_nil _ (List.cons_ne_nil _ _))
    have uncovered : covers itemsSuperselector c r [] = false := h.uncovered c List.mem_cons_self
    rw [uncovered] at covered
    cases covered

/-- The root may be put behind all of the row, and the stranger behind that. -/
theorem append_root_mem_middleChoices (apart : RootApart r row) (strange : IsStrangeTo name row)
    (n : ℕ) :
    row ++ [.compound r, .compound [stranger name]] ∈
      rowsOfChoices (middleChoices n row [.compound r, .compound [stranger name]]) := by
  refine append_mem_middleChoices n fun group₂ mem₂ group₁ mem₁ => ?_
  have filled := (isGrouping_groupItems row).filled group₁ mem₁
  have sub : group₁ ⊆ row := fun item hitem => (isGrouping_groupItems row).flatten ▸
    List.mem_flatten_of_mem mem₁ hitem
  have alone : groupItems [.compound r, .compound [stranger name]]
      = [[.compound r], [.compound [stranger name]]] := rfl
  rw [alone] at mem₂
  rcases List.mem_pair.1 mem₂ with rfl | rfl
  · exact commonGroup_rootApart (apart.of_subset sub) filled _
  · exact commonGroup_stranger _ (strange.of_subset sub) filled

/-- **With more behind it than what is tied to the last compound, the root may be put behind
that.** -/
theorem exists_woven_displaced (h : IsOpenRow G (.compound r :: row)) (apart : RootApart r row)
    (strange : IsStrangeTo name (.compound r :: row)) (far : ∀ pairs, row ≠ tiedItems pairs) :
    ∃ found, weaveParents (.compound r :: row) [.compound [stranger name]] = some found ∧
      ∃ init ∈ found, .compound r ∈ init.tail := by
  obtain ⟨rest, pairs, eq, woven⟩ := exists_weaveParents_stranger h strange
  rcases rest with _ | ⟨first, behind⟩
  -- The root is tied to what stands behind it, and the stranger comes first.
  · obtain ⟨found, hfound, mem⟩ := woven [] [.compound [stranger name]] [.compound [stranger name]]
      (shareRoot_stranger name).1 (append_mem_middleChoices _ fun _ _ _ absent => by cases absent)
    refine ⟨found, hfound, _, mem, ?_⟩
    rw [List.singleton_append, List.tail_cons, ← List.nil_append (tiedItems pairs), ← eq]
    exact List.mem_cons_self
  · rw [List.cons_append] at eq
    obtain ⟨rfl, rfl⟩ := List.cons.inj eq
    have filled : behind ≠ [] := by
      rintro rfl
      exact far pairs (List.nil_append _)
    have sub : behind ⊆ behind ++ tiedItems pairs := List.subset_append_left _ _
    obtain ⟨found, hfound, mem⟩ :=
      woven behind _ _ ((shareRoot_stranger name).2 r behind apart.isRoot)
      (append_root_mem_middleChoices (apart.of_subset sub)
        (strange.of_subset (List.subset_cons_of_subset _ sub)) _)
    refine ⟨found, hfound, _, mem, ?_⟩
    rw [List.append_assoc, List.tail_append_of_ne_nil filled]
    exact List.mem_append_right _ List.mem_cons_self

/-- Woven with no parents at all, the stranger stays. -/
theorem exists_woven_alone (name : String) :
    ∃ found, weaveParents [] [.compound [stranger name]] = some found ∧
      [.compound [stranger name]] ∈ found := by
  have strange : IsStrangeTo name [] := fun _ absent => by cases absent
  have isOpen : IsOpenRow (fun _ => True) [] := isOpenRow_nil
  obtain ⟨rest, pairs, eq, woven⟩ := exists_weaveParents_stranger isOpen strange
  obtain ⟨rfl, absent⟩ := List.append_eq_nil_iff.1 eq.symm
  have alone := woven [] _ _ (shareRoot_stranger name).1
    (append_mem_middleChoices _ fun _ _ _ absent => by cases absent)
  rwa [absent, List.nil_append, List.append_nil] at alone

/-- What is woven with the stranger stands before what comes of the last compound and `:is(.y)`. -/
theorem exists_unifyRows_stranger {found : List (List Item)} {init : List Item}
    (h : weaveParents parents [.compound [stranger name]] = some found) (mem : init ∈ found)
    (base : Compound) :
    ∃ rows base', unifyRows [parents ++ [.compound base], strangerRow name] = some rows ∧
      Compound.unify [withinY] base = some base' ∧ init ++ [.compound base'] ∈ rows := by
  obtain ⟨base', unified⟩ := exists_unify_withinY base
  have concat : strangerRow name = [.compound [stranger name]] ++ [.compound [withinY]] := rfl
  refine ⟨found.map (· ++ [.compound base']), base', ?_, unified, List.mem_map_of_mem mem⟩
  rw [concat, unifyRows, unifyRowsWith_concat, unified, h, Option.map_some,
    if_neg (List.cons_ne_nil _ _)]
  rfl

/-- Tied compounds and the end they are tied to make one group. -/
theorem isOneGroup_tiedItems (pairs : List (Compound × Combinator)) (base : Compound) :
    (tiedItems pairs ++ [Item.compound base]).head?.any Item.isCompound = true ∧
      IsOneGroup (tiedItems pairs ++ [.compound base]) := by
  refine ⟨?_, (isOneGroup_concat_iff (isOpenRow_tiedItems pairs)).2 (isPaired_tiedItems pairs)⟩
  cases pairs <;> rfl

/-- **Unless one group stands behind it, the stranger displaces the root.** -/
theorem exists_displaced (closed : IsClosedRow G (.compound r :: rest)) (apart : RootApart r rest)
    (strange : IsStrangeTo name (.compound r :: rest))
    (far : ¬(rest.head?.any Item.isCompound = true ∧ IsOneGroup rest)) :
    ∃ rows, unifyRows [.compound r :: rest, strangerRow name] = some rows ∧
      ∃ row ∈ rows, ∃ c, .compound c ∈ row.tail ∧ Compound.isRoot c = true := by
  obtain ⟨parents, base, eq, isOpen, -⟩ := closed.exists_concat (List.cons_ne_nil _ _)
  rcases parents with _ | ⟨first, row⟩
  · obtain ⟨rfl, rfl⟩ : r = base ∧ rest = [] := by simpa using eq
    obtain ⟨found, hfound, mem⟩ := exists_woven_alone name
    obtain ⟨rows, base, hrows, unified, displaced⟩ := exists_unifyRows_stranger hfound mem r
    exact ⟨rows, hrows, _, displaced, base, List.mem_singleton_self _,
      isRoot_unify apart.isRoot unified⟩
  · rw [List.cons_append] at eq
    obtain ⟨rfl, rfl⟩ := List.cons.inj eq
    have sub : row ⊆ row ++ [.compound base] := List.subset_append_left _ _
    obtain ⟨found, hfound, init, hinit, displaced⟩ :=
      exists_woven_displaced isOpen (apart.of_subset sub)
      (strange.of_subset (List.cons_subset_cons _ sub))
      (fun pairs eq => far (eq ▸ isOneGroup_tiedItems pairs base))
    obtain ⟨rows, base', hrows, -, mem⟩ := exists_unifyRows_stranger hfound hinit base
    refine ⟨rows, hrows, _, mem, r, ?_, apart.isRoot⟩
    rw [List.tail_append_of_ne_nil (fun empty => by rw [empty] at displaced; cases displaced)]
    exact List.mem_append_left _ displaced

end Displaced

/-! ## Selectors -/

/-- Only the first item of the row may be a compound with `:root`. -/
def RootStandsFirst (row : List Item) : Prop := AllCompounds (Compound.isRoot · = false) row.tail

instance decidableRootStandsFirst (row : List Item) : Decidable (RootStandsFirst row) :=
  decidable_of_iff (∀ c ∈ row.tail.filterMap Item.compound?, Compound.isRoot c = false) <| by
    exact forall_congr' fun c => imp_congr_left mem_filterMap_compound?

section Selectors

variable {a b : Complex}

theorem isClosedRow_of_isBogus (h : a.isBogus = false) :
    IsClosedRow (fun _ => True) a.items ∧ a.items ≠ [] :=
  isValidRow_zero.1 (isValidRow_iff.2 ⟨(Bool.or_eq_false_iff.1 h).1, fun _ _ _ _ => trivial⟩)

/-- What holds of all rows that have items holds of all selectors, and the other way round. -/
theorem forall_unify_iff (P : List Item → Prop) :
    (∀ l, a.unify b = some l → ∀ c ∈ l, P c.items) ↔
      ∀ rows, unifyRows [a.items, b.items] = some rows → ∀ row ∈ rows, row ≠ [] → P row := by
  unfold Complex.unify
  rcases unifyRows [a.items, b.items] with _ | found
  · simp
  constructor
  · rintro h rows ⟨⟩ row hrow filled
    have kept : row ∈ found.filter (!·.isEmpty) := List.mem_filter.2 ⟨hrow, by simpa using filled⟩
    refine h ((found.filter (!·.isEmpty)).map (⟨·, false⟩)) ?_ _ (List.mem_map_of_mem kept)
    dsimp only
    split
    · rename_i empty
      rw [empty] at kept
      cases kept
    · rfl
  · intro h l hl c hc
    dsimp only at hl
    split at hl
    · cases hl
    · obtain rfl := Option.some.inj hl
      obtain ⟨row, hrow, rfl⟩ := List.mem_map.1 hc
      obtain ⟨mem, filled⟩ := List.mem_filter.1 hrow
      exact h found rfl row mem (by simpa using filled)

/-- Some pseudo-element has nothing to do with a selector. -/
theorem exists_isStrangeTo (whole : a.isWhole = true) : ∃ name, IsStrangeTo name a.items := by
  -- All conditions together, and a class, so that there is one.
  have together :
      Compound.isWhole (.className "y" :: (a.items.filterMap Item.compound?).flatten) = true := by
    refine Compound.isWhole_iff.2
      ⟨List.cons_ne_nil _ _, List.forall_mem_cons.2 ⟨rfl, fun s hs => ?_⟩⟩
    obtain ⟨c, hc, hs⟩ := List.mem_flatten.1 hs
    have hc' := (Complex.isWhole_iff.1 whole).2 c (mem_filterMap_compound?.1 hc)
    exact (Compound.isWhole_iff.1 hc').2 s hs
  obtain ⟨name, unmet⟩ := exists_unmet_element together
  refine ⟨name, fun c hc => List.any_eq_false.2 fun s hs => List.any_eq_false.1 unmet s ?_⟩
  exact List.mem_cons_of_mem _ (List.mem_flatten.2 ⟨c, mem_filterMap_compound?.2 hc, hs⟩)

/-- **Roots that agree stand first, and a root with more than one group behind it is displaced.** -/
theorem rootStandsFirst_unify (ha : a.isBogus = false) (hb : b.isBogus = false) :
    (RootsAgree a.items b.items → ∀ l, a.unify b = some l → ∀ c ∈ l, RootStandsFirst c.items) ∧
      ∀ r rest, a.isWhole = true → a.items = .compound r :: rest → RootApart r rest →
        ((∀ d : Complex, d.isWhole = true → d.isBogus = false →
          AllCompounds Compound.IsRootless d.items →
            ∀ l, a.unify d = some l → ∀ c ∈ l, RootStandsFirst c.items) ↔
          rest.head?.any Item.isCompound = true ∧ IsOneGroup rest) := by
  have agreeing : ∀ {b : Complex}, b.isBogus = false → RootsAgree a.items b.items →
      ∀ l, a.unify b = some l → ∀ c ∈ l, RootStandsFirst c.items := by
    intro b hb agree
    refine (forall_unify_iff RootStandsFirst).2 fun rows hrows row hrow _ c hc => ?_
    have rootless := isRootlessBehind_of_rootsAgree (isClosedRow_of_isBogus ha)
      (isClosedRow_of_isBogus hb) agree hrows row hrow
    exact (rootless c hc).isRoot_eq_false
  refine ⟨agreeing hb, fun r rest whole eq apart => ⟨fun all => by_contra fun far => ?_, ?_⟩⟩
  · obtain ⟨name, strange⟩ := exists_isStrangeTo whole
    have closed := (isClosedRow_of_isBogus ha).1
    rw [eq] at strange closed
    obtain ⟨rows, hrows, row, hrow, c, hc, isRoot⟩ := exists_displaced closed apart strange far
    have all' := (forall_unify_iff RootStandsFirst).1
      (all ⟨strangerRow name, false⟩ rfl rfl (rootless_strangerRow name))
    rw [eq] at all'
    have first : Compound.isRoot c = false :=
      all' rows hrows row hrow (fun empty => by rw [empty] at hc; cases hc) c hc
    rw [isRoot] at first
    cases first
  · rintro ⟨spaced, one⟩ d - hd rootless
    exact agreeing hd (.first ⟨eq, apart.isRoot, spaced, apart.rootless⟩ one rootless)

/-- What stands behind `:root`. -/
def behindRoot (row : List Item) : Complex := ⟨.compound [.pseudo (.ofClass "root")] :: row, false⟩

/-- `:root .p > .x`. -/
def rootOfTied : Complex :=
  behindRoot [.compound [.className "p"], .combinator .child, .compound [.className "x"]]

/-- `:root.q .y`. -/
def rootOfSpaced : Complex :=
  ⟨[.compound [.pseudo (.ofClass "root"), .className "q"], .compound [.className "y"]], false⟩

/-- Two roots of which one is tied to its end, and any rootless partner. -/
theorem rootStandsFirst_unify_tied :
    rootOfTied.isBogus = false ∧ rootOfSpaced.isBogus = false ∧
      (∃ l, rootOfTied.unify rootOfSpaced = some l ∧ ∀ c ∈ l, RootStandsFirst c.items) ∧
      ∀ d : Complex, d.isWhole = true → d.isBogus = false →
        AllCompounds Compound.IsRootless d.items →
        ∀ l, rootOfTied.unify d = some l → ∀ c ∈ l, RootStandsFirst c.items := by
  have ha : rootOfTied.isBogus = false := by decide +kernel
  have hb : rootOfSpaced.isBogus = false := by decide +kernel
  have rootless : AllCompounds Compound.IsRootless rootOfTied.items.tail ∧
      AllCompounds Compound.IsRootless rootOfSpaced.items.tail := by
    have classes : ∀ name, (Simple.className name).IsRootless := fun _ =>
      Simple.isRootless_of_argument? rfl rfl
    constructor <;>
      simp [AllCompounds, rootOfTied, behindRoot, rootOfSpaced, Compound.IsRootless, classes]
  have apart : RootApart [.pseudo (.ofClass "root")] rootOfTied.items.tail := by
    refine ⟨by decide +kernel, rootless.1, fun c hc => ?_, by decide +kernel⟩
    obtain rfl | rfl : c = [.className "p"] ∨ c = [.className "x"] := by
      simpa [rootOfTied, behindRoot] using hc
    all_goals decide +kernel
  have agree : RootsAgree rootOfTied.items rootOfSpaced.items :=
    .both ⟨rfl, by decide +kernel, by decide +kernel, rootless.1⟩
      ⟨rfl, by decide +kernel, by decide +kernel, rootless.2⟩ (by decide +kernel)
      (by decide +kernel)
      (by decide +kernel)
  obtain ⟨l, hl⟩ : ∃ l, rootOfTied.unify rootOfSpaced = some l :=
    Option.isSome_iff_exists.1 (by decide +kernel)
  obtain ⟨agreeing, displaced⟩ := rootStandsFirst_unify ha hb
  have one : rootOfTied.items.tail.head?.any Item.isCompound = true ∧
      IsOneGroup rootOfTied.items.tail := by
    decide +kernel
  exact ⟨ha, hb, ⟨l, hl, agreeing agree l hl⟩, (displaced _ _ (by decide +kernel) rfl apart).2 one⟩

/-- `:root > .name .last`. -/
def rootOfChild (name last : String) : Complex :=
  behindRoot [.combinator .child, .compound [.className name], .compound [.className last]]

/-- `.b .y`. -/
def spacedB : Complex := ⟨[.compound [.className "b"], .compound [.className "y"]], false⟩

/-- A combinator behind the roots keeps both; a parent behind the only root gets before it; and a
root that is the last compound stays the last one. -/
theorem not_rootStandsFirst_unify_children :
    (∀ c ∈ [rootOfChild "a" "x", rootOfChild "b" "y",
        behindRoot [.compound [.className "a"], .compound [.className "x"]], spacedB,
        behindRoot [], behindRoot [.compound [.className "y"]]],
      c.isBogus = false ∧ RootStandsFirst c.items) ∧
    (((rootOfChild "a" "x").unify (rootOfChild "b" "y")).map (List.map Complex.text) =
        some [":root > .a :root > .b .x.y", ":root > .b :root > .a .x.y"] ∧
      ∀ c ∈ ((rootOfChild "a" "x").unify (rootOfChild "b" "y")).getD [],
        ¬ RootStandsFirst c.items) ∧
    (((behindRoot [.compound [.className "a"], .compound [.className "x"]]).unify spacedB).map
        (List.map Complex.text) = some [".a :root .b .x.y", ":root .b .a .x.y"] ∧
      ∃ c ∈ ((behindRoot [.compound [.className "a"], .compound [.className "x"]]).unify
          spacedB).getD [], ¬ RootStandsFirst c.items) ∧
    ((behindRoot []).unify (behindRoot [.compound [.className "y"]])).map (List.map Complex.text) =
        some [":root .y:root"] ∧
      ∀ c ∈ ((behindRoot []).unify (behindRoot [.compound [.className "y"]])).getD [],
        ¬ RootStandsFirst c.items := by
  refine ⟨?_, ⟨?_, ?_⟩, ⟨?_, ?_⟩, ?_, ?_⟩ <;> decide +kernel

end Selectors

end SelectorAlgebra
