import SelectorAlgebra.Proofs.Interleaving
import SelectorAlgebra.Proofs.TrailingShapes

/-!
# Proofs/ValidWeaving — the shape of woven rows

Weaving keeps combinators in their places: open rows of parents are woven into open rows, and the
result is closed exactly if both rows are (`weaves_weaveParents`).  From there:

* `areClosedRows_of_unifyRowsWith` — closed rows unify to closed rows, unless two of those before
  the last one have a combinator before their last compounds and come to stand one behind the other
  (`collide`);
* `isValidRow_of_mem_weave` — closed rows put in the places of the compounds of a valid row are
  woven into valid rows, behind the combinators that begin it.

The conditions of all rows have a property that element names have and `:root` has not (`IsStable`):
the first because unifying may bring an element name in, the second because `:root` is moved to the
front.
-/

namespace SelectorAlgebra

/-! ## Interleaving -/

section Interleave

variable {G : Simple → Prop} {groups₁ groups₂ common : List (List Item)}

/-- All rows are closed and have something in them. -/
def AreClosedRows (G : Simple → Prop) (rows : List (List Item)) : Prop :=
  ∀ row ∈ rows, IsClosedRow G row ∧ row ≠ []

theorem AreClosedRows.append (h₁ : AreClosedRows G groups₁) (h₂ : AreClosedRows G groups₂) :
    AreClosedRows G (groups₁ ++ groups₂) :=
  List.forall_mem_append.2 ⟨h₁, h₂⟩

/-- Closed rows, at least one, make a closed row. -/
theorem AreClosedRows.flatten (h : AreClosedRows G groups₁) (filled : groups₁ ≠ []) :
    IsClosedRow G groups₁.flatten ∧ groups₁.flatten ≠ [] := by
  refine ⟨isClosedRow_flatten fun group hgroup => (h group hgroup).1, fun empty => ?_⟩
  obtain ⟨group, hgroup⟩ := List.exists_mem_of_ne_nil _ filled
  exact (h group hgroup).2 (List.flatten_eq_nil_iff.1 empty group hgroup)

theorem areClosedRows_groupItems {row : List Item} (h : IsClosedRow G row) :
    AreClosedRows G (groupItems row) :=
  fun _ => isClosedRow_of_mem_groupItems h

/-- The orders of two runs, not both empty. -/
theorem mem_runOrders {row : List Item} (h : row ∈ runOrders groups₁ groups₂) :
    groups₁ ++ groups₂ ≠ [] ∧
      (row = (groups₁ ++ groups₂).flatten ∨ row = (groups₂ ++ groups₁).flatten) := by
  rcases groups₁ with _ | ⟨g₁, groups₁⟩ <;> rcases groups₂ with _ | ⟨g₂, groups₂⟩
  · cases h
  all_goals simpa [runOrders] using h

/-- Both orders are closed. -/
theorem areClosedRows_runOrders (h₁ : AreClosedRows G groups₁) (h₂ : AreClosedRows G groups₂) :
    AreClosedRows G (runOrders groups₁ groups₂) := by
  intro row hrow
  obtain ⟨filled, rfl | rfl⟩ := mem_runOrders hrow
  · exact (h₁.append h₂).flatten filled
  · refine (h₂.append h₁).flatten fun empty => filled ?_
    rw [List.append_eq_nil_iff] at empty ⊢
    exact empty.symm

theorem runOrders_ne_nil (h : groups₂ ≠ []) : runOrders groups₁ groups₂ ≠ [] := by
  rcases groups₁ with _ | ⟨g₁, groups₁⟩ <;> rcases groups₂ with _ | ⟨g₂, groups₂⟩
  · exact absurd rfl h
  all_goals simp [runOrders]

/-- Between common groups, the choices are orders of groups. -/
theorem areClosedRows_of_mem_interleave (hc : AreClosedRows G common)
    (h₁ : AreClosedRows G groups₁) (h₂ : AreClosedRows G groups₂) :
    ∀ choice ∈ interleave common groups₁ groups₂, AreClosedRows G choice := by
  induction common generalizing groups₁ groups₂ with
  | nil =>
    rw [interleave, List.forall_mem_singleton]
    exact areClosedRows_runOrders h₁ h₂
  | cons group common ih =>
    have take : ∀ {groups} p, AreClosedRows G groups → AreClosedRows G (groups.takeWhile p) :=
      fun p h g hg => h g (List.takeWhile_subset p hg)
    have drop : ∀ {groups} p, AreClosedRows G groups → AreClosedRows G (groups.dropWhile p).tail :=
      fun p h g hg => h g (List.dropWhile_subset p (List.mem_of_mem_tail hg))
    rw [AreClosedRows, List.forall_mem_cons] at hc
    rw [interleave, List.forall_mem_cons, List.forall_mem_cons]
    exact ⟨areClosedRows_runOrders (take _ h₁) (take _ h₂), List.forall_mem_singleton.2 hc.1,
      ih hc.2 (drop _ h₁) (drop _ h₂)⟩

/-- There is something to pick when one side has groups. -/
theorem exists_filled_of_interleave (h : groups₂ ≠ []) :
    ∃ choice ∈ interleave common groups₁ groups₂, choice ≠ [] := by
  cases common with
  | nil => exact ⟨_, List.mem_singleton_self _, runOrders_ne_nil h⟩
  | cons group common => exact ⟨[group], by simp [interleave], by simp⟩

end Interleave

/-! ## The rows of choices -/

section Rows

variable {G : Simple → Prop} {middle trailing : List (List (List Item))} {row : List Item}

/-- A row is picked by picking from each choice that is not empty. -/
theorem mem_rowsOfChoices {choices : List (List (List Item))} :
    row ∈ rowsOfChoices choices ↔
      ∃ selection, List.Forall₂ (· ∈ ·) selection (choices.filter (!·.isEmpty)) ∧
        selection.flatten = row := by
  simp only [rowsOfChoices, List.mem_map, mem_selections]

/-- Picking from two runs of choices is picking from each. -/
theorem mem_rowsOfChoices_append {choices choices' : List (List (List Item))}
    (h : row ∈ rowsOfChoices (choices ++ choices')) :
    ∃ start ∈ rowsOfChoices choices, ∃ rest ∈ rowsOfChoices choices', row = start ++ rest := by
  obtain ⟨selection, picked, rfl⟩ := mem_rowsOfChoices.1 h
  rw [List.filter_append] at picked
  refine ⟨_, mem_rowsOfChoices.2 ⟨_, List.forall₂_take_append _ _ _ picked, rfl⟩, _,
    mem_rowsOfChoices.2 ⟨_, List.forall₂_drop_append _ _ _ picked, rfl⟩, ?_⟩
  rw [← List.flatten_append, List.take_append_drop]

/-- Groups give closed rows, with something in them if there is anything to choose from. -/
theorem isClosedRow_of_mem_rowsOfChoices (hm : ∀ choice ∈ middle, AreClosedRows G choice)
    (h : row ∈ rowsOfChoices middle) :
    IsClosedRow G row ∧ ((∃ choice ∈ middle, choice ≠ []) → row ≠ []) := by
  obtain ⟨selection, picked, rfl⟩ := mem_rowsOfChoices.1 h
  have groups : AreClosedRows G selection := by
    intro option hoption
    obtain ⟨choice, hchoice, mem⟩ := exists_mem_of_forall₂ picked hoption
    exact hm choice (List.mem_of_mem_filter hchoice) option mem
  refine ⟨isClosedRow_flatten fun option hoption => (groups option hoption).1, ?_⟩
  rintro ⟨choice, hchoice, filled⟩
  obtain ⟨option, hoption, -⟩ := exists_mem_of_forall₂ picked.flip
    (List.mem_filter.2 ⟨hchoice, by simpa using filled⟩)
  exact (groups.flatten (List.ne_nil_of_mem hoption)).2

/-- Trailing choices give rows that end in a combinator, if there are any. -/
theorem isJoinedRow_of_mem_rowsOfChoices (ht : ∀ choice ∈ trailing, IsTrailing G choice)
    (h : row ∈ rowsOfChoices trailing) :
    (trailing = [] ∧ row = []) ∨ (trailing ≠ [] ∧ IsJoinedRow G row) := by
  induction trailing generalizing row with
  | nil => exact .inl ⟨rfl, by simpa [rowsOfChoices, selections] using h⟩
  | cons choice trailing ih =>
    rw [List.forall_mem_cons] at ht
    rcases mem_rowsOfChoices_cons h with ⟨empty, -⟩ | ⟨option, hoption, rest, hrest, rfl⟩
    · exact absurd empty ht.1.filled
    · refine .inr ⟨by simp, ?_⟩
      have first := ht.1.joined option hoption
      rcases ih ht.2 hrest with ⟨-, rfl⟩ | ⟨-, joined⟩
      · rwa [List.append_nil]
      · exact joined.append_left first.toIsOpenRow

end Rows

/-! ## Two rows of parents -/

/-- A property of conditions that element names have and `:root` has not. -/
structure IsStable (G : Simple → Prop) : Prop where
  element : ∀ s, s.isUniversalOrType = true → G s
  rootless : ∀ p : Pseudo, G (.pseudo p) → p.isRoot = false

/-- The row has the shape that weaving `parents₂` into `parents₁` should give. -/
structure IsWoven (G : Simple → Prop) (parents₁ parents₂ row : List Item) : Prop where
  isOpen : IsOpenRow G row
  closed_iff : IsClosedRow G row ↔ IsClosedRow G parents₁ ∧ IsClosedRow G parents₂
  filled : parents₂ ≠ [] → row ≠ []

/-- Open rows are woven into rows of the right shape, and combinators before the first one stay
there. -/
def Weaves (G : Simple → Prop) (merge : List Item → List Item → Option (List (List Item))) : Prop :=
  ∀ (lead : List Combinator) parents₁ parents₂ rows, IsOpenRow G parents₁ → IsOpenRow G parents₂ →
    merge (lead.map .combinator ++ parents₁) parents₂ = some rows →
    ∀ row ∈ rows, ∃ body, row = lead.map .combinator ++ body ∧ IsWoven G parents₁ parents₂ body

section Weaves

variable {G : Simple → Prop} {merge : List Item → List Item → Option (List (List Item))}

/-- Without a second row of parents nothing changes. -/
theorem isWoven_nil {row : List Item} (h : IsOpenRow G row) : IsWoven G row [] row :=
  ⟨h, by simp [isClosedRow_nil], fun empty => absurd rfl empty⟩

/-- A row woven into others: its last item stands behind its parents and what there was. -/
theorem exists_isWoven_of_mem_weaveRow (hm : Weaves G merge) (lead : List Combinator)
    {woven : List (List Item)}
    (hw : ∀ row ∈ woven, ∃ body, row = lead.map .combinator ++ body ∧ IsOpenRow G body)
    {parents : List Item} (hp : IsOpenRow G parents) {target : Item} {row : List Item}
    (h : row ∈ weaveRow merge woven (parents ++ [target])) :
    ∃ before, lead.map .combinator ++ before ∈ woven ∧
      ∃ init, row = lead.map .combinator ++ (init ++ [target]) ∧ IsWoven G before parents init := by
  rw [weaveRow, List.getLast?_concat, List.dropLast_concat] at h
  rcases parents with _ | ⟨item, parents⟩
  · obtain ⟨before, hb, rfl⟩ := List.mem_map.1 h
    obtain ⟨body, rfl, hbody⟩ := hw before hb
    exact ⟨body, hb, body, List.append_assoc .., isWoven_nil hbody⟩
  · obtain ⟨before, hb, h⟩ := List.mem_flatMap.1 h
    obtain ⟨body, rfl, hbody⟩ := hw before hb
    obtain ⟨whole, hwhole, rfl⟩ := List.mem_map.1 h
    cases hrows : merge (lead.map .combinator ++ body) (item :: parents) with
    | none => simp [hrows] at hwhole
    | some rows =>
      rw [hrows] at hwhole
      obtain ⟨init, rfl, shape⟩ := hm lead body _ rows hbody hp hrows whole hwhole
      exact ⟨body, hb, init, List.append_assoc .., shape⟩

/-- Whether the row ends in a combinator. -/
def endsJoined (row : List Item) : Bool := row.getLast?.any Item.isCombinator

/-- An open row that does not end in a combinator is closed. -/
theorem IsOpenRow.isClosedRow {row : List Item} (h : IsOpenRow G row)
    (ends : endsJoined row = false) : IsClosedRow G row := by
  refine ⟨h, fun item hitem => ?_⟩
  rw [endsJoined, Option.mem_def.1 hitem] at ends
  cases item with
  | compound c => rfl
  | combinator k => cases ends

/-- Whether a row that ends in a combinator comes behind one that does, `joined` telling it of the
row before the first one.  Rows without items do not count. -/
def collideBehind : Bool → List (List Item) → Bool
  | _, [] => false
  | joined, [] :: rows => collideBehind joined rows
  | joined, (item :: row) :: rows =>
    joined && endsJoined (item :: row) || collideBehind (endsJoined (item :: row)) rows

/-- Whether combinators come to stand side by side when the rows are unified: of two rows other than
the last one, both end in a combinator before their last compound. -/
def collide (rows : List (List Item)) : Bool :=
  collideBehind false (rows.dropLast.map List.dropLast)

/-- The rows woven so far are open, and closed unless the last one ended in a combinator. -/
def AreWoven (G : Simple → Prop) (joined : Bool) (woven : List (List Item)) : Prop :=
  ∀ row ∈ woven, IsOpenRow G row ∧ (joined = false → IsClosedRow G row)

theorem areWoven_singleton {row : List Item} (h : IsOpenRow G row) :
    AreWoven G (endsJoined row) [row] := by
  rw [AreWoven, List.forall_mem_singleton]
  exact ⟨h, h.isClosedRow⟩

theorem collideBehind_false_cons (row : List Item) (rows : List (List Item)) :
    collideBehind false (row :: rows) = collideBehind (endsJoined row) rows := by
  cases row <;> simp [collideBehind, endsJoined]

theorem collideBehind_of_unjoined {joined : Bool} {rows : List (List Item)}
    (h : ∀ row ∈ rows, endsJoined row = false) : collideBehind joined rows = false := by
  induction rows generalizing joined with
  | nil => rfl
  | cons row rows ih =>
    rw [List.forall_mem_cons] at h
    cases row with
    | nil => exact ih h.2
    | cons item row => rw [collideBehind, h.1, Bool.and_false, Bool.false_or, ih h.2]

/-- Rows whose parents end in compounds do not collide. -/
theorem collide_of_unjoined {rows : List (List Item)}
    (h : ∀ row ∈ rows, endsJoined row.dropLast = false) : collide rows = false := by
  refine collideBehind_of_unjoined fun parents hparents => ?_
  obtain ⟨row, hrow, rfl⟩ := List.mem_map.1 hparents
  exact h row (List.mem_of_mem_dropLast hrow)

/-- Nor do two rows. -/
theorem collide_of_length_le {rows : List (List Item)} (h : rows.length ≤ 2) :
    collide rows = false := by
  rcases rows with _ | ⟨row, _ | ⟨row', _ | ⟨_, _⟩⟩⟩
  · rfl
  · rfl
  · simp [collide, collideBehind_false_cons, collideBehind]
  · simp at h

theorem collide_cons_compound (c : Compound) (rows : List (List Item)) :
    collide ([.compound c] :: rows) = collide rows := by
  cases rows <;> rfl

/-- One row of parents is woven onto those before, unless both end in a combinator. -/
theorem areWoven_weaveRow (hm : Weaves G merge) {joined : Bool} {woven : List (List Item)}
    (hw : AreWoven G joined woven) {parents : List Item} (hp : IsOpenRow G parents)
    (filled : parents ≠ []) (calm : (joined && endsJoined parents) = false) :
    AreWoven G (endsJoined parents) (weaveRow merge woven parents) := by
  have isOpen : ∀ row ∈ woven, ∃ body, row = [].map .combinator ++ body ∧ IsOpenRow G body :=
    fun row hrow => ⟨row, rfl, (hw row hrow).1⟩
  intro row hrow
  rcases hp.cases_last with rfl | ⟨init, c, rfl, hinit, hc⟩ | ⟨init, c, k, rfl, hinit, hc⟩
  · exact absurd rfl filled
  · obtain ⟨before, -, init', rfl, shape⟩ := exists_isWoven_of_mem_weaveRow hm [] isOpen hinit hrow
    have closed := shape.isOpen.concat hc
    exact ⟨closed.toIsOpenRow, fun _ => closed⟩
  · -- what there was has to be closed for a combinator to stand behind it
    have closed := hinit.concat hc
    rw [List.append_cons] at hrow calm ⊢
    obtain ⟨before, mem, init', rfl, shape⟩ := exists_isWoven_of_mem_weaveRow hm [] isOpen
      closed.toIsOpenRow hrow
    have joined : joined = false := by simpa [endsJoined, Item.isCombinator] using calm
    have whole := shape.closed_iff.2 ⟨(hw before mem).2 joined, closed⟩
    refine ⟨whole.concat_combinator (shape.filled (by simp)) k, fun ends => ?_⟩
    simp [endsJoined, Item.isCombinator] at ends

/-- All rows of parents, as long as they do not collide. -/
theorem isOpenRow_of_mem_foldl_weaveRow (hm : Weaves G merge) {parents : List (List Item)}
    {joined : Bool} {woven : List (List Item)} (hw : AreWoven G joined woven)
    (hp : ∀ row ∈ parents, IsOpenRow G row) (calm : collideBehind joined parents = false) :
    ∀ row ∈ parents.foldl (weaveRow merge) woven, IsOpenRow G row := by
  induction parents generalizing joined woven with
  | nil => exact fun row hrow => (hw row hrow).1
  | cons first parents ih =>
    rw [List.forall_mem_cons] at hp
    rcases first with _ | ⟨item, first⟩
    · exact ih hw hp.2 calm
    · rw [collideBehind, Bool.or_eq_false_iff] at calm
      exact ih (areWoven_weaveRow hm hw hp.1 (by simp) calm.1) hp.2 calm.2

theorem withBase_concat (base : Compound) (rows : List (List Item)) (last : List Item) :
    withBase base (rows ++ [last])
      = rows.map List.dropLast ++ [last.dropLast ++ [.compound base]] := by
  induction rows with
  | nil => rfl
  | cons row rows ih =>
    cases rows with
    | nil => rfl
    | cons next rows => exact congrArg (row.dropLast :: ·) ih

theorem forall_mem_baseOfRow {row : List Item} (h : IsOpenRow G row) {c : Compound}
    (hc : baseOfRow row = some c) : ∀ s ∈ c, G s := by
  obtain ⟨item, hitem, hc⟩ := Option.bind_eq_some_iff.1 hc
  cases item with
  | compound d =>
    obtain rfl : d = c := Option.some.inj hc
    exact h.conditions d (List.mem_of_getLast? hitem)
  | combinator k => cases hc

/-- The end compounds are unified one after another; the property is carried along. -/
theorem forall_mem_foldlM_unify (element : ∀ s, s.isUniversalOrType = true → G s)
    {rows : List (List Item)} (hr : ∀ row ∈ rows, IsOpenRow G row) {found base : Compound}
    (hfound : ∀ s ∈ found, G s)
    (h : rows.foldlM (fun found row => do Compound.unify (← baseOfRow row) found) found
      = some base) : ∀ s ∈ base, G s := by
  induction rows generalizing found with
  | nil =>
    obtain rfl : found = base := Option.some.inj h
    exact hfound
  | cons row rows ih =>
    rw [List.forall_mem_cons] at hr
    simp only [List.foldlM_cons, Option.bind_eq_bind, Option.bind_eq_some_iff] at h
    obtain ⟨next, ⟨c, hc, hnext⟩, h⟩ := h
    exact ih hr.2 (forall_mem_unify element (forall_mem_baseOfRow hr.1 hc) hfound hnext) h

theorem forall_mem_unifyBases (element : ∀ s, s.isUniversalOrType = true → G s)
    {rows : List (List Item)} (hr : ∀ row ∈ rows, IsOpenRow G row) {base : Compound}
    (h : unifyBases rows = some base) : ∀ s ∈ base, G s := by
  cases rows with
  | nil => cases h
  | cons first rows =>
    rw [List.forall_mem_cons] at hr
    obtain ⟨c, hc, h⟩ := Option.bind_eq_some_iff.1 h
    exact forall_mem_foldlM_unify element hr.2 (forall_mem_baseOfRow hr.1 hc) h

/-- **Closed rows unify to closed rows**, unless combinators come to stand side by side. -/
theorem areClosedRows_of_unifyRowsWith (element : ∀ s, s.isUniversalOrType = true → G s)
    (hm : Weaves G merge) {rows found : List (List Item)} (hr : AreClosedRows G rows)
    (calm : collide rows = false) (h : unifyRowsWith merge rows = some found) :
    AreClosedRows G found := by
  have parents : ∀ row ∈ rows, IsOpenRow G row.dropLast :=
    fun row hrow => (hr row hrow).1.toIsOpenRow.of_prefix (List.dropLast_prefix row)
  unfold unifyRowsWith at h
  split at h
  · rename_i row
    obtain rfl := Option.some.inj h
    exact hr
  · obtain ⟨base, hbase, rfl⟩ := Option.map_eq_some_iff.1 h
    have conditions := forall_mem_unifyBases element (fun row hrow => (hr row hrow).1.toIsOpenRow)
      hbase
    rcases List.eq_nil_or_concat rows with rfl | ⟨rows, last, rfl⟩
    · cases hbase
    rw [List.concat_eq_append] at *
    rcases rows with _ | ⟨first, rows⟩
    · rename_i several
      exact absurd rfl (several last)
    rw [List.forall_mem_append, List.forall_mem_cons, List.forall_mem_singleton] at parents
    obtain ⟨⟨hfirst, hrows⟩, hlast⟩ := parents
    intro row hrow
    rw [withBase_concat, List.map_cons, List.cons_append, weaveWith, List.foldl_append,
      List.foldl_cons, List.foldl_nil] at hrow
    rw [collide, List.dropLast_concat, List.map_cons, collideBehind_false_cons] at calm
    have woven := isOpenRow_of_mem_foldl_weaveRow hm (areWoven_singleton hfirst)
      (by simpa using hrows) calm
    obtain ⟨before, -, init, rfl, shape⟩ := exists_isWoven_of_mem_weaveRow hm []
      (fun row hrow => ⟨row, rfl, woven row hrow⟩) hlast hrow
    exact ⟨shape.isOpen.concat conditions, by simp⟩

/-- What stands for two closed groups is a closed group. -/
theorem isClosedRow_of_commonGroup (element : ∀ s, s.isUniversalOrType = true → G s)
    (hm : Weaves G merge) {group₁ group₂ group : List Item}
    (h₁ : IsClosedRow G group₁ ∧ group₁ ≠ []) (h₂ : IsClosedRow G group₂ ∧ group₂ ≠ [])
    (h : commonGroup (fun group₁ group₂ => unifyRowsWith merge [group₁, group₂]) group₁ group₂
      = some group) : IsClosedRow G group ∧ group ≠ [] := by
  unfold commonGroup at h
  split at h
  · exact Option.some.inj h ▸ h₁
  split at h
  · cases h
  split at h
  · exact Option.some.inj h ▸ h₂
  split at h
  · exact Option.some.inj h ▸ h₁
  split at h
  · split at h
    · rename_i unified hunified
      obtain rfl := Option.some.inj h
      have both : AreClosedRows G [group₁, group₂] := by
        rw [AreClosedRows, List.forall_mem_cons, List.forall_mem_singleton]
        exact ⟨h₁, h₂⟩
      have calm : collide [group₁, group₂] = false := by
        simp [collide, collideBehind_false_cons, collideBehind]
      exact areClosedRows_of_unifyRowsWith element hm both calm hunified unified
        (List.mem_singleton_self _)
    · cases h
  · cases h

end Weaves

theorem startCombinators_lead {body : List Item}
    (head : ∀ item ∈ body.head?, item.isCompound = true) (lead : List Combinator) :
    startCombinators (lead.map .combinator ++ body) = lead := by
  rw [startCombinators, takeWhile_isCombinator_lead head, List.filterMap_map]
  exact List.filterMap_some

/-- Sound conditions include no root. -/
theorem splitRoot_of_stable {G : Simple → Prop} (hG : IsStable G) {row : List Item}
    (h : IsOpenRow G row) : splitRoot row = (none, row) := by
  rcases row with _ | ⟨c | k, row⟩
  · rfl
  · have rootless : Compound.isRoot c = false := by
      rw [Compound.isRoot, List.any_eq_false]
      intro s hs
      have hs := h.conditions c List.mem_cons_self s hs
      cases s with
      | pseudo p => simpa using hG.rootless p hs
      | _ => simp
    rw [splitRoot, rootless]
    rfl
  · rfl

/-- One level of weaving two rows of parents. -/
theorem Weaves.succ {G : Simple → Prop} (hG : IsStable G) {n : ℕ}
    (hm : Weaves G (weaveParentsWithin n)) : Weaves G (weaveParentsWithin (n + 1)) := by
  intro lead parents₁ parents₂ rows h₁ h₂ h row hrow
  have start₂ : startCombinators parents₂ = [] := startCombinators_lead h₂.head []
  have body₂ : parents₂.dropWhile Item.isCombinator = parents₂ :=
    dropWhile_isCombinator_lead h₂.head []
  simp only [weaveParentsWithin, startCombinators_lead h₁.head, start₂,
    dropWhile_isCombinator_lead h₁.head, body₂, mergeCombinators_nil, Option.bind_eq_bind,
    Option.bind_eq_some_iff] at h
  obtain ⟨leading, hlead, ⟨trailing, row₁, row₂⟩, htrailing, ⟨row₁', row₂'⟩, hroot, h⟩ := h
  obtain rfl : lead = leading := Option.some.inj hlead
  have split := isSplit_mergeTrailing hG.element h₁ h₂ htrailing
  have shared : shareRoot row₁ row₂ = some (row₁, row₂) := by
    rw [shareRoot, splitRoot_of_stable hG split.closed₁.toIsOpenRow,
      splitRoot_of_stable hG split.closed₂.toIsOpenRow]
  obtain ⟨rfl, rfl⟩ : row₁ = row₁' ∧ row₂ = row₂' := by simpa using shared.symm.trans hroot
  obtain rfl := Option.some.inj h
  rcases mem_rowsOfChoices_cons hrow with ⟨empty, -⟩ | ⟨option, hoption, body, hbody, rfl⟩
  · cases empty
  obtain rfl := List.mem_singleton.1 hoption
  refine ⟨body, rfl, ?_⟩
  obtain ⟨middle, hmiddle, rest, hrest, rfl⟩ := mem_rowsOfChoices_append hbody
  have groups₁ := areClosedRows_groupItems split.closed₁
  have groups₂ := areClosedRows_groupItems split.closed₂
  have common := forall_mem_commonSubsequence (P := fun group => IsClosedRow G group ∧ group ≠ [])
    fun group₂ mem₂ group₁ mem₁ group h =>
      isClosedRow_of_commonGroup hG.element hm (groups₂ group₂ mem₂) (groups₁ group₁ mem₁) h
  obtain ⟨closed, filled⟩ := isClosedRow_of_mem_rowsOfChoices
    (areClosedRows_of_mem_interleave common groups₁ groups₂) hmiddle
  rcases isJoinedRow_of_mem_rowsOfChoices split.trailing hrest with ⟨rfl, rfl⟩ | ⟨nonempty, joined⟩
  · rw [List.append_nil]
    obtain ⟨rfl, rfl⟩ := split.whole rfl
    refine ⟨closed.toIsOpenRow, ⟨fun _ => split.none_iff.1 rfl, fun _ => closed⟩, fun hp => ?_⟩
    refine filled (exists_filled_of_interleave fun empty => hp ?_)
    rw [← (isGrouping_groupItems row₂).flatten, empty, List.flatten_nil]
  · have whole := joined.append_left closed.toIsOpenRow
    refine ⟨whole.toIsOpenRow, ⟨fun h => absurd h whole.not_isClosedRow, fun h => ?_⟩,
      fun _ empty => ?_⟩
    · exact absurd (split.none_iff.2 h) nonempty
    · obtain ⟨init, k, eq⟩ := whole.joined
      rw [empty] at eq
      exact absurd eq (by simp)

/-- **Open rows of parents are woven into open rows**, which are closed exactly if both are. -/
theorem weaves_weaveParentsWithin {G : Simple → Prop} (hG : IsStable G) (n : ℕ) :
    Weaves G (weaveParentsWithin n) := by
  induction n with
  | zero =>
    intro lead parents₁ parents₂ rows _ _ h
    cases h
  | succ n ih => exact ih.succ hG

/-- **Weaving two rows of parents gives open rows.** -/
theorem weaves_weaveParents {G : Simple → Prop} (hG : IsStable G) : Weaves G weaveParents :=
  fun lead parents₁ parents₂ rows => weaves_weaveParentsWithin hG _ lead parents₁ parents₂ rows

/-! ## The items of a selector, each with a row in its place -/

/-- What may stand in the place of an item: a closed row for a compound, and a combinator for
itself. -/
inductive StandsFor (G : Simple → Prop) : Item → List Item → Prop
  | combinator (k : Combinator) : StandsFor G (.combinator k) [.combinator k]
  | compound (c : Compound) {row : List Item} :
    IsClosedRow G row → row ≠ [] → StandsFor G (.compound c) row

/-- What is woven from the first items of a row: the combinators that begin it, and an open row,
which is closed if the last of the items is a compound. -/
def AreLed (G : Simple → Prop) (lead : List Combinator) (last : Item) (woven : List (List Item)) :
    Prop :=
  ∀ row ∈ woven, ∃ body, row = lead.map .combinator ++ body ∧ IsOpenRow G body ∧
    (last.isCompound = true → IsClosedRow G body ∧ body ≠ [])

section Led

variable {G : Simple → Prop} {merge : List Item → List Item → Option (List (List Item))}
  {lead : List Combinator} {woven : List (List Item)}

/-- A closed row is woven on behind the leading combinators. -/
theorem areLed_weaveRow_compound (hm : Weaves G merge)
    (hw : ∀ row ∈ woven, ∃ body, row = lead.map .combinator ++ body ∧ IsOpenRow G body)
    {row : List Item} (closed : IsClosedRow G row) (filled : row ≠ []) (c : Compound) :
    AreLed G lead (.compound c) (weaveRow merge woven row) := by
  obtain ⟨parents, base, rfl, hparents, hbase⟩ := closed.exists_concat filled
  intro row hrow
  obtain ⟨before, -, init, rfl, shape⟩ := exists_isWoven_of_mem_weaveRow hm lead hw hparents hrow
  have whole := shape.isOpen.concat hbase
  exact ⟨_, rfl, whole.toIsOpenRow, fun _ => ⟨whole, by simp⟩⟩

/-- One more item. -/
theorem areLed_weaveRow (hm : Weaves G merge) {last item : Item} (hw : AreLed G lead last woven)
    (beside : Item.Beside last item) {row : List Item} (h : StandsFor G item row) :
    AreLed G lead item (weaveRow merge woven row) := by
  cases h with
  | compound c closed filled =>
    refine areLed_weaveRow_compound hm (fun row hrow => ?_) closed filled c
    obtain ⟨body, eq, isOpen, -⟩ := hw row hrow
    exact ⟨body, eq, isOpen⟩
  | combinator k =>
    intro row hrow
    obtain ⟨before, mem, rfl⟩ := List.mem_map.1 hrow
    obtain ⟨body, rfl, -, ends⟩ := hw before mem
    obtain ⟨closed, filled⟩ := ends (beside.resolve_right Bool.false_ne_true)
    exact ⟨body ++ [.combinator k], List.append_assoc .., closed.concat_combinator filled k,
      fun h => absurd h Bool.false_ne_true⟩

/-- All further items. -/
theorem areLed_foldl_weaveRow (hm : Weaves G merge) {last : Item} {items : List Item}
    (hw : AreLed G lead last woven) (chain : (last :: items).IsChain Item.Beside)
    {rows : List (List Item)} (h : List.Forall₂ (StandsFor G) items rows) :
    AreLed G lead ((last :: items).getLast (by simp)) (rows.foldl (weaveRow merge) woven) := by
  induction h generalizing last woven with
  | nil => exact hw
  | cons first _ ih =>
    rw [List.isChain_cons_cons] at chain
    rw [List.getLast_cons_cons]
    exact ih (areLed_weaveRow hm hw chain.1 first) chain.2

/-- Combinators before the first compound are only put in. -/
theorem foldl_weaveRow_combinators (merge : List Item → List Item → Option (List (List Item)))
    (ks : List Combinator) (row : List Item) :
    (ks.map fun k => [Item.combinator k]).foldl (weaveRow merge) [row]
      = [row ++ ks.map .combinator] := by
  induction ks generalizing row with
  | nil => simp
  | cons k ks ih =>
    have step := ih (row ++ [.combinator k])
    rwa [List.append_assoc, List.singleton_append] at step

theorem eq_map_of_standsFor {ks : List Combinator} {rows : List (List Item)}
    (h : List.Forall₂ (StandsFor G) (ks.map .combinator) rows) :
    rows = ks.map fun k => [.combinator k] := by
  induction ks generalizing rows with
  | nil => exact List.forall₂_nil_left_iff.1 h
  | cons k ks ih =>
    obtain ⟨row, rows, first, rest, rfl⟩ := List.forall₂_cons_left_iff.1 h
    cases first
    rw [ih rest]
    rfl

/-- What is woven up to the first compound. -/
theorem exists_areLed_weaveWith (hm : Weaves G merge) (lead : List Combinator) {c : Compound}
    {first : List Item} (h : StandsFor G (.compound c) first) (rows : List (List Item)) :
    ∃ woven, AreLed G lead (.compound c) woven ∧
      weaveWith merge ((lead.map fun k => [.combinator k]) ++ first :: rows)
        = rows.foldl (weaveRow merge) woven := by
  obtain ⟨closed, filled⟩ : IsClosedRow G first ∧ first ≠ [] := by
    cases h with
    | compound _ closed filled => exact ⟨closed, filled⟩
  cases lead with
  | nil =>
    refine ⟨[first], ?_, rfl⟩
    rw [AreLed, List.forall_mem_singleton]
    exact ⟨first, rfl, closed.toIsOpenRow, fun _ => ⟨closed, filled⟩⟩
  | cons k ks =>
    have front : ∀ row ∈ [(k :: ks).map Item.combinator],
        ∃ body, row = (k :: ks).map .combinator ++ body ∧ IsOpenRow G body := by
      rw [List.forall_mem_singleton]
      exact ⟨[], (List.append_nil _).symm, isOpenRow_nil⟩
    refine ⟨_, areLed_weaveRow_compound hm front closed filled c, ?_⟩
    rw [List.map_cons, List.cons_append, weaveWith, List.foldl_append, foldl_weaveRow_combinators]
    rfl

/-- **Closed rows in the places of the compounds of a valid row are woven into valid rows.** -/
theorem isValidRow_of_mem_weave (hG : IsStable G) {n : ℕ} {items : List Item}
    (hi : IsValidRow G n items) {rows : List (List Item)}
    (h : List.Forall₂ (StandsFor G) items rows) : ∀ row ∈ weave rows, IsValidRow G n row := by
  have hm := weaves_weaveParents hG
  obtain ⟨lead, body, rfl, short, closed, filled⟩ := hi
  have front := (List.forall₂_take_append _ _ _ h.flip).flip
  have behind := (List.forall₂_drop_append _ _ _ h.flip).flip
  rw [← List.take_append_drop (lead.map Item.combinator).length rows, eq_map_of_standsFor front]
  rcases body with _ | ⟨c | k, body⟩
  · exact absurd rfl filled
  · obtain ⟨first, rest, hfirst, hrest, eq⟩ := List.forall₂_cons_left_iff.1 behind
    obtain ⟨woven, led, eq'⟩ := exists_areLed_weaveWith hm lead hfirst rest
    rw [eq, weave, eq']
    intro row hrow
    obtain ⟨whole, rfl, -, ends⟩ := areLed_foldl_weaveRow hm led closed.beside hrest row hrow
    obtain ⟨hwhole, nonempty⟩ := ends (closed.last _ (List.getLast_mem_getLast? _))
    exact ⟨lead, whole, rfl, short, hwhole, nonempty⟩
  · exact absurd (closed.head (.combinator k) rfl) Bool.false_ne_true

end Led

end SelectorAlgebra
