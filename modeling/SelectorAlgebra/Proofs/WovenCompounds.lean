import SelectorAlgebra.Proofs.ValidWeaving

/-!
# Proofs/WovenCompounds — where the compounds of a woven row come from

Weaving takes rows apart, moves what is in them and puts it together again, but the only compounds
it makes itself are unifications.  So a property that unifying two compounds keeps goes from the
compounds of all rows to those of every row that they

* `allCompounds_of_mem_weave` — are woven into;
* `allCompounds_of_unifyRows` — unify to.

Nothing is asked of the rows: combinators may stand anywhere in them.  The properties in
view are those of `IsFilled`: there is a condition, and all conditions have some property
that element names have.
-/

namespace SelectorAlgebra

variable {P : Compound → Prop}

/-- Every compound of the row has the property. -/
def AllCompounds (P : Compound → Prop) (row : List Item) : Prop := ∀ c, Item.compound c ∈ row → P c

/-- Compounds with the property unify to compounds with the property. -/
def UnifyKeeps (P : Compound → Prop) : Prop :=
  ∀ c₁ c₂ c, P c₁ → P c₂ → Compound.unify c₁ c₂ = some c → P c

/-! ## Conditions that are there -/

/-- There is a condition, and all conditions have the property. -/
def IsFilled (G : Simple → Prop) (c : Compound) : Prop := c ≠ [] ∧ ∀ s ∈ c, G s

section Filled

variable {s : Simple} {c c₁ c₂ found : Compound} {p : Pseudo}

/-- Inserting a pseudo leaves at least the pseudo. -/
theorem insertPseudo_ne_nil (h : insertPseudo p c = some found) : found ≠ [] := by
  unfold insertPseudo at h
  split at h
  · rename_i mem
    obtain rfl := Option.some.inj h
    rintro rfl
    cases mem
  split at h
  · rename_i elements
    split at h
    · cases h
    · obtain rfl := Option.some.inj h
      obtain ⟨s, hs, -⟩ := List.any_eq_true.1 elements
      intro nothing
      have empty := List.flatMap_eq_nil_iff.1 nothing s hs
      split at empty <;> cases empty
  · obtain rfl := Option.some.inj h
    simp

theorem unifyUniversal_ne_nil {ns : Option Namespace} (h : unifyUniversal ns c = some found) :
    found ≠ [] := by
  unfold unifyUniversal at h
  split at h
  · obtain rfl := Option.some.inj h
    simp
  split at h
  · obtain ⟨s, -, rfl⟩ := Option.map_eq_some_iff.1 h
    simp
  split at h
  · cases h
  split at h
  all_goals
    obtain rfl := Option.some.inj h
    simp

theorem unifyType_ne_nil {name : QualifiedName} (h : unifyType name c = some found) :
    found ≠ [] := by
  unfold unifyType at h
  split at h
  · split at h
    · obtain ⟨s, -, rfl⟩ := Option.map_eq_some_iff.1 h
      simp
    · obtain rfl := Option.some.inj h
      simp
  · obtain rfl := Option.some.inj h
    simp

theorem unifyHost_ne_nil (h : unifyHost p c = some found) : found ≠ [] := by
  unfold unifyHost at h
  split at h
  · exact insertPseudo_ne_nil h
  · cases h

/-- The special cases for a compound of one condition never give the empty compound. -/
theorem unifyWithLone_ne_nil (h : unifyWithLone s c = some (some found)) : found ≠ [] := by
  unfold unifyWithLone at h
  split at h
  · exact unifyUniversal_ne_nil (Option.some.inj h)
  · split at h
    · exact unifyHost_ne_nil (Option.some.inj h)
    · cases h
  · cases h

/-- The general case keeps the condition, whether it was there or is put in. -/
theorem unifyOrdinary_ne_nil (h : unifyOrdinary s c = some found) : found ≠ [] := by
  unfold unifyOrdinary at h
  split at h
  · rename_i lone
    exact unifyWithLone_ne_nil (h ▸ lone)
  · obtain rfl := Option.some.inj h
    unfold insertBeforePseudos
    split
    · rename_i mem
      rintro rfl
      cases mem
    · simp

/-- Adding a condition leaves one. -/
theorem Simple.unify_ne_nil (h : s.unify c = some found) : found ≠ [] := by
  unfold Simple.unify at h
  split at h
  · exact unifyUniversal_ne_nil h
  · exact unifyType_ne_nil h
  · split at h
    · cases h
    · exact unifyOrdinary_ne_nil h
  · split at h
    · exact unifyHost_ne_nil h
    · split at h
      · rename_i lone
        exact unifyWithLone_ne_nil (h ▸ lone)
      · exact insertPseudo_ne_nil h
  · exact unifyOrdinary_ne_nil h

/-- **Two compounds unify to no conditions only if neither has any.** -/
theorem Compound.unify_ne_nil (filled : c₁ ≠ [] ∨ c₂ ≠ []) (h : Compound.unify c₁ c₂ = some found) :
    found ≠ [] := by
  induction c₁ generalizing c₂ with
  | nil =>
    obtain rfl : c₂ = found := Option.some.inj h
    exact filled.resolve_left fun empty => empty rfl
  | cons s c₁ ih =>
    rw [Compound.unify, List.foldlM_cons, Option.bind_eq_bind, Option.bind_eq_some_iff] at h
    obtain ⟨next, hnext, h⟩ := h
    exact ih (.inr (Simple.unify_ne_nil hnext)) h

/-- Properties of conditions lift to compounds: unification makes up no conditions but element
names. -/
theorem unifyKeeps_isFilled {G : Simple → Prop} (element : ∀ s, s.isUniversalOrType = true → G s) :
    UnifyKeeps (IsFilled G) := fun _ _ _ h₁ h₂ h =>
  ⟨Compound.unify_ne_nil (.inl h₁.1) h, forall_mem_unify element h₁.2 h₂.2 h⟩

end Filled

/-! ## Rows -/

section Rows

variable {row row' row₁ row₂ : List Item} {rows : List (List Item)} {c : Compound}

/-- A row with fewer compounds has the property too. -/
theorem AllCompounds.of_subset (h : AllCompounds P row') (sub : row ⊆ row') : AllCompounds P row :=
  fun c hc => h c (sub hc)

/-- Rows are put together from parts, and so is the property. -/
theorem allCompounds_append :
    AllCompounds P (row ++ row') ↔ AllCompounds P row ∧ AllCompounds P row' := by
  simp only [AllCompounds, List.mem_append, or_imp, forall_and]

theorem allCompounds_flatten : AllCompounds P rows.flatten ↔ ∀ row ∈ rows, AllCompounds P row := by
  refine ⟨fun h row hrow => h.of_subset fun _ mem => List.mem_flatten_of_mem hrow mem,
    fun h c hc => ?_⟩
  obtain ⟨row, hrow, hc⟩ := List.mem_flatten.1 hc
  exact h row hrow c hc

theorem allCompounds_cons {item : Item} :
    AllCompounds P (item :: row) ↔ (∀ c, item = .compound c → P c) ∧ AllCompounds P row := by
  simp only [AllCompounds, List.mem_cons, or_imp, forall_and, eq_comm]

theorem allCompounds_compound (h : P c) : AllCompounds P [.compound c] := by
  simpa [AllCompounds] using h

theorem allCompounds_combinators (ks : List Combinator) : AllCompounds P (ks.map .combinator) := by
  simp [AllCompounds]

theorem allCompounds_pairItems (h : P c) (k : Combinator) : AllCompounds P (pairItems c k) := by
  simpa [AllCompounds, pairItems] using h

end Rows

/-! ## Trailing combinators -/

section Trailing

variable {row row₁ row₂ rest₁ rest₂ : List Item} {c₁ c₂ : Compound} {k k₁ k₂ : Combinator}

/-- The rows that a unified pair of compounds gives, if they unify. -/
theorem allCompounds_of_unified (keeps : UnifyKeeps P) (h₁ : P c₁) (h₂ : P c₂)
    (mem : row ∈ ((Compound.unify c₁ c₂).map (pairItems · k)).toList) : AllCompounds P row := by
  rw [Option.mem_toList, Option.map_eq_some_iff] at mem
  obtain ⟨c, hc, rfl⟩ := mem
  exact allCompounds_pairItems (keeps _ _ _ h₁ h₂ hc) k

/-- Two compounds before `~`: both orders, and the unified one. -/
theorem allCompounds_of_mem_mergeFollowing (keeps : UnifyKeeps P) (h₁ : P c₁) (h₂ : P c₂)
    (mem : row ∈ mergeFollowing c₁ c₂) : AllCompounds P row := by
  have pair₁ := allCompounds_pairItems h₁ .followingSibling
  have pair₂ := allCompounds_pairItems h₂ .followingSibling
  unfold mergeFollowing at mem
  split at mem
  · exact List.mem_singleton.1 mem ▸ pair₂
  split at mem
  · exact List.mem_singleton.1 mem ▸ pair₁
  rcases List.mem_append.1 mem with mem | mem
  · rcases List.mem_pair.1 mem with rfl | rfl
    · exact allCompounds_append.2 ⟨pair₁, pair₂⟩
    · exact allCompounds_append.2 ⟨pair₂, pair₁⟩
  · exact allCompounds_of_unified keeps h₁ h₂ mem

/-- A compound before `~` and one before `+`. -/
theorem allCompounds_of_mem_mergeFollowingNext (keeps : UnifyKeeps P) (h₁ : P c₁) (h₂ : P c₂)
    (mem : row ∈ mergeFollowingNext c₁ c₂) : AllCompounds P row := by
  have pair₂ := allCompounds_pairItems h₂ .nextSibling
  unfold mergeFollowingNext at mem
  split at mem
  · exact List.mem_singleton.1 mem ▸ pair₂
  rcases List.mem_append.1 mem with mem | mem
  · rw [List.mem_singleton.1 mem]
    exact allCompounds_append.2 ⟨allCompounds_pairItems h₁ _, pair₂⟩
  · exact allCompounds_of_unified keeps h₁ h₂ mem

/-- Every case of merging two trailing pairs gives rows of old and unified compounds. -/
theorem allCompounds_of_mergePair (keeps : UnifyKeeps P) (h₁ : P c₁) (h₂ : P c₂) {m : PairMerge}
    (h : mergePair c₁ k₁ c₂ k₂ = some m) : ∀ row ∈ m.choice, AllCompounds P row := by
  have pair₁ := allCompounds_pairItems h₁ k₁
  have pair₂ := allCompounds_pairItems h₂ k₂
  unfold mergePair at h
  split at h
  · cases h
    exact fun _ => allCompounds_of_mem_mergeFollowing keeps h₁ h₂
  · cases h
    exact fun _ => allCompounds_of_mem_mergeFollowingNext keeps h₁ h₂
  · cases h
    exact fun _ => allCompounds_of_mem_mergeFollowingNext keeps h₂ h₁
  · cases h
    exact List.forall_mem_singleton.2 pair₂
  · cases h
    exact List.forall_mem_singleton.2 pair₂
  · cases h
    exact List.forall_mem_singleton.2 pair₁
  · cases h
    exact List.forall_mem_singleton.2 pair₁
  all_goals
    obtain ⟨c, hc, rfl⟩ := Option.map_eq_some_iff.1 h
    exact List.forall_mem_singleton.2 (allCompounds_pairItems (keeps _ _ _ h₁ h₂ hc) _)

/-- What is put back on the rows was taken off them. -/
theorem mergePair_back_subset {m : PairMerge} (h : mergePair c₁ k₁ c₂ k₂ = some m) :
    m.back₁ ⊆ pairItems c₁ k₁ ∧ m.back₂ ⊆ pairItems c₂ k₂ := by
  have put : ∀ {back : List Item} {c : Compound} {k : Combinator},
      back = [] ∨ back = (pairItems c k).reverse → back ⊆ pairItems c k := by
    rintro _ c k (rfl | rfl)
    · exact List.nil_subset _
    · exact List.reverse_subset.2 (List.Subset.refl _)
  obtain ⟨-, back₁, back₂⟩ := mergePair_isTrailing (G := fun _ => True) (fun _ _ => trivial)
    (fun _ _ => trivial) (fun _ _ => trivial) h
  exact ⟨put back₁, put back₂⟩

/-- What a look at the ends of two rows leads to has no compounds without the property. -/
def TrailingStep.AllCompounds (P : Compound → Prop) : TrailingStep → Prop
  | .finished | .refused => True
  | .last choice rest₁ rest₂ | .next choice rest₁ rest₂ =>
    (∀ row ∈ choice, SelectorAlgebra.AllCompounds P row) ∧ SelectorAlgebra.AllCompounds P rest₁ ∧
      SelectorAlgebra.AllCompounds P rest₂

theorem beforeCombinators_subset (row : List Item) : beforeCombinators row ⊆ row :=
  (List.dropWhile_suffix _).subset

theorem dropImplied_subset (c : Compound) (k : Combinator) (row : List Item) :
    dropImplied c k row ⊆ row := by
  unfold dropImplied
  split
  · split
    · exact List.subset_cons_self _ _
    · exact List.Subset.refl _
  · exact List.Subset.refl _

/-- One step over the trailing combinators: its choices and what it leaves have the property. -/
theorem allCompounds_trailingStep (keeps : UnifyKeeps P) (h₁ : AllCompounds P row₁)
    (h₂ : AllCompounds P row₂) : (trailingStep row₁ row₂).AllCompounds P := by
  have split_before : ∀ {row : List Item} {c : Compound} {rest : List Item}, AllCompounds P row →
      beforeCombinators row = .compound c :: rest → P c ∧ AllCompounds P rest := by
    intro row c rest h eq
    have before := h.of_subset (beforeCombinators_subset row)
    rw [eq, allCompounds_cons] at before
    exact ⟨before.1 c rfl, before.2⟩
  unfold trailingStep
  split
  · trivial
  · split
    · rename_i c₁ rest₁ c₂ rest₂ eq₁ eq₂
      obtain ⟨hc₁, hrest₁⟩ := split_before h₁ eq₁
      obtain ⟨hc₂, hrest₂⟩ := split_before h₂ eq₂
      split
      · rename_i k₁ k₂ _ _ m hm
        obtain ⟨back₁, back₂⟩ := mergePair_back_subset hm
        exact ⟨allCompounds_of_mergePair keeps hc₁ hc₂ hm,
          allCompounds_append.2 ⟨(allCompounds_pairItems hc₁ _).of_subset back₁, hrest₁⟩,
          allCompounds_append.2 ⟨(allCompounds_pairItems hc₂ _).of_subset back₂, hrest₂⟩⟩
      · trivial
    · trivial
  · split
    · rename_i c₁ rest₁ eq₁
      obtain ⟨hc₁, hrest₁⟩ := split_before h₁ eq₁
      exact ⟨List.forall_mem_singleton.2 (allCompounds_pairItems hc₁ _), hrest₁,
        h₂.of_subset (dropImplied_subset _ _ _)⟩
    · trivial
  · split
    · rename_i c₂ rest₂ eq₂
      obtain ⟨hc₂, hrest₂⟩ := split_before h₂ eq₂
      exact ⟨List.forall_mem_singleton.2 (allCompounds_pairItems hc₂ _),
        h₁.of_subset (dropImplied_subset _ _ _), hrest₂⟩
    · trivial
  · split
    · exact ⟨List.forall_mem_singleton.2 (allCompounds_combinators _),
        h₁.of_subset (beforeCombinators_subset _), h₂.of_subset (beforeCombinators_subset _)⟩
    · trivial

/-- All the steps, by induction along the recursion; the choices found so far are carried along. -/
theorem allCompounds_of_mergeTrailingOnto (keeps : UnifyKeeps P)
    {found choices : List (List (List Item))} (h₁ : AllCompounds P row₁) (h₂ : AllCompounds P row₂)
    (hfound : ∀ choice ∈ found, ∀ row ∈ choice, AllCompounds P row)
    (h : mergeTrailingOnto found row₁ row₂ = some (choices, rest₁, rest₂)) :
    (∀ choice ∈ choices, ∀ row ∈ choice, AllCompounds P row) ∧ AllCompounds P rest₁ ∧
      AllCompounds P rest₂ := by
  induction found, row₁, row₂ using mergeTrailingOnto.induct with
  | case1 found row₁ row₂ step =>
    rw [mergeTrailingOnto, step] at h
    cases h
    exact ⟨hfound, h₁, h₂⟩
  | case2 found row₁ row₂ step =>
    rw [mergeTrailingOnto, step] at h
    cases h
  | case3 found row₁ row₂ choice rest₁' rest₂' step =>
    have last : (TrailingStep.last choice rest₁' rest₂').AllCompounds P :=
      step ▸ allCompounds_trailingStep keeps h₁ h₂
    rw [mergeTrailingOnto, step] at h
    cases h
    exact ⟨List.forall_mem_cons.2 ⟨last.1, hfound⟩, last.2⟩
  | case4 found row₁ row₂ choice rest₁' rest₂' step ih =>
    obtain ⟨hchoice, hrest₁, hrest₂⟩ : (TrailingStep.next choice rest₁' rest₂').AllCompounds P :=
      step ▸ allCompounds_trailingStep keeps h₁ h₂
    rw [mergeTrailingOnto, step] at h
    exact ih hrest₁ hrest₂ (List.forall_mem_cons.2 ⟨hchoice, hfound⟩) h

theorem allCompounds_of_mergeTrailing (keeps : UnifyKeeps P) {choices : List (List (List Item))}
    (h₁ : AllCompounds P row₁) (h₂ : AllCompounds P row₂)
    (h : mergeTrailing row₁ row₂ = some (choices, rest₁, rest₂)) :
    (∀ choice ∈ choices, ∀ row ∈ choice, AllCompounds P row) ∧ AllCompounds P rest₁ ∧
      AllCompounds P rest₂ := by
  have reversed : ∀ {row : List Item}, AllCompounds P row → AllCompounds P row.reverse :=
    fun h => h.of_subset (List.reverse_subset.2 (List.Subset.refl _))
  obtain ⟨⟨choices, rest₁', rest₂'⟩, found, eq⟩ := Option.map_eq_some_iff.1 h
  cases eq
  obtain ⟨hchoices, hrest₁, hrest₂⟩ := allCompounds_of_mergeTrailingOnto keeps (reversed h₁)
    (reversed h₂) (List.forall_mem_nil _) found
  exact ⟨hchoices, reversed hrest₁, reversed hrest₂⟩

end Trailing

/-! ## Groups and orders -/

section Groups

variable {row row₁ row₂ : List Item} {groups₁ groups₂ common : List (List Item)}

/-- A row is its root, if it has one, and the rest. -/
theorem splitRoot_eq (row : List Item) :
    row = ((splitRoot row).1.map Item.compound).toList ++ (splitRoot row).2 := by
  unfold splitRoot
  split
  · split <;> rfl
  · rfl

/-- The root and the rest have what the row had. -/
theorem allCompounds_splitRoot (h : AllCompounds P row) :
    (∀ root, (splitRoot row).1 = some root → P root) ∧ AllCompounds P (splitRoot row).2 := by
  rw [splitRoot_eq row, allCompounds_append] at h
  refine ⟨fun root hroot => h.1 root ?_, h.2⟩
  rw [hroot]
  exact List.mem_singleton_self _

/-- A shared root is one of the roots or the two unified. -/
theorem allCompounds_of_shareRoot (keeps : UnifyKeeps P) {row₁' row₂' : List Item}
    (h₁ : AllCompounds P row₁) (h₂ : AllCompounds P row₂)
    (h : shareRoot row₁ row₂ = some (row₁', row₂')) :
    AllCompounds P row₁' ∧ AllCompounds P row₂' := by
  obtain ⟨hroot₁, hrest₁⟩ := allCompounds_splitRoot h₁
  obtain ⟨hroot₂, hrest₂⟩ := allCompounds_splitRoot h₂
  have behind : ∀ {root : Compound} {rest : List Item}, P root → AllCompounds P rest →
      AllCompounds P (.compound root :: rest) :=
    fun hroot hrest => allCompounds_append.2 ⟨allCompounds_compound hroot, hrest⟩
  unfold shareRoot at h
  rcases hs₁ : splitRoot row₁ with ⟨_ | root₁, rest₁⟩ <;>
    rcases hs₂ : splitRoot row₂ with ⟨_ | root₂, rest₂⟩ <;>
    rw [hs₁] at hroot₁ hrest₁ <;> rw [hs₂] at hroot₂ hrest₂ <;> rw [hs₁, hs₂] at h
  · cases h
    exact ⟨hrest₁, hrest₂⟩
  · cases h
    exact ⟨behind (hroot₂ _ rfl) hrest₁, hrest₂⟩
  · cases h
    exact ⟨hrest₁, behind (hroot₁ _ rfl) hrest₂⟩
  · obtain ⟨root, hroot, eq⟩ := Option.map_eq_some_iff.1 h
    cases eq
    have unified := keeps _ _ _ (hroot₁ _ rfl) (hroot₂ _ rfl) hroot
    exact ⟨behind unified hrest₁, behind unified hrest₂⟩

/-- Groups are parts of the row. -/
theorem allCompounds_groupItems (h : AllCompounds P row) :
    ∀ group ∈ groupItems row, AllCompounds P group :=
  allCompounds_flatten.1 ((isGrouping_groupItems row).flatten.symm ▸ h)

/-- The orders of two runs have the compounds of the runs. -/
theorem allCompounds_runOrders (h₁ : ∀ group ∈ groups₁, AllCompounds P group)
    (h₂ : ∀ group ∈ groups₂, AllCompounds P group) :
    ∀ row ∈ runOrders groups₁ groups₂, AllCompounds P row := by
  intro row hrow
  obtain ⟨-, rfl | rfl⟩ := mem_runOrders hrow
  · exact allCompounds_flatten.2 (List.forall_mem_append.2 ⟨h₁, h₂⟩)
  · exact allCompounds_flatten.2 (List.forall_mem_append.2 ⟨h₂, h₁⟩)

/-- Each choice around the common groups is made of given groups; the induction is on the common
groups. -/
theorem allCompounds_interleave (hc : ∀ group ∈ common, AllCompounds P group)
    (h₁ : ∀ group ∈ groups₁, AllCompounds P group) (h₂ : ∀ group ∈ groups₂, AllCompounds P group) :
    ∀ choice ∈ interleave common groups₁ groups₂, ∀ row ∈ choice, AllCompounds P row := by
  induction common generalizing groups₁ groups₂ with
  | nil => exact List.forall_mem_singleton.2 (allCompounds_runOrders h₁ h₂)
  | cons group common ih =>
    rw [List.forall_mem_cons] at hc
    rw [interleave, List.forall_mem_cons, List.forall_mem_cons, List.forall_mem_singleton]
    refine ⟨allCompounds_runOrders (fun g hg => h₁ g ((List.takeWhile_prefix _).subset hg))
      (fun g hg => h₂ g ((List.takeWhile_prefix _).subset hg)), hc.1, ih hc.2 (fun g hg => ?_)
      fun g hg => ?_⟩
    · exact h₁ g ((List.dropWhile_suffix _).subset (List.mem_of_mem_tail hg))
    · exact h₂ g ((List.dropWhile_suffix _).subset (List.mem_of_mem_tail hg))

/-- A row picked from choices has the property when all their rows have. -/
theorem allCompounds_of_mem_rowsOfChoices {choices : List (List (List Item))}
    (h : ∀ choice ∈ choices, ∀ row ∈ choice, AllCompounds P row)
    (mem : row ∈ rowsOfChoices choices) :
    AllCompounds P row := by
  obtain ⟨selection, picked, rfl⟩ := mem_rowsOfChoices.1 mem
  refine allCompounds_flatten.2 fun option hoption => ?_
  obtain ⟨choice, hchoice, picked⟩ := exists_mem_of_forall₂ picked hoption
  exact h choice (List.mem_of_mem_filter hchoice) option picked

end Groups

/-! ## Weaving -/

/-- Weaving two rows of parents gives no compounds without the property if they have none. -/
def WeavesAll (P : Compound → Prop) (merge : List Item → List Item → Option (List (List Item))) :
    Prop :=
  ∀ parents₁ parents₂ rows, AllCompounds P parents₁ → AllCompounds P parents₂ →
    merge parents₁ parents₂ = some rows → ∀ row ∈ rows, AllCompounds P row

section Weaves

variable {merge : List Item → List Item → Option (List (List Item))} {rows woven : List (List Item)}
  {row : List Item}

/-- One row woven onto those woven so far, for a merge of parents that keeps the property. -/
theorem allCompounds_weaveRow (hm : WeavesAll P merge)
    (hw : ∀ before ∈ woven, AllCompounds P before) (h : AllCompounds P row) :
    ∀ row' ∈ weaveRow merge woven row, AllCompounds P row' := by
  unfold weaveRow
  split
  · exact hw
  rename_i target last
  have target_all : AllCompounds P [target] :=
    h.of_subset (List.cons_subset.2 ⟨List.mem_of_getLast? last, List.nil_subset _⟩)
  intro row' hrow'
  split at hrow'
  · obtain ⟨before, hbefore, rfl⟩ := List.mem_map.1 hrow'
    exact allCompounds_append.2 ⟨hw before hbefore, target_all⟩
  · obtain ⟨before, hbefore, hrow'⟩ := List.mem_flatMap.1 hrow'
    obtain ⟨parents, hparents, rfl⟩ := List.mem_map.1 hrow'
    cases merged : merge before row.dropLast with
    | none => simp [merged] at hparents
    | some found =>
      rw [merged, Option.getD_some] at hparents
      exact allCompounds_append.2 ⟨hm _ _ _ (hw before hbefore)
        (h.of_subset (List.dropLast_subset row)) merged parents hparents, target_all⟩

/-- The same for several rows, from any woven so far. -/
theorem allCompounds_foldl_weaveRow (hm : WeavesAll P merge)
    (hw : ∀ before ∈ woven, AllCompounds P before) (h : ∀ row ∈ rows, AllCompounds P row) :
    ∀ row ∈ rows.foldl (weaveRow merge) woven, AllCompounds P row := by
  induction rows generalizing woven with
  | nil => exact hw
  | cons row rows ih =>
    rw [List.forall_mem_cons] at h
    exact ih (allCompounds_weaveRow hm hw h.1) h.2

theorem allCompounds_weaveWith (hm : WeavesAll P merge) (h : ∀ row ∈ rows, AllCompounds P row) :
    ∀ row ∈ weaveWith merge rows, AllCompounds P row := by
  cases rows with
  | nil => exact List.forall_mem_nil _
  | cons first rows =>
    rw [List.forall_mem_cons] at h
    exact allCompounds_foldl_weaveRow hm (List.forall_mem_singleton.2 h.1) h.2

theorem of_baseOfRow (h : AllCompounds P row) {c : Compound} (hc : baseOfRow row = some c) :
    P c := by
  obtain ⟨item, hitem, hc⟩ := Option.bind_eq_some_iff.1 hc
  cases item with
  | compound d =>
    obtain rfl : d = c := Option.some.inj hc
    exact h d (List.mem_of_getLast? hitem)
  | combinator k => cases hc

/-- The end compounds unify to one with the property. -/
theorem of_unifyBases (keeps : UnifyKeeps P) (h : ∀ row ∈ rows, AllCompounds P row)
    {base : Compound} (hbase : unifyBases rows = some base) : P base := by
  have fold : ∀ {rows : List (List Item)} {found : Compound}, (∀ row ∈ rows, AllCompounds P row) →
      P found → rows.foldlM (fun found row => do Compound.unify (← baseOfRow row) found) found
        = some base → P base := by
    intro rows
    induction rows with
    | nil =>
      intro found _ hfound h
      exact Option.some.inj h ▸ hfound
    | cons row rows ih =>
      intro found hr hfound h
      rw [List.forall_mem_cons] at hr
      simp only [List.foldlM_cons, Option.bind_eq_bind, Option.bind_eq_some_iff] at h
      obtain ⟨next, ⟨c, hc, hnext⟩, h⟩ := h
      exact ih hr.2 (keeps _ _ _ (of_baseOfRow hr.1 hc) hfound hnext) h
  cases rows with
  | nil => cases hbase
  | cons first rows =>
    rw [List.forall_mem_cons] at h
    obtain ⟨c, hc, hbase⟩ := Option.bind_eq_some_iff.1 hbase
    exact fold h.2 (of_baseOfRow h.1 hc) hbase

theorem allCompounds_withBase {base : Compound} (hbase : P base)
    (h : ∀ row ∈ rows, AllCompounds P row) :
    ∀ row ∈ withBase base rows, AllCompounds P row := by
  rcases List.eq_nil_or_concat rows with rfl | ⟨rows, last, rfl⟩
  · exact List.forall_mem_nil _
  rw [List.concat_eq_append, List.forall_mem_append, List.forall_mem_singleton] at h
  rw [List.concat_eq_append, withBase_concat, List.forall_mem_append, List.forall_mem_singleton,
    List.forall_mem_map]
  exact ⟨fun row hrow => (h.1 row hrow).of_subset (List.dropLast_subset row),
    allCompounds_append.2 ⟨h.2.of_subset (List.dropLast_subset last), allCompounds_compound hbase⟩⟩

/-- Unification of rows, for such a merge. -/
theorem allCompounds_of_unifyRowsWith (keeps : UnifyKeeps P) (hm : WeavesAll P merge)
    {found : List (List Item)} (hr : ∀ row ∈ rows, AllCompounds P row)
    (h : unifyRowsWith merge rows = some found) : ∀ row ∈ found, AllCompounds P row := by
  unfold unifyRowsWith at h
  split at h
  · exact Option.some.inj h ▸ hr
  · obtain ⟨base, hbase, rfl⟩ := Option.map_eq_some_iff.1 h
    exact allCompounds_weaveWith hm (allCompounds_withBase (of_unifyBases keeps hr hbase) hr)

/-- What two groups have in common is one of them or what they unify to. -/
theorem allCompounds_of_commonGroup (keeps : UnifyKeeps P) (hm : WeavesAll P merge)
    {group₁ group₂ group : List Item} (h₁ : AllCompounds P group₁) (h₂ : AllCompounds P group₂)
    (h : commonGroup (fun group₁ group₂ => unifyRowsWith merge [group₁, group₂]) group₁ group₂
      = some group) : AllCompounds P group := by
  unfold commonGroup at h
  split at h
  · exact Option.some.inj h ▸ h₁
  split at h
  · cases h
  split at h
  · exact Option.some.inj h ▸ h₂
  split at h
  · exact Option.some.inj h ▸ h₁
  split at h
  · split at h
    · rename_i unified hunified
      obtain rfl := Option.some.inj h
      have both : ∀ row ∈ [group₁, group₂], AllCompounds P row :=
        List.forall_mem_cons.2 ⟨h₁, List.forall_mem_singleton.2 h₂⟩
      exact allCompounds_of_unifyRowsWith keeps hm both hunified _ (List.mem_singleton_self _)
    · cases h
  · cases h

end Weaves

/-- Every level of weaving keeps the property, by induction on the level. -/
theorem weavesAll_weaveParentsWithin (keeps : UnifyKeeps P) (n : ℕ) :
    WeavesAll P (weaveParentsWithin n) := by
  induction n with
  | zero =>
    intro parents₁ parents₂ rows _ _ h
    cases h
  | succ n ih =>
    intro parents₁ parents₂ rows h₁ h₂ h
    simp only [weaveParentsWithin, Option.bind_eq_bind, Option.bind_eq_some_iff] at h
    obtain ⟨leading, -, ⟨trailing, row₁, row₂⟩, htrailing, ⟨row₁', row₂'⟩, hroot, h⟩ := h
    obtain rfl := Option.some.inj h
    obtain ⟨trailing_all, hrow₁, hrow₂⟩ := allCompounds_of_mergeTrailing keeps
      (h₁.of_subset (List.dropWhile_suffix _).subset)
      (h₂.of_subset (List.dropWhile_suffix _).subset)
      htrailing
    obtain ⟨hrow₁', hrow₂'⟩ := allCompounds_of_shareRoot keeps hrow₁ hrow₂ hroot
    have groups₁ := allCompounds_groupItems hrow₁'
    have groups₂ := allCompounds_groupItems hrow₂'
    have common := forall_mem_commonSubsequence (P := AllCompounds P)
      fun group₂ mem₂ group₁ mem₁ group h =>
        allCompounds_of_commonGroup keeps ih (groups₂ group₂ mem₂) (groups₁ group₁ mem₁) h
    refine fun row => allCompounds_of_mem_rowsOfChoices ?_
    rw [List.forall_mem_append, List.forall_mem_cons, List.forall_mem_singleton]
    exact ⟨⟨allCompounds_combinators _, allCompounds_interleave common groups₁ groups₂⟩,
      trailing_all⟩

/-- The level the rows need is one of them. -/
theorem weavesAll_weaveParents (keeps : UnifyKeeps P) : WeavesAll P weaveParents :=
  fun parents₁ parents₂ => weavesAll_weaveParentsWithin keeps _ parents₁ parents₂

/-- **Woven rows have no compounds but those of the rows and their unifications.** -/
theorem allCompounds_of_mem_weave (keeps : UnifyKeeps P) {rows : List (List Item)}
    (h : ∀ row ∈ rows, AllCompounds P row) : ∀ row ∈ weave rows, AllCompounds P row :=
  allCompounds_weaveWith (weavesAll_weaveParents keeps) h

/-- **Unified rows have no compounds but those of the rows and their unifications.** -/
theorem allCompounds_of_unifyRows (keeps : UnifyKeeps P) {rows found : List (List Item)}
    (hr : ∀ row ∈ rows, AllCompounds P row) (h : unifyRows rows = some found) :
    ∀ row ∈ found, AllCompounds P row :=
  allCompounds_of_unifyRowsWith keeps (weavesAll_weaveParents keeps) hr h

end SelectorAlgebra
