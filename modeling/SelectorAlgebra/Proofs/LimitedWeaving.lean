import Mathlib
import SelectorAlgebra.Proofs.WovenCompounds

/-!
# Proofs/LimitedWeaving — weaving with a limit on its depth

Weaving two rows of parents compares their groups, two groups may have to be unified, and unifying
them weaves what stands before their last compounds:

    weaveParents ─▸ commonSubsequence ─▸ commonGroup ─▸ unifyRows ─▸ weave ─▸ weaveParents

Here are the same functions with a callback that may have effects (`…M`).  The effect that
matters is to give up: `weaveParentsUpTo levels` allows for `levels` calls one inside the other,
and there is no answer at all if one more is asked for, by any cell of any table.  So going too
deep is told from being refused.

* `IsLifting.rel_weaveParentsM` — one call is answered, with what the running definition
  gives, if the calls inside it are; and those are about rows of parents that have at least
  two items less together.

Neither of the two rows need be shorter: a trailing pair may be put back, and `:root` changes sides.
What one row is given has been taken from the other (`length_le_of_shareRoot`,
`TrailingStep.shorter`).
-/

namespace SelectorAlgebra

/-! ## Callbacks with effects

The definitions of `Sequence/CommonSubsequence` and `Unification/Weave` again, in the same order.
Every cell of the table asks its question, and every row woven so far is merged. -/

section Effects

variable {m : Type → Type} [Monad m] {α β γ : Type}

/-- `fillRow`, with one question for each cell. -/
def fillRowM (select : α → β → m (Option γ)) (x : α) :
    Nat → List Nat → List β → m (List (Cell γ))
  | left, diagonal :: above :: aboves, y :: ys => do
    let selection ← select x y
    let length := cellLength selection diagonal left above
    return ⟨length, selection⟩ :: (← fillRowM select x length (above :: aboves) ys)
  | _, _, _ => return []

/-- `fillRows`, with one question for each cell. -/
def fillRowsM (select : α → β → m (Option γ)) (ys : List β) : List Nat → List α → m (Table γ)
  | _, [] => return []
  | aboves, x :: xs => do
    let row ← fillRowM select x 0 aboves ys
    return row :: (← fillRowsM select ys (0 :: row.map Cell.length) xs)

/-- `commonSubsequence`, with one question for each two elements.  The walk back asks none. -/
def commonSubsequenceM (select : α → β → m (Option γ)) (xs : List α) (ys : List β) :
    m (List γ) := do
  let table ← fillRowsM select ys (List.replicate (ys.length + 1) 0) xs
  return table.backtrack xs.length ys.length []

/-- `commonGroup`, asking `unify` only if it comes to that. -/
def commonGroupM (unify : List Item → List Item → m (Option (List (List Item))))
    (group₁ group₂ : List Item) : m (Option (List Item)) :=
  if equivItems group₁ group₂ then return some group₁
  else if !(group₁.head?.any Item.isCompound && group₂.head?.any Item.isCompound) then return none
  else if parentSuperselector group₁ group₂ then return some group₂
  else if parentSuperselector group₂ group₁ then return some group₁
  else if mustUnify group₁ group₂ then do
    match ← unify group₁ group₂ with
    | some [unified] => return some unified
    | _ => return none
  else return none

/-- `weaveRow`, with one call of `merge` for each row woven so far. -/
def weaveRowM (merge : List Item → List Item → m (Option (List (List Item))))
    (woven : List (List Item)) (row : List Item) : m (List (List Item)) :=
  match row.getLast? with
  | none => return woven
  | some target =>
    match row.dropLast with
    | [] => return woven.map (· ++ [target])
    | parents => do
      let merged ← woven.mapM fun before => merge before parents
      return merged.flatMap fun rows => (rows.getD []).map (· ++ [target])

/-- `weaveWith`, one row after the other. -/
def weaveWithM (merge : List Item → List Item → m (Option (List (List Item)))) :
    List (List Item) → m (List (List Item))
  | [] => return []
  | first :: rows => rows.foldlM (weaveRowM merge) [first]

/-- `unifyRowsWith`, weaving only if the last compounds unify. -/
def unifyRowsWithM (merge : List Item → List Item → m (Option (List (List Item))))
    (rows : List (List Item)) : m (Option (List (List Item))) :=
  match rows with
  | [row] => return some [row]
  | _ =>
    match unifyBases rows with
    | none => return none
    | some base => do return some (← weaveWithM merge (withBase base rows))

end Effects

/-- Two rows of parents without their ends: what is left of them is cut into groups. -/
structure Parts where
  leading : List Combinator
  row₁ : List Item
  row₂ : List Item
  trailing : List (List (List Item))

/-- The ends of two rows of parents merged, and `:root` shared. -/
def takeApart (parents₁ parents₂ : List Item) : Option Parts := do
  let leading ← mergeCombinators (startCombinators parents₁) (startCombinators parents₂)
  let (trailing, row₁, row₂) ← mergeTrailing (parents₁.dropWhile Item.isCombinator)
    (parents₂.dropWhile Item.isCombinator)
  let (row₁, row₂) ← shareRoot row₁ row₂
  return ⟨leading, row₁, row₂, trailing⟩

/-- The rows that the parts make up around the common groups. -/
def Parts.rows (parts : Parts) (common : List (List Item)) : List (List Item) :=
  rowsOfChoices ([parts.leading.map .combinator] ::
    interleave common (groupItems parts.row₁) (groupItems parts.row₂) ++ parts.trailing)

/-- One call of `weaveParents`; `merge` stands for the calls inside it. -/
def weaveParentsM {m : Type → Type} [Monad m]
    (merge : List Item → List Item → m (Option (List (List Item))))
    (parents₁ parents₂ : List Item) :
    m (Option (List (List Item))) :=
  match takeApart parents₁ parents₂ with
  | none => return none
  | some parts => do
    let unify := fun group₁ group₂ => unifyRowsWithM merge [group₁, group₂]
    let common ← commonSubsequenceM (commonGroupM unify) (groupItems parts.row₂)
      (groupItems parts.row₁)
    return some (parts.rows common)

/-! ## Limits -/

/-- `weaveParents` with at most `levels` calls one inside the other; `none` if that is not
enough. -/
def weaveParentsUpTo : ℕ → List Item → List Item → Option (Option (List (List Item)))
  | 0, _, _ => none
  | levels + 1, parents₁, parents₂ => weaveParentsM (weaveParentsUpTo levels) parents₁ parents₂

/-- `weave` with at most `levels` calls of `weaveParents` one inside the other. -/
def weaveUpTo (levels : ℕ) (rows : List (List Item)) : Option (List (List Item)) :=
  weaveWithM (weaveParentsUpTo levels) rows

/-- `unifyRows` with at most `levels` calls of `weaveParents` one inside the other. -/
def unifyRowsUpTo (levels : ℕ) (rows : List (List Item)) : Option (Option (List (List Item))) :=
  unifyRowsWithM (weaveParentsUpTo levels) rows

/-! ## Agreeing with what runs -/

/-- A relation between computations and values that goes along with doing one thing after the other.
Each function above has a lemma: if the callback is related to a pure one wherever it is asked, the
function is related to the one that runs. -/
structure IsLifting {m : Type → Type} [Monad m] (R : ∀ {α : Type}, m α → α → Prop) : Prop where
  pure : ∀ {α : Type} (a : α), R (Pure.pure a) a
  bind : ∀ {α β : Type} {x : m α} {a : α} {f : α → m β} {b : β}, R x a → R (f a) b → R (x >>= f) b

/-- The limit is enough. -/
theorem isLifting_enough : IsLifting fun {α} (x : Option α) a => x = some a :=
  ⟨fun _ => rfl, fun hx hf => by rw [hx]; exact hf⟩

/-- The limit may be enough or not. -/
theorem isLifting_only : IsLifting fun {α} (x : Option α) a => ∀ b, x = some b → b = a := by
  refine ⟨fun a b h => (Option.some.inj h).symm, fun {α β x a f b} hx hf c h => ?_⟩
  obtain ⟨a', ha', hc⟩ := Option.bind_eq_some_iff.1 h
  obtain rfl := hx a' ha'
  exact hf c hc

/-- There is no limit. -/
theorem isLifting_run : IsLifting fun {α} (x : Id α) a => x.run = a :=
  ⟨fun _ => rfl, fun hx hf => by subst hx; exact hf⟩

/-! ### Tables -/

namespace IsLifting

section Tables

variable {m : Type → Type} [Monad m] {R : ∀ {α : Type}, m α → α → Prop} {α β γ : Type}
  {select' : α → β → m (Option γ)} {select : α → β → Option γ}

/-- One row of the table, cell by cell. -/
theorem rel_fillRowM (h : IsLifting R) {x : α} {ys : List β}
    (hs : ∀ y ∈ ys, R (select' x y) (select x y)) (left : Nat) (aboves : List Nat) :
    R (fillRowM select' x left aboves ys) (fillRow select x left aboves ys) := by
  induction ys generalizing left aboves with
  | nil => rcases aboves with _ | ⟨_, _ | _⟩ <;> exact h.pure []
  | cons y ys ih =>
    rw [List.forall_mem_cons] at hs
    rcases aboves with _ | ⟨diagonal, _ | ⟨above, aboves⟩⟩
    · exact h.pure []
    · exact h.pure []
    · exact h.bind hs.1 (h.bind (ih hs.2 _ _) (h.pure _))

/-- The whole table, by induction on the rows; both versions carry the same lengths. -/
theorem rel_fillRowsM (h : IsLifting R) {xs : List α} {ys : List β}
    (hs : ∀ x ∈ xs, ∀ y ∈ ys, R (select' x y) (select x y)) (aboves : List Nat) :
    R (fillRowsM select' ys aboves xs) (fillRows select ys aboves xs) := by
  induction xs generalizing aboves with
  | nil => exact h.pure []
  | cons x xs ih =>
    rw [List.forall_mem_cons] at hs
    exact h.bind (h.rel_fillRowM hs.1 0 aboves) (h.bind (ih hs.2 _) (h.pure _))

/-- **A table is filled if every question is answered.** -/
theorem rel_commonSubsequenceM (h : IsLifting R) {xs : List α} {ys : List β}
    (hs : ∀ x ∈ xs, ∀ y ∈ ys, R (select' x y) (select x y)) :
    R (commonSubsequenceM select' xs ys) (commonSubsequence select xs ys) :=
  h.bind (h.rel_fillRowsM hs _) (h.pure _)

/-- Only one of the cases of a common group asks the callback. -/
theorem rel_commonGroupM (h : IsLifting R)
    {unify' : List Item → List Item → m (Option (List (List Item)))}
    {unify : List Item → List Item → Option (List (List Item))} {group₁ group₂ : List Item}
    (hu : R (unify' group₁ group₂) (unify group₁ group₂)) :
    R (commonGroupM unify' group₁ group₂) (commonGroup unify group₁ group₂) := by
  unfold commonGroupM commonGroup
  split
  · exact h.pure _
  split
  · exact h.pure _
  split
  · exact h.pure _
  split
  · exact h.pure _
  split
  · refine h.bind hu ?_
    rcases unify group₁ group₂ with _ | _ | ⟨unified, _ | ⟨other, rows⟩⟩ <;> exact h.pure _
  · exact h.pure _

end Tables

end IsLifting

/-! ### Rows -/

/-- The rows of parents that are woven with each other, two and two, when further rows are woven
into those woven so far. -/
def meetings (merge : List Item → List Item → Option (List (List Item))) :
    List (List Item) → List (List Item) → List (List Item × List Item)
  | _, [] => []
  | woven, row :: rows =>
    (if row.dropLast.isEmpty then [] else woven.map (·, row.dropLast)) ++
      meetings merge (weaveRow merge woven row) rows

theorem meetings_single (merge : List Item → List Item → Option (List (List Item)))
    (first row : List Item) : meetings merge [first] [row]
      = if row.dropLast.isEmpty then [] else [(first, row.dropLast)] := by
  rw [meetings, meetings, List.append_nil]
  rfl

/-- Rows without parents never meet others. -/
theorem ne_nil_of_mem_meetings {merge : List Item → List Item → Option (List (List Item))}
    {woven rows : List (List Item)} {pair : List Item × List Item}
    (mem : pair ∈ meetings merge woven rows) :
    pair.2 ≠ [] := by
  induction rows generalizing woven with
  | nil => cases mem
  | cons row rows ih =>
    rw [meetings, List.mem_append] at mem
    rcases mem with here | later
    · split at here
      · cases here
      · rename_i filled
        obtain ⟨before, -, rfl⟩ := List.mem_map.1 here
        exact fun empty => filled (List.isEmpty_iff.2 empty)
    · exact ih later

namespace IsLifting

section Weaving

variable {m : Type → Type} [Monad m] {R : ∀ {α : Type}, m α → α → Prop}
  {merge' : List Item → List Item → m (Option (List (List Item)))}
  {merge : List Item → List Item → Option (List (List Item))}

/-- Unification asks the merge only in weaving. -/
theorem rel_unifyRowsWithM (h : IsLifting R) {rows : List (List Item)}
    (hm : ∀ base, unifyBases rows = some base →
      R (weaveWithM merge' (withBase base rows)) (weaveWith merge (withBase base rows))) :
    R (unifyRowsWithM merge' rows) (unifyRowsWith merge rows) := by
  rcases rows with _ | ⟨first, _ | ⟨second, rows⟩⟩
  · exact h.pure none
  · exact h.pure (some [first])
  · unfold unifyRowsWithM unifyRowsWith
    dsimp only
    cases bases : unifyBases (first :: second :: rows) with
    | none => exact h.pure none
    | some base => exact h.bind (hm base bases) (h.pure _)

variable [LawfulMonad m]

theorem rel_mapM (h : IsLifting R) {α β : Type} {f : α → m β} {g : α → β} {xs : List α}
    (hf : ∀ x ∈ xs, R (f x) (g x)) : R (xs.mapM f) (xs.map g) := by
  induction xs with
  | nil =>
    rw [List.mapM_nil]
    exact h.pure []
  | cons x xs ih =>
    rw [List.forall_mem_cons] at hf
    rw [List.mapM_cons]
    exact h.bind hf.1 (h.bind (ih hf.2) (h.pure _))

/-- One row is merged with each row woven so far, if it has parents. -/
theorem rel_weaveRowM (h : IsLifting R) {woven : List (List Item)} {row : List Item}
    (hm : row.dropLast ≠ [] → ∀ before ∈ woven,
      R (merge' before row.dropLast) (merge before row.dropLast)) :
    R (weaveRowM merge' woven row) (weaveRow merge woven row) := by
  unfold weaveRowM weaveRow
  generalize row.dropLast = parents at hm
  cases row.getLast? with
  | none => exact h.pure woven
  | some target =>
    cases parents with
    | nil => exact h.pure _
    | cons item parents =>
      refine h.bind (h.rel_mapM (hm (List.cons_ne_nil item parents))) ?_
      rw [List.flatMap_map]
      exact h.pure _

/-- All rows, from any woven so far; `meetings` lists what is merged on the way. -/
theorem rel_foldlM_weaveRowM (h : IsLifting R) {woven rows : List (List Item)}
    (hm : ∀ pair ∈ meetings merge woven rows, R (merge' pair.1 pair.2) (merge pair.1 pair.2)) :
    R (rows.foldlM (weaveRowM merge') woven) (rows.foldl (weaveRow merge) woven) := by
  induction rows generalizing woven with
  | nil => exact h.pure woven
  | cons row rows ih =>
    rw [meetings, List.forall_mem_append] at hm
    rw [List.foldlM_cons]
    refine h.bind (h.rel_weaveRowM fun filled before mem => ?_) (ih hm.2)
    rw [← List.isEmpty_eq_false_iff] at filled
    rw [filled] at hm
    exact hm.1 (before, row.dropLast) (List.mem_map_of_mem mem)

/-- **Rows are woven if `merge` answers wherever two rows of parents come together.** -/
theorem rel_weaveWithM (h : IsLifting R) {first : List Item} {rows : List (List Item)}
    (hm : ∀ pair ∈ meetings merge [first] rows, R (merge' pair.1 pair.2) (merge pair.1 pair.2)) :
    R (weaveWithM merge' (first :: rows)) (weaveWith merge (first :: rows)) :=
  h.rel_foldlM_weaveRowM hm

end Weaving

end IsLifting

/-! ## What is left for the groups -/

section Lengths

variable {row₁ row₂ rest₁ rest₂ : List Item}

theorem length_beforeCombinators_le (row : List Item) :
    (beforeCombinators row).length ≤ row.length :=
  (List.dropWhile_suffix _).length_le

/-- The last step over the combinators leaves no more than it was given. -/
theorem length_le_of_trailingStep_last {choice : List (List Item)}
    (h : trailingStep row₁ row₂ = .last choice rest₁ rest₂) :
    rest₁.length + rest₂.length ≤ row₁.length + row₂.length := by
  unfold trailingStep at h
  split at h
  · cases h
  · split at h
    · split at h <;> cases h
    · cases h
  · split at h <;> cases h
  · split at h <;> cases h
  · split at h
    · cases h
      exact Nat.add_le_add (length_beforeCombinators_le row₁) (length_beforeCombinators_le row₂)
    · cases h

/-- Nor do all the steps; the induction follows the recursion. -/
theorem length_le_of_mergeTrailingOnto {found choices : List (List (List Item))}
    (h : mergeTrailingOnto found row₁ row₂ = some (choices, rest₁, rest₂)) :
    rest₁.length + rest₂.length ≤ row₁.length + row₂.length := by
  induction found, row₁, row₂ using mergeTrailingOnto.induct with
  | case1 found row₁ row₂ step =>
    rw [mergeTrailingOnto, step] at h
    cases h
    exact le_rfl
  | case2 found row₁ row₂ step =>
    rw [mergeTrailingOnto, step] at h
    cases h
  | case3 found row₁ row₂ choice rest₁' rest₂' step =>
    rw [mergeTrailingOnto, step] at h
    cases h
    exact length_le_of_trailingStep_last step
  | case4 found row₁ row₂ choice rest₁' rest₂' step ih =>
    rw [mergeTrailingOnto, step] at h
    exact (ih h).trans (TrailingStep.shorter step).le

theorem length_le_of_mergeTrailing {choices : List (List (List Item))}
    (h : mergeTrailing row₁ row₂ = some (choices, rest₁, rest₂)) :
    rest₁.length + rest₂.length ≤ row₁.length + row₂.length := by
  obtain ⟨⟨choices, rest₁', rest₂'⟩, found, eq⟩ := Option.map_eq_some_iff.1 h
  cases eq
  simpa only [List.length_reverse] using length_le_of_mergeTrailingOnto found

theorem length_splitRoot (row : List Item) :
    (splitRoot row).1.toList.length + (splitRoot row).2.length = row.length := by
  conv_rhs => rw [splitRoot_eq row]
  rw [List.length_append, Option.toList_map, List.length_map]

/-- `:root` changes sides or stays on both, and takes no item with it. -/
theorem length_le_of_shareRoot (h : shareRoot row₁ row₂ = some (rest₁, rest₂)) :
    rest₁.length + rest₂.length ≤ row₁.length + row₂.length := by
  rw [← length_splitRoot row₁, ← length_splitRoot row₂]
  unfold shareRoot at h
  generalize splitRoot row₁ = split₁ at h
  generalize splitRoot row₂ = split₂ at h
  rcases split₁ with ⟨_ | root₁, left₁⟩ <;> rcases split₂ with ⟨_ | root₂, left₂⟩
  · cases h
    simp
  · cases h
    simp only [Option.toList_none, Option.toList_some, List.length_nil, List.length_cons]
    omega
  · cases h
    simp only [Option.toList_none, Option.toList_some, List.length_nil, List.length_cons]
    omega
  · obtain ⟨root, -, eq⟩ := Option.map_eq_some_iff.1 h
    cases eq
    simp only [Option.toList_some, List.length_nil, List.length_cons]
    omega

theorem length_le_of_mem_groupItems {row group : List Item} (h : group ∈ groupItems row) :
    group.length ≤ row.length := by
  have flat := (isGrouping_groupItems row).flatten
  exact flat ▸ (List.sublist_flatten_of_mem h).length_le

/-- Taking two rows of parents apart leaves no more items than they have together. -/
theorem Parts.length_le {parents₁ parents₂ : List Item} {parts : Parts}
    (h : takeApart parents₁ parents₂ = some parts) :
    parts.row₁.length + parts.row₂.length ≤ parents₁.length + parents₂.length := by
  simp only [takeApart, Option.bind_eq_bind, Option.bind_eq_some_iff] at h
  obtain ⟨leading, -, ⟨trailing, row₁, row₂⟩, merged, ⟨row₁', row₂'⟩, shared, h⟩ := h
  obtain rfl := Option.some.inj h
  calc row₁'.length + row₂'.length
      ≤ row₁.length + row₂.length := length_le_of_shareRoot shared
    _ ≤ (beforeCombinators parents₁).length + (beforeCombinators parents₂).length :=
      length_le_of_mergeTrailing merged
    _ ≤ parents₁.length + parents₂.length :=
      Nat.add_le_add (length_beforeCombinators_le parents₁) (length_beforeCombinators_le parents₂)

/-- Two groups without their last items have at least two items less than the parents. -/
theorem Parts.length_groups_le {parents₁ parents₂ group₁ group₂ : List Item} {parts : Parts}
    (h : takeApart parents₁ parents₂ = some parts) (mem₁ : group₁ ∈ groupItems parts.row₁)
    (mem₂ : group₂ ∈ groupItems parts.row₂) :
    group₁.dropLast.length + group₂.dropLast.length + 2 ≤ parents₁.length + parents₂.length := by
  have all := Parts.length_le h
  have len₁ := length_le_of_mem_groupItems mem₁
  have len₂ := length_le_of_mem_groupItems mem₂
  have filled₁ := List.length_pos_of_ne_nil ((isGrouping_groupItems parts.row₁).filled group₁ mem₁)
  have filled₂ := List.length_pos_of_ne_nil ((isGrouping_groupItems parts.row₂).filled group₂ mem₂)
  rw [List.length_dropLast, List.length_dropLast]
  omega

end Lengths

/-! ## One call -/

section Call

variable {m : Type → Type} [Monad m] [LawfulMonad m] {R : ∀ {α : Type}, m α → α → Prop}
  {merge' : List Item → List Item → m (Option (List (List Item)))}

/-- Unifying two groups asks about their parents only. -/
theorem IsLifting.rel_unifyRowsWithM_pair (h : IsLifting R)
    {merge : List Item → List Item → Option (List (List Item))} {group₁ group₂ : List Item}
    (hm : R (merge' group₁.dropLast group₂.dropLast) (merge group₁.dropLast group₂.dropLast)) :
    R (unifyRowsWithM merge' [group₁, group₂]) (unifyRowsWith merge [group₁, group₂]) := by
  refine h.rel_unifyRowsWithM fun base _ => h.rel_weaveWithM fun pair mem => ?_
  rw [withBase, meetings_single, List.dropLast_concat] at mem
  split at mem
  · cases mem
  · obtain rfl := List.mem_singleton.1 mem
    exact hm

/-- One level, with the row taken apart first and the groups compared one level down. -/
theorem weaveParentsWithin_succ (n : ℕ) (parents₁ parents₂ : List Item) :
    weaveParentsWithin (n + 1) parents₁ parents₂
      = (takeApart parents₁ parents₂).map fun parts => parts.rows (commonSubsequence
          (commonGroup fun group₁ group₂ => unifyRowsWith (weaveParentsWithin n) [group₁, group₂])
          (groupItems parts.row₂) (groupItems parts.row₁)) := by
  rw [weaveParentsWithin, takeApart]
  cases mergeCombinators (startCombinators parents₁) (startCombinators parents₂) with
  | none => rfl
  | some leading =>
    cases mergeTrailing (parents₁.dropWhile Item.isCombinator)
        (parents₂.dropWhile Item.isCombinator) with
    | none => simp
    | some split =>
      obtain ⟨trailing, row₁, row₂⟩ := split
      cases hs : shareRoot row₁ row₂ with
      | none => simp [hs]
      | some shared => simp [hs, Parts.rows]

/-- **A call is answered if the calls inside it are**, and they are about rows of parents that have
at least two items less together. -/
theorem IsLifting.rel_weaveParentsM (h : IsLifting R) {n : ℕ} {parents₁ parents₂ : List Item}
    (hm : ∀ before parents : List Item,
      before.length + parents.length + 2 ≤ parents₁.length + parents₂.length →
        R (merge' before parents) (weaveParentsWithin n before parents)) :
    R (weaveParentsM merge' parents₁ parents₂) (weaveParentsWithin (n + 1) parents₁ parents₂) := by
  rw [weaveParentsWithin_succ]
  unfold weaveParentsM
  cases apart : takeApart parents₁ parents₂ with
  | none => exact h.pure none
  | some parts =>
    refine h.bind (h.rel_commonSubsequenceM fun group₂ mem₂ group₁ mem₁ => h.rel_commonGroupM ?_)
      (h.pure _)
    refine h.rel_unifyRowsWithM_pair (hm _ _ ?_)
    rw [Nat.add_comm group₂.dropLast.length]
    exact Parts.length_groups_le apart mem₁ mem₂

end Call

end SelectorAlgebra
