import SelectorAlgebra.Proofs.DescendantRows
import SelectorAlgebra.Proofs.PlainCompound
import SelectorAlgebra.Unification.Weave

/-!
# Proofs/Interleaving — unification keeps every ancestor that was asked for

For rows of plain compounds without combinators:

* `unifyRows_keeps` — each of several rows is above every row that they unify to.

A row is **laid into** another one if its compounds are parts of some compounds there, in the same
order.  Being laid into a row, with the last compound going to the last one, is what it takes to be
above it (`itemsSuperselector_iff_laid`).

The engine is `interleave_keeps`: however the two rows of groups are cut at a common group, the part
before the cut stands in a run, and the group at the cut, if any, is above the common group.  So it
does not matter that the cut may fall on another group than the one that was found to be common.
-/

namespace SelectorAlgebra

/-- Compounds of plain conditions. -/
def ArePlain (cs : List Compound) : Prop := ∀ c ∈ cs, Compound.IsPlain c

/-- Every compound of the first sequence is a part of one of the second, in the same order. -/
def Laid (cs ds : List Compound) : Prop := List.SublistForall₂ Compound.PartOf cs ds

instance : IsTrans Compound Compound.PartOf := ⟨fun _ _ _ => Compound.PartOf.trans⟩

namespace Laid

variable {cs cs' ds ds' es : List Compound} {c d : Compound}

theorem refl (cs : List Compound) : Laid cs cs := (List.Sublist.refl cs).sublistForall₂

/-- Laying in is transitive, since being part of a compound is. -/
theorem trans (h : Laid cs ds) (h' : Laid ds es) : Laid cs es :=
  IsTrans.trans (r := List.SublistForall₂ Compound.PartOf) cs ds es h h'

/-- Rows are laid in part by part. -/
theorem append (h : Laid cs ds) (h' : Laid cs' ds') : Laid (cs ++ cs') (ds ++ ds') :=
  sublistForall₂_append h h'

theorem append_right (ds' : List Compound) (h : Laid cs ds) : Laid cs (ds ++ ds') :=
  sublistForall₂_append_right ds' h

theorem append_left (ds' : List Compound) (h : Laid cs ds) : Laid cs (ds' ++ ds) :=
  sublistForall₂_append_left ds' h

end Laid

theorem takeWhile_isCombinator_map (cs : List Compound) :
    (cs.map Item.compound).takeWhile Item.isCombinator = [] := by
  cases cs <;> rfl

theorem dropWhile_isCombinator_map (cs : List Compound) :
    (cs.map Item.compound).dropWhile Item.isCombinator = cs.map Item.compound := by
  cases cs <;> rfl

/-- **A row is above another exactly if it is laid into it**, last compound to last compound. -/
theorem itemsSuperselector_iff_laid {cs ds : List Compound} {c d : Compound}
    (hc : ArePlain (cs ++ [c])) (hd : ArePlain (ds ++ [d])) :
    itemsSuperselector ((cs ++ [c]).map .compound) ((ds ++ [d]).map .compound) = true ↔
      Laid cs ds ∧ Compound.PartOf c d :=
  itemsSuperselector_map_compound_iff fun c' hc' d' hd' _ =>
    covers_iff_partOf (hc c' hc') (hd d' hd')

/-- The direction from rows to the relation. -/
theorem itemsSuperselector_of_laid {cs ds : List Compound} {c d : Compound}
    (hc : ArePlain (cs ++ [c])) (hd : ArePlain (ds ++ [d])) (laid : Laid cs ds)
    (part : Compound.PartOf c d) :
    itemsSuperselector ((cs ++ [c]).map .compound) ((ds ++ [d]).map .compound) = true :=
  (itemsSuperselector_iff_laid hc hd).2 ⟨laid, part⟩

/-! ## Rows made of choices -/

/-- A row picked from choices starts with a member of the first, unless that is empty. -/
theorem mem_rowsOfChoices_cons {choice : List (List Item)} {choices : List (List (List Item))}
    {row : List Item} (h : row ∈ rowsOfChoices (choice :: choices)) :
    (choice = [] ∧ row ∈ rowsOfChoices choices) ∨
      ∃ option ∈ choice, ∃ rest ∈ rowsOfChoices choices, row = option ++ rest := by
  rw [rowsOfChoices, List.filter_cons] at h
  split at h
  · obtain ⟨selection, hs, rfl⟩ := List.mem_map.1 h
    obtain ⟨option, selection', ho, hs', rfl⟩ := List.forall₂_cons_right_iff.1 (mem_selections.1 hs)
    exact .inr ⟨option, ho, selection'.flatten,
      List.mem_map.2 ⟨selection', mem_selections.2 hs', rfl⟩, rfl⟩
  · rename_i empty
    exact .inl ⟨by simpa using empty, h⟩

/-! ## Groups -/

/-- The groups of a row without combinators: every compound by itself. -/
def singletons (cs : List Compound) : List (List Item) := cs.map fun c => [.compound c]

/-- Without combinators every compound is a group of its own. -/
theorem groupItems_map_compound : ∀ cs : List Compound,
    groupItems (cs.map .compound) = singletons cs
  | [] => rfl
  | [_] => rfl
  | c :: c' :: cs => by
    have rest := groupItems_map_compound (c' :: cs)
    rw [groupItems] at rest
    rw [groupItems, List.map_cons, List.foldr_cons, rest]
    rfl

theorem flatten_singletons (cs : List Compound) : (singletons cs).flatten = cs.map .compound := by
  rw [singletons, ← List.flatMap_def, ← List.map_eq_flatMap]

/-- Between plain compounds the relation on parents is being a part. -/
theorem partOf_of_parentSuperselector {c d : Compound} (hc : Compound.IsPlain c)
    (hd : Compound.IsPlain d) (h : parentSuperselector [.compound c] [.compound d] = true) :
    Compound.PartOf c d := by
  by_contra part
  have acc : covers itemsSuperselector c d [] = false :=
    Bool.eq_false_iff.2 fun acc => part ((covers_iff_partOf hc hd).1 acc)
  simp [parentSuperselector, itemsSuperselector_eq, rowCovers, walk, firstAccepted, acc,
    Item.compound?] at h

/-- Two compounds that have to unify do it without looking at any parents. -/
theorem unifyRowsWith_pair {merge : List Item → List Item → Option (List (List Item))}
    (c d : Compound) : unifyRowsWith merge [[.compound c], [.compound d]]
      = (Compound.unify d c).map fun base => [[.compound base]] := by
  simp [unifyRowsWith, unifyBases, baseOfRow, Item.compound?, weaveWith, withBase, weaveRow]

/-- What stands for two plain compounds is one plain compound. -/
theorem commonGroup_plain {merge : List Item → List Item → Option (List (List Item))}
    {c d : Compound} {group : List Item} (hc : Compound.IsPlain c) (hd : Compound.IsPlain d)
    (h : commonGroup (fun group₁ group₂ => unifyRowsWith merge [group₁, group₂])
      [.compound c] [.compound d] = some group) :
    ∃ e, group = [.compound e] ∧ Compound.IsPlain e := by
  rw [commonGroup, unifyRowsWith_pair] at h
  split at h
  · exact ⟨c, (Option.some.inj h).symm, hc⟩
  split at h
  · cases h
  split at h
  · exact ⟨d, (Option.some.inj h).symm, hd⟩
  split at h
  · exact ⟨c, (Option.some.inj h).symm, hc⟩
  split at h
  · cases unified : Compound.unify d c with
    | none =>
      rw [unified] at h
      cases h
    | some base =>
      rw [unified] at h
      exact ⟨base, (Option.some.inj h).symm, (unify_keeps hd hc unified).2.2⟩
  · cases h

/-! ## Orders -/

/-- The row is one of plain compounds, and two sequences are laid into it. -/
def KeepsBoth (cs₁ cs₂ : List Compound) (row : List Item) : Prop :=
  ∃ ds, row = ds.map .compound ∧ ArePlain ds ∧ Laid cs₁ ds ∧ Laid cs₂ ds

theorem ArePlain.append {cs ds : List Compound} (hc : ArePlain cs) (hd : ArePlain ds) :
    ArePlain (cs ++ ds) :=
  List.forall_mem_append.2 ⟨hc, hd⟩

/-- Two stretches that keep both rows make one that does. -/
theorem KeepsBoth.append {cs₁ cs₂ ds₁ ds₂ : List Compound} {row row' : List Item}
    (h : KeepsBoth cs₁ cs₂ row) (h' : KeepsBoth ds₁ ds₂ row') :
    KeepsBoth (cs₁ ++ ds₁) (cs₂ ++ ds₂) (row ++ row') := by
  obtain ⟨es, rfl, plain, laid₁, laid₂⟩ := h
  obtain ⟨es', rfl, plain', laid₁', laid₂'⟩ := h'
  exact ⟨es ++ es', List.map_append.symm, plain.append plain', laid₁.append laid₁',
    laid₂.append laid₂'⟩

section Orders

variable {cs₁ cs₂ : List Compound}

/-- Either order of two runs keeps both. -/
theorem runOrders_keeps (h₁ : ArePlain cs₁) (h₂ : ArePlain cs₂) {row : List Item}
    (h : row ∈ runOrders (singletons cs₁) (singletons cs₂)) : KeepsBoth cs₁ cs₂ row := by
  have both : row = (singletons (cs₁ ++ cs₂)).flatten ∨
      row = (singletons (cs₂ ++ cs₁)).flatten := by
    rcases cs₁ with _ | ⟨c₁, cs₁⟩ <;> rcases cs₂ with _ | ⟨c₂, cs₂⟩
    · cases h
    all_goals simpa [runOrders, singletons] using h
  rcases both with rfl | rfl
  · exact ⟨_, flatten_singletons _, h₁.append h₂, (Laid.refl cs₁).append_right cs₂,
      (Laid.refl cs₂).append_left cs₁⟩
  · exact ⟨_, flatten_singletons _, h₂.append h₁, (Laid.refl cs₁).append_left cs₂,
      (Laid.refl cs₂).append_right cs₁⟩

/-- There is an order unless both runs are empty. -/
theorem runOrders_eq_nil (h : runOrders (singletons cs₁) (singletons cs₂) = []) :
    cs₁ = [] ∧ cs₂ = [] := by
  cases cs₁ <;> cases cs₂ <;> simp_all [runOrders, singletons]

/-- A choice of orders for two runs, and the choices after it. -/
theorem keeps_of_mem_runOrders_cons {ds₁ ds₂ : List Compound} (h₁ : ArePlain cs₁)
    (h₂ : ArePlain cs₂) {choices : List (List (List Item))} {row : List Item}
    (h : row ∈ rowsOfChoices (runOrders (singletons cs₁) (singletons cs₂) :: choices))
    (rest : ∀ row ∈ rowsOfChoices choices, KeepsBoth ds₁ ds₂ row) :
    KeepsBoth (cs₁ ++ ds₁) (cs₂ ++ ds₂) row := by
  rcases mem_rowsOfChoices_cons h with ⟨empty, h⟩ | ⟨order, ho, row', hr, rfl⟩
  · obtain ⟨rfl, rfl⟩ := runOrders_eq_nil empty
    exact rest row h
  · exact (runOrders_keeps h₁ h₂ ho).append (rest row' hr)

/-- A sequence goes on at a compound that has its first one as a part. -/
theorem laid_cons_of_tail {c : Compound} {p : Compound → Bool} {cs ds : List Compound}
    (hp : ∀ e ∈ cs, p e = false → Compound.PartOf e c) (h : Laid (cs.dropWhile p).tail ds) :
    Laid (cs.dropWhile p) (c :: ds) := by
  cases hdrop : cs.dropWhile p with
  | nil => exact .nil
  | cons e rest =>
    have head : p e = false := by
      simpa [hdrop] using @List.head_dropWhile_not _ p cs (by simp [hdrop])
    have mem : e ∈ cs := List.dropWhile_subset p (by rw [hdrop]; exact List.mem_cons_self)
    rw [hdrop] at h
    exact .cons (hp e mem head) h

end Orders

/-- **Interleaving around common groups keeps both sides**, whatever the groups are. -/
theorem interleave_keeps : ∀ {common cs₁ cs₂ : List Compound}, ArePlain common → ArePlain cs₁ →
    ArePlain cs₂ → ∀ row ∈ rowsOfChoices (interleave (singletons common) (singletons cs₁)
      (singletons cs₂)), KeepsBoth cs₁ cs₂ row
  | [], cs₁, cs₂, _, h₁, h₂, row, h => by
    have rest : ∀ row ∈ rowsOfChoices [], KeepsBoth [] [] row := by
      rintro row (_ | ⟨_, ⟨⟩⟩)
      exact ⟨[], rfl, by simp [ArePlain], .nil, .nil⟩
    simpa using keeps_of_mem_runOrders_cons h₁ h₂ h rest
  | c :: common, cs₁, cs₂, hc, h₁, h₂, row, h => by
    rw [ArePlain, List.forall_mem_cons] at hc
    set other := fun g => !parentSuperselector g [.compound c] with hother
    set p : Compound → Bool := fun e => other [.compound e]
    have part : ∀ {cs : List Compound}, ArePlain cs → ∀ e ∈ cs, p e = false → Compound.PartOf e c :=
      fun hcs e he hp => partOf_of_parentSuperselector (hcs e he) hc.1
        (by simpa [p, other] using hp)
    have cut : ∀ cs : List Compound, (singletons cs).takeWhile other = singletons (cs.takeWhile p) ∧
        ((singletons cs).dropWhile other).tail = singletons (cs.dropWhile p).tail := by
      intro cs
      rw [singletons, List.takeWhile_map, List.dropWhile_map, ← List.map_tail]
      exact ⟨rfl, rfl⟩
    have tail : ∀ {cs : List Compound}, ArePlain cs → ArePlain (cs.dropWhile p).tail :=
      fun hcs e he => hcs e (List.dropWhile_subset p (List.mem_of_mem_tail he))
    have take : ∀ {cs : List Compound}, ArePlain cs → ArePlain (cs.takeWhile p) :=
      fun hcs e he => hcs e (List.takeWhile_subset p he)
    rw [singletons, List.map_cons, ← singletons, interleave, ← hother, (cut cs₁).1, (cut cs₁).2,
      (cut cs₂).1, (cut cs₂).2] at h
    have rest : ∀ row ∈ rowsOfChoices ([[.compound c]] :: interleave (singletons common)
        (singletons (cs₁.dropWhile p).tail) (singletons (cs₂.dropWhile p).tail)),
        KeepsBoth (cs₁.dropWhile p) (cs₂.dropWhile p) row := by
      intro row hrow
      rcases mem_rowsOfChoices_cons hrow with ⟨empty, -⟩ | ⟨option, ho, row', hr, rfl⟩
      · cases empty
      · obtain rfl := List.mem_singleton.1 ho
        obtain ⟨ds, rfl, plain, laid₁, laid₂⟩ :=
          interleave_keeps hc.2 (tail h₁) (tail h₂) row' hr
        exact ⟨c :: ds, rfl, List.forall_mem_cons.2 ⟨hc.1, plain⟩,
          laid_cons_of_tail (part h₁) laid₁, laid_cons_of_tail (part h₂) laid₂⟩
    have whole := keeps_of_mem_runOrders_cons (take h₁) (take h₂) h rest
    rwa [List.takeWhile_append_dropWhile, List.takeWhile_append_dropWhile] at whole

/-! ## Two rows of parents -/

/-- Rows without combinators have nothing to merge at their ends. -/
theorem mergeTrailing_map_compound (cs₁ cs₂ : List Compound) :
    mergeTrailing (cs₁.map .compound) (cs₂.map .compound)
      = some ([], cs₁.map .compound, cs₂.map .compound) := by
  have finished : ∀ ds₁ ds₂ : List Compound,
      trailingStep (ds₁.map .compound) (ds₂.map .compound) = .finished := by
    intro ds₁ ds₂
    rw [trailingStep, endCombinators, endCombinators, takeWhile_isCombinator_map,
      takeWhile_isCombinator_map]
    rfl
  rw [mergeTrailing, ← List.map_reverse, ← List.map_reverse, mergeTrailingOnto]
  split
  · simp
  all_goals
    rename_i step
    rw [finished] at step
    cases step

theorem not_isRoot_of_isPlain {c : Compound} (hc : Compound.IsPlain c) :
    Compound.isRoot c = false := by
  rw [Compound.isRoot, List.any_eq_false]
  intro s hs
  have plain := hc s hs
  cases s with
  | pseudo p => simp [Pseudo.isRoot, (isPlain_pseudo.1 plain).2.2.1]
  | _ => simp

/-- Plain compounds are no roots. -/
theorem splitRoot_map_compound : ∀ {cs : List Compound}, ArePlain cs →
    splitRoot (cs.map .compound) = (none, cs.map .compound)
  | [], _ => rfl
  | c :: cs, h => by
    rw [List.map_cons, splitRoot, not_isRoot_of_isPlain (h c List.mem_cons_self)]
    rfl

/-- Groups that stand for two rows of plain compounds are plain compounds themselves. -/
theorem exists_common {merge : List Item → List Item → Option (List (List Item))}
    {cs₁ cs₂ : List Compound} (h₁ : ArePlain cs₁) (h₂ : ArePlain cs₂) :
    ∃ common, ArePlain common ∧ commonSubsequence
      (commonGroup fun group₁ group₂ => unifyRowsWith merge [group₁, group₂])
      (singletons cs₁) (singletons cs₂) = singletons common := by
  obtain ⟨common, plain, hcommon⟩ := exists_map_eq (forall_mem_commonSubsequence
    (P := fun group => ∃ e, Compound.IsPlain e ∧ [Item.compound e] = group)
    fun x hx y hy group h => by
      obtain ⟨c, hc, rfl⟩ := List.mem_map.1 hx
      obtain ⟨d, hd, rfl⟩ := List.mem_map.1 hy
      obtain ⟨e, rfl, plain⟩ := commonGroup_plain (h₁ c hc) (h₂ d hd) h
      exact ⟨e, plain, rfl⟩)
  exact ⟨common, plain, hcommon.symm⟩

/-- Combinators that meet none stay as they are. -/
theorem mergeCombinators_nil (ks : List Combinator) : mergeCombinators ks [] = some ks := by
  rw [mergeCombinators, commonSubsequence_nil]
  split
  · rename_i empty
    rw [empty]
  · rfl

/-- Rows of plain compounds are woven around their common groups, and nothing else is done to
them. -/
theorem weaveParentsWithin_plain {n : ℕ} {cs₁ cs₂ : List Compound} (h₁ : ArePlain cs₁)
    (h₂ : ArePlain cs₂) : weaveParentsWithin (n + 1) (cs₁.map .compound) (cs₂.map .compound)
      = some (rowsOfChoices ([[]] :: interleave (commonSubsequence
          (commonGroup fun group₁ group₂ => unifyRowsWith (weaveParentsWithin n) [group₁, group₂])
          (singletons cs₂) (singletons cs₁)) (singletons cs₁) (singletons cs₂))) := by
  simp only [weaveParentsWithin, startCombinators, takeWhile_isCombinator_map,
    dropWhile_isCombinator_map, mergeTrailing_map_compound, shareRoot, splitRoot_map_compound h₁,
    splitRoot_map_compound h₂, groupItems_map_compound, Option.bind_eq_bind, Option.bind_some,
    List.append_nil, List.filterMap_nil, mergeCombinators_nil]
  rfl

/-- **Weaving two rows of parents keeps both.** -/
theorem weaveParentsWithin_keeps {n : ℕ} {cs₁ cs₂ : List Compound} (h₁ : ArePlain cs₁)
    (h₂ : ArePlain cs₂) {rows : List (List Item)}
    (h : weaveParentsWithin n (cs₁.map .compound) (cs₂.map .compound) = some rows) :
    ∀ row ∈ rows, KeepsBoth cs₁ cs₂ row := by
  cases n with
  | zero => cases h
  | succ n =>
    obtain ⟨common, plain, hcommon⟩ := @exists_common (weaveParentsWithin n) cs₂ cs₁ h₂ h₁
    rw [weaveParentsWithin_plain h₁ h₂, hcommon, Option.some.injEq] at h
    subst h
    intro row hrow
    rcases mem_rowsOfChoices_cons hrow with ⟨empty, -⟩ | ⟨option, ho, row', hr, rfl⟩
    · cases empty
    · obtain rfl := List.mem_singleton.1 ho
      exact interleave_keeps plain h₁ h₂ row' hr

/-! ## Any number of rows -/

/-- A row of plain compounds, its last one apart. -/
structure PlainRow where
  parents : List Compound
  base : Compound
  plain : ArePlain (parents ++ [base])

namespace PlainRow

/-- The items of the row. -/
def items (row : PlainRow) : List Item := (row.parents ++ [row.base]).map .compound

theorem plain_parents (row : PlainRow) : ArePlain row.parents :=
  (List.forall_mem_append.1 row.plain).1

theorem plain_base (row : PlainRow) : Compound.IsPlain row.base :=
  row.plain row.base (List.mem_append_right _ (List.mem_singleton_self _))

/-- A plain row ends in its base. -/
theorem baseOfRow_items (row : PlainRow) : baseOfRow row.items = some row.base := by
  simp [baseOfRow, items, Item.compound?]

theorem dropLast_items (row : PlainRow) : row.items.dropLast = row.parents.map .compound := by
  simp [items]

end PlainRow

/-- The compound that all rows end in keeps what each of them ends in. -/
theorem unifyBases_keeps {row : PlainRow} {rows : List PlainRow} {base : Compound}
    (h : unifyBases ((row :: rows).map PlainRow.items) = some base) :
    Compound.IsPlain base ∧ ∀ r ∈ row :: rows, Compound.PartOf r.base base := by
  have run : ∀ {rows : List PlainRow} {found : Compound}, Compound.IsPlain found →
      (rows.map PlainRow.items).foldlM (fun found row => do Compound.unify (← baseOfRow row) found)
        found = some base →
      Compound.IsPlain base ∧ Compound.PartOf found base ∧
        ∀ r ∈ rows, Compound.PartOf r.base base := by
    intro rows
    induction rows with
    | nil =>
      rintro found plain ⟨⟩
      exact ⟨plain, Std.Refl.refl _, by simp⟩
    | cons r rows ih =>
      intro found plain h
      simp only [List.map_cons, List.foldlM_cons, PlainRow.baseOfRow_items, Option.bind_eq_bind,
        Option.bind_some, Option.bind_eq_some_iff] at h
      obtain ⟨next, unified, h⟩ := h
      obtain ⟨part, part', plain'⟩ := unify_keeps r.plain_base plain unified
      obtain ⟨plain'', after, rest⟩ := ih plain' h
      exact ⟨plain'', part'.trans after, List.forall_mem_cons.2 ⟨part.trans after, rest⟩⟩
  simp only [List.map_cons, unifyBases, PlainRow.baseOfRow_items, Option.bind_eq_bind,
    Option.bind_some] at h
  obtain ⟨plain, part, rest⟩ := run row.plain_base h
  exact ⟨plain, List.forall_mem_cons.2 ⟨part, rest⟩⟩

section Weave

/-- The row is one of plain compounds, and all of several sequences are laid into it. -/
def KeepsAll (seen : List (List Compound)) (row : List Item) : Prop :=
  ∃ ds, row = ds.map .compound ∧ ArePlain ds ∧ ∀ cs ∈ seen, Laid cs ds

variable {seen : List (List Compound)} {woven : List (List Item)} {cs : List Compound}
  {target : Compound} {row : List Item}

/-- Weaving two plain rows of parents keeps both. -/
theorem weaveParents_keeps {ds : List Compound} (hc : ArePlain cs) (hd : ArePlain ds)
    (h : row ∈ (weaveParents (cs.map .compound) (ds.map .compound)).getD []) :
    KeepsBoth cs ds row := by
  cases hw : weaveParents (cs.map .compound) (ds.map .compound) with
  | none =>
    rw [hw] at h
    cases h
  | some rows =>
    rw [hw] at h
    exact weaveParentsWithin_keeps hc hd hw row h

/-- One more row, with its last compound, woven into what is there. -/
theorem weaveRow_concat_keeps (hs : ∀ row ∈ woven, KeepsAll seen row) (hc : ArePlain cs)
    (h : row ∈ weaveRow weaveParents woven ((cs ++ [target]).map .compound)) :
    ∃ before, row = before ++ [.compound target] ∧ KeepsAll (cs :: seen) before := by
  rw [weaveRow, List.map_append, List.map_singleton, List.getLast?_concat,
    List.dropLast_concat] at h
  rcases cs with _ | ⟨c, cs⟩
  · obtain ⟨before, hb, rfl⟩ := List.mem_map.1 h
    obtain ⟨ds, rfl, plain, laid⟩ := hs before hb
    exact ⟨_, rfl, ds, rfl, plain, List.forall_mem_cons.2 ⟨.nil, laid⟩⟩
  · obtain ⟨before, hb, h⟩ := List.mem_flatMap.1 h
    obtain ⟨merged, hm, rfl⟩ := List.mem_map.1 h
    obtain ⟨ds, rfl, plain, laid⟩ := hs before hb
    obtain ⟨es, rfl, plain', laid₁, laid₂⟩ := weaveParents_keeps plain hc hm
    exact ⟨_, rfl, es, rfl, plain', List.forall_mem_cons.2 ⟨laid₂, fun cs' hcs' =>
      (laid cs' hcs').trans laid₁⟩⟩

/-- One more row, all of it woven into what is there. -/
theorem weaveRow_keeps (hs : ∀ row ∈ woven, KeepsAll seen row) (hc : ArePlain cs) :
    ∀ row ∈ weaveRow weaveParents woven (cs.map .compound), KeepsAll (cs :: seen) row := by
  intro row h
  rcases List.eq_nil_or_concat cs with rfl | ⟨init, last, rfl⟩
  · obtain ⟨ds, rfl, plain, laid⟩ := hs row h
    exact ⟨ds, rfl, plain, List.forall_mem_cons.2 ⟨.nil, laid⟩⟩
  · rw [List.concat_eq_append] at hc h ⊢
    obtain ⟨hinit, hlast⟩ := List.forall_mem_append.1 hc
    obtain ⟨before, rfl, ds, rfl, plain, laid⟩ := weaveRow_concat_keeps hs hinit h
    rw [List.forall_mem_cons] at laid
    refine ⟨ds ++ [last], by simp, plain.append hlast, List.forall_mem_cons.2
      ⟨laid.1.append (Laid.refl [last]), fun cs' hcs' => (laid.2 cs' hcs').append_right _⟩⟩

/-- **Weaving any number of rows keeps the parents of all of them**, in front of the common base. -/
theorem foldl_weaveRow_keeps {base : Compound} : ∀ {r : PlainRow} {rows : List PlainRow}
    {woven : List (List Item)} {seen : List (List Compound)},
    (∀ row ∈ woven, KeepsAll seen row) →
    ∀ row ∈ (withBase base ((r :: rows).map PlainRow.items)).foldl (weaveRow weaveParents) woven,
      ∃ ds, row = (ds ++ [base]).map .compound ∧ ArePlain ds ∧ (∀ cs ∈ seen, Laid cs ds) ∧
        ∀ r' ∈ r :: rows, Laid r'.parents ds
  | r, [], woven, seen, hs, row, h => by
    have h' : row ∈ weaveRow weaveParents woven ((r.parents ++ [base]).map .compound) := by
      simpa [withBase, r.dropLast_items] using h
    obtain ⟨before, rfl, ds, rfl, plain, laid⟩ := weaveRow_concat_keeps hs r.plain_parents h'
    rw [List.forall_mem_cons] at laid
    exact ⟨ds, by simp, plain, laid.2, by simpa using laid.1⟩
  | r, r' :: rows, woven, seen, hs, row, h => by
    rw [List.map_cons, List.map_cons, withBase, List.foldl_cons, r.dropLast_items,
      ← List.map_cons] at h
    · obtain ⟨ds, rfl, plain, laid, rest⟩ :=
        foldl_weaveRow_keeps (weaveRow_keeps hs r.plain_parents) row h
      rw [List.forall_mem_cons] at laid
      exact ⟨ds, rfl, plain, laid.2, List.forall_mem_cons.2 ⟨laid.1, rest⟩⟩
    · simp

end Weave

/-! ## Unification -/

/-- A row of compounds of plain conditions, without combinators. -/
def IsPlainRow (row : List Item) : Prop :=
  row ≠ [] ∧ ∀ item ∈ row, ∃ c, Compound.IsPlain c ∧ .compound c = item

/-- The executable test gives the structure the lemmas are about. -/
theorem IsPlainRow.exists_eq_items {row : List Item} (h : IsPlainRow row) :
    ∃ r : PlainRow, r.items = row := by
  obtain ⟨cs, plain, rfl⟩ := exists_map_eq h.2
  rcases List.eq_nil_or_concat cs with rfl | ⟨init, last, rfl⟩
  · exact absurd rfl h.1
  · rw [List.concat_eq_append] at plain ⊢
    exact ⟨⟨init, last, plain⟩, rfl⟩

/-- The result for rows in structured form. -/
theorem unifyRows_keeps_items {rows : List PlainRow} {results : List (List Item)}
    (h : unifyRows (rows.map PlainRow.items) = some results) :
    ∀ result ∈ results, ∀ row ∈ rows, itemsSuperselector row.items result = true := by
  match rows, h with
  | [], h => cases h
  | [row], h =>
    obtain rfl : [row.items] = results := Option.some.inj h
    simp only [List.forall_mem_singleton]
    exact itemsSuperselector_of_laid row.plain row.plain (Laid.refl _) (Std.Refl.refl _)
  | first :: second :: rest, h =>
    obtain ⟨base, hbase, rfl⟩ := Option.map_eq_some_iff.1 h
    obtain ⟨plain, part⟩ := unifyBases_keeps hbase
    intro result hresult row hrow
    have start : ∀ row ∈ [first.parents.map Item.compound], KeepsAll [first.parents] row := by
      simp only [List.forall_mem_singleton]
      exact ⟨_, rfl, first.plain_parents, by simpa using Laid.refl _⟩
    rw [List.map_cons, List.map_cons, withBase, weaveWith, first.dropLast_items,
      ← List.map_cons] at hresult
    · obtain ⟨ds, rfl, hds, laid, laid'⟩ := foldl_weaveRow_keeps start result hresult
      refine itemsSuperselector_of_laid row.plain (hds.append (by simpa [ArePlain] using plain)) ?_
        (part row hrow)
      rcases List.mem_cons.1 hrow with rfl | hrow
      · exact laid _ (List.mem_singleton_self _)
      · exact laid' row hrow
    · simp

/-- **Unification forgets none of the rows**: each of them is above every row that they unify to. -/
theorem unifyRows_keeps {rows results : List (List Item)} (plain : ∀ row ∈ rows, IsPlainRow row)
    (h : unifyRows rows = some results) :
    ∀ result ∈ results, ∀ row ∈ rows, itemsSuperselector row result = true := by
  obtain ⟨rows, -, rfl⟩ := exists_map_eq (P := fun _ => True) fun row hrow =>
    ((plain row hrow).exists_eq_items).imp fun _ h => ⟨trivial, h⟩
  simpa only [List.forall_mem_map] using unifyRows_keeps_items h

/-- The rows `.a .d`, `.b .e` and `.a.c .d` unify to `.a.c .b .d.e`, and all three are above it. -/
theorem unifyRows_keeps_three : ∃ rows result,
    rows = [[.compound [.className "a"], .compound [.className "d"]],
      [.compound [.className "b"], .compound [.className "e"]],
      [.compound [.className "a", .className "c"], .compound [.className "d"]]] ∧
    result = [.compound [.className "a", .className "c"], .compound [.className "b"],
      .compound [.className "d", .className "e"]] ∧
    (∀ row ∈ rows, IsPlainRow row) ∧ unifyRows rows = some [result] ∧
      ∀ row ∈ rows, itemsSuperselector row result = true := by
  refine ⟨_, _, rfl, rfl, ?plain, ?unified, ?_⟩
  case plain => simp [IsPlainRow, Compound.IsPlain, Simple.isPlain]
  case unified => cbv
  exact unifyRows_keeps (by simp [IsPlainRow, Compound.IsPlain, Simple.isPlain]) (by cbv) _
    (List.mem_singleton_self _)

end SelectorAlgebra
