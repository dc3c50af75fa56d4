import Mathlib
import SelectorAlgebra.Proofs.LimitedWeaving
import SelectorAlgebra.Proofs.RootedRows

/-!
# Proofs/WeavingDepth — weaving comes to an end

Weaving calls itself through the table of common groups, and merging trailing combinators may put
back what it has taken off.  Both end:

    weaving two rows of parents     within half as many levels as they have items, and one more
    merging trailing combinators    within as many rounds as the rows have items, and one more

* `weaving_ends` — so it is for all rows, with combinators and `:root` anywhere, and the answer is
  that of the definitions that run: these have limits of their own, which are never met.

The engine is the step of `Proofs/LimitedWeaving`, from which the bound on the levels is
one induction (`weaveParentsUpTo_eq`).  Rows that repeat their combinators do need many
levels: one more for every three items in each row (`weaveParentsUpTo_tower`).  So the
bound has to grow with the rows.
-/

namespace SelectorAlgebra

/-! ## Coming to an end -/

/-- A computation with a limit ends within `n`: it has an answer under every limit from `n` on,
and never one but `a`. -/
structure EndsWithin {α : Type} (n : ℕ) (run : ℕ → Option α) (a : α) : Prop where
  only : ∀ limit b, run limit = some b → b = a
  enough : ∀ limit, n ≤ limit → run limit = some a

/-! ## Calls inside calls

The definition that runs has a limit too, and gives `none` beyond it as if the rows could
not be woven.  Both limits are in the induction, so that neither matters as soon as it is
above half the items. -/

section Run

variable {parents₁ parents₂ : List Item} {levels n : ℕ}

/-- With enough levels the limited version gives what the one that runs gives. -/
theorem weaveParentsUpTo_eq (hl : parents₁.length + parents₂.length < 2 * levels)
    (hn : parents₁.length + parents₂.length < 2 * n) :
    weaveParentsUpTo levels parents₁ parents₂ = some (weaveParentsWithin n parents₁ parents₂) := by
  induction levels generalizing n parents₁ parents₂ with
  | zero => omega
  | succ levels ih =>
    obtain ⟨n, rfl⟩ : ∃ k, n = k + 1 := ⟨n - 1, by omega⟩
    exact isLifting_enough.rel_weaveParentsM fun before parents shorter => ih (by omega) (by omega)

/-- Whatever it gives is that. -/
theorem eq_of_weaveParentsUpTo (hn : parents₁.length + parents₂.length < 2 * n)
    {rows : Option (List (List Item))} (h : weaveParentsUpTo levels parents₁ parents₂ = some rows) :
    rows = weaveParentsWithin n parents₁ parents₂ := by
  induction levels generalizing n parents₁ parents₂ rows with
  | zero => cases h
  | succ levels ih =>
    obtain ⟨n, rfl⟩ : ∃ k, n = k + 1 := ⟨n - 1, by omega⟩
    exact isLifting_only.rel_weaveParentsM (fun before parents shorter _ => ih (by omega)) rows h

/-- So the depth does not matter once it is enough. -/
theorem weaveParentsWithin_eq (hn : parents₁.length + parents₂.length < 2 * n) :
    weaveParentsWithin n parents₁ parents₂ = weaveParents parents₁ parents₂ :=
  Option.some.inj ((weaveParentsUpTo_eq hn hn).symm.trans (weaveParentsUpTo_eq hn (by omega)))

/-- **Weaving is answered by half as many levels as there are items.** -/
theorem endsWithin_weaveParents (parents₁ parents₂ : List Item) :
    EndsWithin ((parents₁.length + parents₂.length) / 2 + 1) (weaveParentsUpTo · parents₁ parents₂)
      (weaveParents parents₁ parents₂) :=
  ⟨fun _ _ h => eq_of_weaveParentsUpTo (by omega) h,
    fun _ h => weaveParentsUpTo_eq (by omega) (by omega)⟩

/-- The recursion without any limit. -/
theorem run_weaveParentsM (parents₁ parents₂ : List Item) :
    (weaveParentsM (fun before parents => (pure (weaveParents before parents) : Id _))
      parents₁ parents₂).run = weaveParents parents₁ parents₂ :=
  isLifting_run.rel_weaveParentsM fun before parents shorter =>
    (weaveParentsWithin_eq (by omega)).symm

end Run

/-! ## Several rows -/

/-- The most items that two rows of parents have which weaving the rows brings together.  Of two
rows, these are the first one and the parents in the second (`meetings_single`). -/
def mostItems : List (List Item) → ℕ
  | [] => 0
  | first :: rows =>
    ((meetings weaveParents [first] rows).map fun pair => pair.1.length + pair.2.length).foldr max 0

theorem le_mostItems {first : List Item} {rows : List (List Item)} {pair : List Item × List Item}
    (mem : pair ∈ meetings weaveParents [first] rows) :
    pair.1.length + pair.2.length ≤ mostItems (first :: rows) :=
  List.le_max_of_le' 0 (List.mem_map_of_mem mem) le_rfl

/-- Weaving ends within as many levels as the longest meeting has items. -/
theorem endsWithin_weave (rows : List (List Item)) :
    EndsWithin (mostItems rows) (weaveUpTo · rows) (weave rows) := by
  cases rows with
  | nil => exact ⟨fun _ => isLifting_only.pure [], fun _ _ => rfl⟩
  | cons first rows =>
    refine ⟨fun levels => isLifting_only.rel_weaveWithM fun pair _ => ?_,
      fun levels le => isLifting_enough.rel_weaveWithM fun pair mem => ?_⟩
    · exact (endsWithin_weaveParents pair.1 pair.2).only levels
    · have most := le_mostItems mem
      have filled := List.length_pos_of_ne_nil (ne_nil_of_mem_meetings mem)
      exact (endsWithin_weaveParents pair.1 pair.2).enough levels (by omega)

/-- So does unification. -/
theorem endsWithin_unifyRows (rows : List (List Item)) :
    EndsWithin ((unifyBases rows).elim 0 fun base => mostItems (withBase base rows))
      (unifyRowsUpTo · rows) (unifyRows rows) := by
  refine ⟨fun levels => isLifting_only.rel_unifyRowsWithM fun base _ =>
      (endsWithin_weave (withBase base rows)).only levels,
    fun levels le => isLifting_enough.rel_unifyRowsWithM fun base bases =>
      (endsWithin_weave (withBase base rows)).enough levels ?_⟩
  rwa [bases] at le

/-! ## The trailing loop -/

/-- The loop that merges trailing combinators, with at most `rounds` looks at the ends of the rows;
`none` if that is not enough. -/
def mergeTrailingUpTo : ℕ → List (List (List Item)) → List Item → List Item →
    Option (Option (List (List (List Item)) × List Item × List Item))
  | 0, _, _, _ => none
  | rounds + 1, found, row₁, row₂ =>
    match trailingStep row₁ row₂ with
    | .finished => some (some (found, row₁, row₂))
    | .refused => some none
    | .last choice rest₁ rest₂ => some (some (choice :: found, rest₁, rest₂))
    | .next choice rest₁ rest₂ => mergeTrailingUpTo rounds (choice :: found) rest₁ rest₂

/-- One round ends the loop or leaves shorter rows. -/
theorem mergeTrailingUpTo_cases (rounds : ℕ) (found : List (List (List Item)))
    (row₁ row₂ : List Item) :
    mergeTrailingUpTo (rounds + 1) found row₁ row₂ = some (mergeTrailingOnto found row₁ row₂) ∨
      ∃ choice rest₁ rest₂, rest₁.length + rest₂.length < row₁.length + row₂.length ∧
        mergeTrailingUpTo (rounds + 1) found row₁ row₂
          = mergeTrailingUpTo rounds (choice :: found) rest₁ rest₂ ∧
        mergeTrailingOnto found row₁ row₂ = mergeTrailingOnto (choice :: found) rest₁ rest₂ := by
  rw [mergeTrailingUpTo, mergeTrailingOnto]
  cases step : trailingStep row₁ row₂ with
  | finished => exact .inl rfl
  | refused => exact .inl rfl
  | last choice rest₁ rest₂ => exact .inl rfl
  | next choice rest₁ rest₂ =>
    exact .inr ⟨choice, rest₁, rest₂, TrailingStep.shorter step, rfl, rfl⟩

/-- **The trailing loop looks at the ends of two rows at most once for each item**, and once
more. -/
theorem endsWithin_mergeTrailing (found : List (List (List Item))) (row₁ row₂ : List Item) :
    EndsWithin (row₁.length + row₂.length + 1) (mergeTrailingUpTo · found row₁ row₂)
      (mergeTrailingOnto found row₁ row₂) := by
  constructor
  · intro rounds
    induction rounds generalizing found row₁ row₂ with
    | zero => rintro _ ⟨⟩
    | succ rounds ih =>
      rcases mergeTrailingUpTo_cases rounds found row₁ row₂
        with done | ⟨choice, rest₁, rest₂, -, next, same⟩
      · exact fun b h => Option.some.inj (h.symm.trans done)
      · rw [next, same]
        exact ih _ _ _
  · intro rounds
    induction rounds generalizing found row₁ row₂ with
    | zero => exact fun le => absurd le (Nat.not_succ_le_zero _)
    | succ rounds ih =>
      rcases mergeTrailingUpTo_cases rounds found row₁ row₂ with
        done | ⟨choice, rest₁, rest₂, shorter, next, same⟩
      · exact fun _ => done
      · rw [next, same]
        exact fun le => ih _ _ _ (by omega)

/-! ## Rows that need many levels -/

/-- Compounds that have to describe one element, although none of them is above another. -/
def rival (name : String) : Compound := [.idName "x", .className name]

/-- A row of one such compound again and again, with two combinators in between. -/
def tower (name : String) : ℕ → List Item
  | 0 => [.compound (rival name)]
  | n + 1 => .compound (rival name) :: .combinator .child :: .combinator .child :: tower name n

/-- Two combinators in a row. -/
def repeated : List Item := [.combinator .child, .combinator .child]

section Tower

variable {a b : String} {n : ℕ}

theorem tower_succ (name : String) (n : ℕ) : tower name (n + 1)
    = tower name n ++ repeated ++ [.compound (rival name)] := by
  induction n with
  | zero => rfl
  | succ n ih =>
    exact congrArg
      (fun row => .compound (rival name) :: .combinator .child :: .combinator .child :: row) ih

theorem length_tower (name : String) (n : ℕ) : (tower name n).length = 3 * n + 1 := by
  induction n with
  | zero => rfl
  | succ n ih =>
    rw [tower, List.length_cons, List.length_cons, List.length_cons, ih]
    omega

theorem exists_cons_tower (name : String) (n : ℕ) :
    ∃ rest, tower name n = .compound (rival name) :: rest := by
  cases n with
  | zero => exact ⟨_, rfl⟩
  | succ n => exact ⟨_, rfl⟩

theorem exists_concat_tower (name : String) (n : ℕ) :
    ∃ rest, tower name n = rest ++ [.compound (rival name)] := by
  cases n with
  | zero => exact ⟨[], rfl⟩
  | succ n => exact ⟨_, tower_succ name n⟩

theorem allCompounds_tower (name : String) (n : ℕ) :
    AllCompounds (· = rival name) (tower name n) := by
  induction n with
  | zero => exact allCompounds_compound rfl
  | succ n ih =>
    rw [tower_succ]
    exact allCompounds_append.2
      ⟨allCompounds_append.2 ⟨ih, allCompounds_combinators [.child, .child]⟩,
      allCompounds_compound rfl⟩

/-- A tower is one group, since repeated combinators hold it together. -/
theorem groupItems_tower (name : String) (n : ℕ) : groupItems (tower name n) = [tower name n] := by
  induction n with
  | zero => rfl
  | succ n ih =>
    obtain ⟨rest, eq⟩ := exists_cons_tower name n
    rw [tower, groupItems, List.foldr_cons, List.foldr_cons, List.foldr_cons, ← groupItems, ih, eq]
    rfl

theorem not_partOf_rival (ne : a ≠ b) : ¬ Compound.PartOf (rival a) (rival b) := by
  intro part
  have shared : (rival b).contains (.className a) = true := part _ (by simp [rival])
  simp [rival, List.contains_cons, BEq.beq, Simple.equiv, ne] at shared

theorem unifyBases_rivals (row₁ row₂ : List Item) (a b : String) :
    ∃ base, unifyBases [row₁ ++ [.compound (rival a)], row₂ ++ [.compound (rival b)]]
      = some base := by
  have own : (Simple.idName "x" != .idName "x") = false := by rw [bne, BEq.rfl, Bool.not_true]
  simp [unifyBases, baseOfRow, Item.compound?, Compound.unify, rival, Simple.unify, unifyOrdinary,
    unifyWithLone, insertBeforePseudos, Simple.isId, own]

/-- Towers of rivals are not above each other. -/
theorem parentSuperselector_tower (ne : a ≠ b) (n : ℕ) :
    parentSuperselector (tower a n) (tower b n) = false := by
  have plain : ∀ name, Compound.IsPlain (rival name) := fun name => by
    simp [Compound.IsPlain, rival, Simple.isPlain]
  obtain ⟨rest, eq⟩ := exists_cons_tower a n
  refine Bool.eq_false_iff.2 fun above => ?_
  obtain ⟨c, upper, same, skipped, e, rest', place, covered⟩ :=
    exists_covered_of_parentSuperselector (eq ▸ List.cons_ne_nil _ _) above
  obtain rfl : rival a = c := by simpa using (List.cons.inj (eq.symm.trans same)).1
  obtain rfl : e = rival b :=
    allCompounds_tower b n e (place ▸ List.mem_append_right _ List.mem_cons_self)
  exact not_partOf_rival ne ((covers_iff_partOf (plain a) (plain b)).1 covered)

theorem equivItems_tower (ne : a ≠ b) (n : ℕ) : equivItems (tower a n) (tower b n) = false := by
  cases n <;> simp [tower, rival, equivItems, equivCompound, Simple.equiv, ne]

/-- They share an identifier, so they must unify. -/
theorem mustUnify_tower (a b : String) (n : ℕ) : mustUnify (tower a n) (tower b n) = true := by
  cases n <;>
    simp [tower, rival, mustUnify, uniqueConditions, Item.compound?, Simple.isUnique, Simple.isId]

/-- Merging the ends of two towers takes the repeated combinators off. -/
theorem mergeTrailing_tower (a b : String) (n : ℕ) :
    mergeTrailing (tower a n) (tower b n) = some ([], tower a n, tower b n) ∧
      mergeTrailing (tower a n ++ repeated) (tower b n ++ repeated)
        = some ([[repeated]], tower a n, tower b n) := by
  obtain ⟨init₁, last₁⟩ := exists_concat_tower a n
  obtain ⟨init₂, last₂⟩ := exists_concat_tower b n
  have finished : trailingStep (.compound (rival a) :: init₁.reverse)
      (.compound (rival b) :: init₂.reverse) = .finished := rfl
  have last : trailingStep (repeated ++ .compound (rival a) :: init₁.reverse)
      (repeated ++ .compound (rival b) :: init₂.reverse)
        = .last [repeated] (.compound (rival a) :: init₁.reverse)
          (.compound (rival b) :: init₂.reverse) := rfl
  have reversed : repeated.reverse = repeated := rfl
  rw [mergeTrailing, mergeTrailing, last₁, last₂]
  simp only [List.reverse_append, List.reverse_singleton, List.singleton_append, reversed]
  rw [mergeTrailingOnto, finished, mergeTrailingOnto, last]
  simp

/-- Two towers without what may stand behind them. -/
theorem takeApart_tower (a b : String) (n : ℕ) {joint : List Item}
    (ends : joint = [] ∨ joint = repeated) :
    ∃ trailing, takeApart (tower a n ++ joint) (tower b n ++ joint)
      = some ⟨[], tower a n, tower b n, trailing⟩ := by
  obtain ⟨trailing, merged⟩ : ∃ trailing, mergeTrailing (tower a n ++ joint) (tower b n ++ joint)
      = some (trailing, tower a n, tower b n) := by
    rcases ends with rfl | rfl
    · exact ⟨_, by simpa using (mergeTrailing_tower a b n).1⟩
    · exact ⟨_, (mergeTrailing_tower a b n).2⟩
  have start : ∀ name, startCombinators (tower name n ++ joint) = [] ∧
      (tower name n ++ joint).dropWhile Item.isCombinator = tower name n ++ joint := by
    intro name
    obtain ⟨rest, eq⟩ := exists_cons_tower name n
    rw [eq]
    exact ⟨rfl, rfl⟩
  have shared : shareRoot (tower a n) (tower b n) = some (tower a n, tower b n) := by
    obtain ⟨rest₁, first₁⟩ := exists_cons_tower a n
    obtain ⟨rest₂, first₂⟩ := exists_cons_tower b n
    rw [first₁, first₂]
    rfl
  refine ⟨trailing, ?_⟩
  rw [takeApart, (start a).1, (start a).2, (start b).1, (start b).2, mergeCombinators_nil, merged]
  simp [shared]

/-- A callback that does not come to an end keeps the table from ending. -/
theorem commonSubsequenceM_eq_none {α β γ : Type} {select : α → β → Option (Option γ)} {x : α}
    {y : β} (h : select x y = none) : commonSubsequenceM select [x] [y] = none := by
  simp [commonSubsequenceM, fillRowsM, fillRowM, List.replicate, h]

/-- Comparing two towers asks for their unification. -/
theorem commonGroupM_tower (ne : a ≠ b)
    {unify : List Item → List Item → Option (Option (List (List Item)))}
    (h : unify (tower a n) (tower b n) = none) :
    commonGroupM unify (tower a n) (tower b n) = none := by
  have head : ∀ name, (tower name n).head?.any Item.isCompound = true := by
    intro name
    obtain ⟨rest, eq⟩ := exists_cons_tower name n
    rw [eq]
    rfl
  simp [commonGroupM, equivItems_tower ne, head, parentSuperselector_tower ne,
    parentSuperselector_tower ne.symm, mustUnify_tower, h]

/-- Unifying two towers asks for the merge of what stands before their ends. -/
theorem unifyRowsWithM_tower {merge : List Item → List Item → Option (Option (List (List Item)))}
    (h : merge (tower a n ++ repeated) (tower b n ++ repeated) = none) :
    unifyRowsWithM merge [tower a (n + 1), tower b (n + 1)] = none := by
  obtain ⟨base, bases⟩ := unifyBases_rivals (tower a n ++ repeated) (tower b n ++ repeated) a b
  rw [← tower_succ, ← tower_succ] at bases
  have rows : withBase base [tower a (n + 1), tower b (n + 1)]
      = [tower a n ++ repeated, tower b n ++ repeated ++ [.compound base]] := by
    simp [withBase, tower_succ]
  have woven : weaveRowM merge [tower a n ++ repeated] (tower b n ++ repeated ++ [.compound base])
      = none := by
    rw [weaveRowM, List.getLast?_concat, List.dropLast_concat]
    obtain ⟨rest, eq⟩ := exists_cons_tower b n
    rw [eq, List.cons_append] at h ⊢
    simp [h]
  simp [unifyRowsWithM, bases, rows, weaveWithM, woven, -List.append_assoc]

/-- A tower of `n` more compounds needs more than `n` levels: each level takes off one compound, as
the last one of the group, and the two combinators before it, as trailing ones. -/
theorem weaveParentsUpTo_tower (n : ℕ) (ne : a ≠ b) {joint : List Item}
    (ends : joint = [] ∨ joint = repeated) :
    weaveParentsUpTo n (tower a n ++ joint) (tower b n ++ joint) = none := by
  induction n generalizing a b joint with
  | zero => rfl
  | succ n ih =>
    obtain ⟨trailing, apart⟩ := takeApart_tower a b (n + 1) ends
    have deeper : unifyRowsWithM (weaveParentsUpTo n) [tower b (n + 1), tower a (n + 1)] = none :=
      unifyRowsWithM_tower (ih ne.symm (.inr rfl))
    rw [weaveParentsUpTo, weaveParentsM, apart]
    dsimp only
    rw [groupItems_tower, groupItems_tower, commonSubsequenceM_eq_none
      (commonGroupM_tower ne.symm deeper)]
    rfl

/-- **No fixed number of levels is enough.** -/
theorem exists_deep (levels : ℕ) : ∃ parents₁ parents₂ : List Item,
    parents₁.length + parents₂.length = 6 * levels + 2 ∧
      weaveParentsUpTo levels parents₁ parents₂ = none := by
  have apart : "a" ≠ "b" := by decide
  refine ⟨tower "a" levels, tower "b" levels, ?_, ?_⟩
  · rw [length_tower, length_tower]
    omega
  · simpa using weaveParentsUpTo_tower levels apart (.inl rfl)

end Tower

/-! ## All rows -/

/-- **Weaving comes to an end**, for all rows.

The first part is the recursion as it is, with nothing to stop it.  The others say that calls one
inside the other, or rounds of the trailing loop, have an answer as soon as there may be so many of
them, and never another one.  Any two rows of parents that are woven have an item, so half of their
items and one is no more than all of them; `mostItems` looks for the two that have most.  The last
part is a bound from below. -/
theorem weaving_ends :
    (∀ parents₁ parents₂ : List Item,
      (weaveParentsM (fun before parents => (pure (weaveParents before parents) : Id _))
        parents₁ parents₂).run = weaveParents parents₁ parents₂ ∧
      EndsWithin ((parents₁.length + parents₂.length) / 2 + 1)
      (weaveParentsUpTo · parents₁ parents₂)
        (weaveParents parents₁ parents₂)) ∧
    (∀ rows : List (List Item), EndsWithin (mostItems rows) (weaveUpTo · rows) (weave rows)) ∧
    (∀ rows : List (List Item),
      EndsWithin ((unifyBases rows).elim 0 fun base => mostItems (withBase base rows))
        (unifyRowsUpTo · rows) (unifyRows rows)) ∧
    (∀ (found : List (List (List Item))) (row₁ row₂ : List Item),
      EndsWithin (row₁.length + row₂.length + 1) (mergeTrailingUpTo · found row₁ row₂)
        (mergeTrailingOnto found row₁ row₂)) ∧
    ∀ levels, ∃ parents₁ parents₂ : List Item, parents₁.length + parents₂.length = 6 * levels + 2 ∧
      weaveParentsUpTo levels parents₁ parents₂ = none :=
  ⟨fun parents₁ parents₂ =>
    ⟨run_weaveParentsM parents₁ parents₂, endsWithin_weaveParents parents₁ parents₂⟩,
    endsWithin_weave, endsWithin_unifyRows, endsWithin_mergeTrailing, exists_deep⟩

end SelectorAlgebra
