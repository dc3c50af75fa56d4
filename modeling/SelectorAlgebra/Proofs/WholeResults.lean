import Mathlib
import SelectorAlgebra.Nesting
import SelectorAlgebra.Proofs.Columns
import SelectorAlgebra.Proofs.ExtendedCompounds
import SelectorAlgebra.Proofs.WholeSelectors

/-!
# Proofs/WholeResults — what is made of whole selectors is whole

A compound, a complex selector and a list must never be empty.  Each operation that makes new ones
out of whole selectors gives whole selectors:

* `isWholeRow_of_unifyRows`, `isWholeRow_of_mem_weave`,
  `SelectorList.isWhole_of_unify` — unifying and weaving;
* `ExtendContext.isWhole_of_complexesOfSelections` — the candidates for a compound,
  before they are trimmed;
* `isWhole_of_applyTargets` — extending and replacing outside a style sheet;
* `SelectorList.isWhole_of_resolveParents` — nesting.

The engine of the first three is that being whole is hereditary (`isHereditary_isWhole`).  Nesting
puts rows together itself: a row gets an item with each item of the nested selector
(`areWhole_continueWith`).
-/

namespace SelectorAlgebra

/-- A row that a whole selector can have. -/
def IsWholeRow (row : List Item) : Prop :=
  row ≠ [] ∧ AllCompounds (fun c => Compound.isWhole c = true) row

theorem Complex.isWhole_iff_isWholeRow {c : Complex} : c.isWhole = true ↔ IsWholeRow c.items :=
  Complex.isWhole_iff

/-- There are selectors, and each is whole. -/
def AreWhole (found : List Complex) : Prop := found ≠ [] ∧ ∀ c ∈ found, c.isWhole = true

theorem Simple.isWhole_of_argument? {s : Simple} (h : s.argument? = none) : s.isWhole = true :=
  Simple.isWhole_iff.2 fun l hl => by rw [h] at hl; cases hl

/-- Being whole goes over to all that a selector becomes. -/
theorem isHereditary_isWhole : IsHereditary (fun s => s.isWhole = true)
    (fun c => Compound.isWhole c = true) (fun c => Complex.isWhole c = true) where
  toIsLasting := by
    have filled : (fun c => Compound.isWhole c = true) = IsFilled fun s => s.isWhole = true :=
      funext fun c => propext Compound.isWhole_iff
    rw [filled]
    refine isLasting_isFilled fun s hs => Simple.isWhole_of_argument? ?_
    cases s with
    | universal | type => rfl
    | _ => cases hs
  ofRow c h := Complex.isWhole_iff.2 h
  row c h := (Complex.isWhole_iff.1 h).2
  argument p l hp hl := (SelectorList.isWhole_iff.1 (Simple.isWhole_iff.1 hp l hl)).2
  withSelector p l _ filled hl := Simple.isWhole_iff.2 fun l' hl' => by
    obtain rfl : l = l' := Option.some.inj hl'
    exact SelectorList.isWhole_iff.2 ⟨filled, hl⟩

/-- Unification keeps compounds whole. -/
theorem unifyKeeps_isWhole :
    UnifyKeeps fun c => Compound.isWhole c = true := isHereditary_isWhole.unify

/-! ## Unifying and weaving -/

section Rows

variable {merge : List Item → List Item → Option (List (List Item))} {woven rows : List (List Item)}
  {row last : List Item} {base : Compound}

/-- What is woven with a row has at least its end. -/
theorem ne_nil_of_mem_weaveRow (h : row ≠ []) : ∀ row' ∈ weaveRow merge woven row, row' ≠ [] := by
  intro row' mem
  unfold weaveRow at mem
  split at mem
  · rename_i missing
    exact absurd (List.getLast?_eq_none_iff.1 missing) h
  · split at mem
    · obtain ⟨before, -, rfl⟩ := List.mem_map.1 mem
      exact List.append_ne_nil_of_right_ne_nil _ (List.cons_ne_nil _ _)
    · obtain ⟨_, -, mem⟩ := List.mem_flatMap.1 mem
      obtain ⟨before, -, rfl⟩ := List.mem_map.1 mem
      exact List.append_ne_nil_of_right_ne_nil _ (List.cons_ne_nil _ _)

/-- Woven rows end as the last row does, so they are not empty if it is not. -/
theorem ne_nil_of_mem_weaveWith (h : last ≠ []) :
    ∀ row ∈ weaveWith merge (rows ++ [last]), row ≠ [] := by
  cases rows with
  | nil => exact List.forall_mem_singleton.2 h
  | cons first rows =>
    rw [List.cons_append, weaveWith, List.foldl_append]
    exact ne_nil_of_mem_weaveRow h

/-- Whole rows weave to whole rows. -/
theorem isWholeRow_of_mem_weave (h : ∀ row ∈ rows, IsWholeRow row) :
    ∀ row ∈ weave rows, IsWholeRow row := by
  intro row mem
  refine ⟨?_, allCompounds_of_mem_weave unifyKeeps_isWhole (fun row hrow => (h row hrow).2) row mem⟩
  rcases List.eq_nil_or_concat rows with rfl | ⟨before, last, rfl⟩
  · cases mem
  · rw [List.concat_eq_append] at h mem
    exact ne_nil_of_mem_weaveWith (h last (by simp)).1 row mem

theorem isWholeRow_of_unifyRows {found : List (List Item)} (h : ∀ row ∈ rows, IsWholeRow row)
    (hfound : unifyRows rows = some found) : ∀ row ∈ found, IsWholeRow row := by
  intro row mem
  refine ⟨?_, allCompounds_of_unifyRows unifyKeeps_isWhole (fun row hrow => (h row hrow).2) hfound
    row mem⟩
  unfold unifyRows unifyRowsWith at hfound
  split at hfound
  · obtain rfl := Option.some.inj hfound
    exact (h row mem).1
  · obtain ⟨base, hbase, rfl⟩ := Option.map_eq_some_iff.1 hfound
    rcases List.eq_nil_or_concat rows with rfl | ⟨before, last, rfl⟩
    · cases mem
    · rw [List.concat_eq_append, withBase_concat] at mem
      exact ne_nil_of_mem_weaveWith (by simp) row mem

end Rows

section Unify

variable {c₁ c₂ : Complex} {l₁ l₂ : SelectorList}

/-- **Whole selectors unify to whole selectors.** -/
theorem Complex.areWhole_of_unify (h₁ : c₁.isWhole = true) (h₂ : c₂.isWhole = true)
    {found : List Complex} (h : c₁.unify c₂ = some found) : AreWhole found := by
  have rows_whole : ∀ row ∈ [c₁.items, c₂.items], IsWholeRow row :=
    List.forall_mem_cons.2 ⟨isWhole_iff_isWholeRow.1 h₁,
      List.forall_mem_singleton.2 (isWhole_iff_isWholeRow.1 h₂)⟩
  unfold Complex.unify at h
  split at h
  · cases h
  · rename_i rows hrows
    split at h
    · cases h
    · rename_i filled
      obtain rfl := Option.some.inj h
      refine ⟨fun empty => filled (List.map_eq_nil_iff.1 empty), List.forall_mem_map.2
        fun row mem => ?_⟩
      exact isWhole_iff_isWholeRow.2
        (isWholeRow_of_unifyRows rows_whole hrows row (List.mem_of_mem_filter mem))

/-- And whole lists to whole lists. -/
theorem SelectorList.isWhole_of_unify (h₁ : l₁.isWhole = true) (h₂ : l₂.isWhole = true)
    {l : SelectorList} (h : l₁.unify l₂ = some l) : l.isWhole = true := by
  unfold SelectorList.unify at h
  split at h
  · cases h
  · rename_i filled
    obtain rfl := Option.some.inj h
    refine isWhole_iff.2 ⟨filled, fun c hc => ?_⟩
    obtain ⟨c₁, hc₁, hc⟩ := List.mem_flatMap.1 hc
    obtain ⟨c₂, hc₂, hc⟩ := List.mem_flatMap.1 hc
    cases found : c₁.unify c₂ with
    | none => simp [found] at hc
    | some both =>
      rw [found] at hc
      exact (Complex.areWhole_of_unify ((isWhole_iff.1 h₁).2 c₁ hc₁) ((isWhole_iff.1 h₂).2 c₂ hc₂)
        found).2 c hc

end Unify

/-! ## Extending and replacing -/

namespace ExtendContext

variable {ctx : ExtendContext}

/-- Every extender is whole. -/
def IsWhole (ctx : ExtendContext) : Prop := ∀ e, ctx.Holds e → e.extender.isWhole = true

theorem IsWhole.all (h : ctx.IsWhole) : ctx.All fun c => Compound.isWhole c = true :=
  fun e he => isHereditary_isWhole.row _ (h e he)

/-- The conditions of a compound with what replaces them, with arguments up to `n` levels deep. -/
def partsOf (ctx : ExtendContext) (n : ℕ) (c : Compound) :
    Extending (List (Simple × Option (List Simple))) :=
  c.mapM fun s => do return (s, ← s.extendArgument (ctx.extendListWithin n))

/-- The parts of a whole compound, its arguments extended one level down. -/
theorem partsOf_isPart (h : ctx.IsWhole) (n : ℕ) {c : Compound} (hc : Compound.isWhole c = true)
    (authored : List Complex) :
    Ensures (fun _ _ => True) (ctx.partsOf n c) authored fun parts _ =>
      ∀ part ∈ parts, IsPart (fun s => s.isWhole = true) part :=
  mapM_isPart (isHereditary_isWhole.conditions c hc) fun s hs =>
    replacesAll_of_inner isHereditary_isWhole
    (fun _ => extendListWithin_givesFilled isHereditary_isWhole h.all n)
    (isHereditary_isWhole.conditions c hc s hs)

section Choices

variable {parts : List (Simple × Option (List Simple))} {choices : List (List Substitute)}

theorem holds_of_mem_compoundChoices (hp : ∀ part ∈ parts, part.2 ≠ some [])
    (hc : ctx.compoundChoices parts = some choices) :
    ∀ choice ∈ choices, ∀ e, .extended e ∈ choice → ctx.Holds e := by
  obtain ⟨before, conditions, -, -, -, -, rfl⟩ := exists_conditions_of_compoundChoices hp hc
  rw [List.forall_mem_append]
  constructor
  · split
    · exact List.forall_mem_nil _
    · exact List.forall_mem_singleton.2 fun e he => by cases List.mem_singleton.1 he
  · intro choice hchoice e he
    obtain ⟨s, -, rfl⟩ := List.mem_map.1 hchoice
    rcases mem_optionsFor he with ⟨eq, -⟩ | ⟨-, e', eq, held⟩
    · cases eq
    · cases eq
      exact held

/-- Whatever stands for conditions of a compound is a whole selector. -/
theorem isWhole_of_mem_compoundChoices (h : ctx.IsWhole)
    (hp : ∀ part ∈ parts, IsPart (fun s => s.isWhole = true) part)
    (hc : ctx.compoundChoices parts = some choices) :
    ∀ choice ∈ choices, ∀ o ∈ choice, o.complex.isWhole = true := by
  intro choice hchoice o ho
  have all := all_of_mem_compoundChoices isHereditary_isWhole.toIsLasting h.all hp hc choice hchoice
    o ho
  cases o with
  | kept conditions => exact Complex.isWhole_iff.2 ⟨List.cons_ne_nil _ _, allCompounds_compound all⟩
  | extended e =>
    exact h e (holds_of_mem_compoundChoices (fun part hpart => (hp part hpart).filled) hc
      choice hchoice e ho)

/-- No selection gives an empty row. -/
theorem items_ne_nil_of_complexesOfSelections {found : List (Option (List Complex))}
    (h : ctx.complexesOfSelections choices = .ok found) :
    ∀ l, some l ∈ found → ∀ c ∈ l, c.items ≠ [] := by
  intro l hl c hc
  obtain ⟨selection, -, rows, eq, -⟩ := exists_candidate h hl
  obtain ⟨_, -, found⟩ := exists_rows_of_complexesOf eq
  exact (found c hc).2

/-- **Candidates are whole before any of them is trimmed.** -/
theorem isWhole_of_complexesOfSelections (h : ctx.IsWhole)
    (hp : ∀ part ∈ parts, IsPart (fun s => s.isWhole = true) part)
    (hc : ctx.compoundChoices parts = some choices) {found : List (Option (List Complex))}
    (hf : ctx.complexesOfSelections choices = .ok found) :
    ∀ l, some l ∈ found → ∀ c ∈ l, c.isWhole = true := by
  intro l hl c hcl
  have lasting := isHereditary_isWhole.toIsLasting
  refine Complex.isWhole_iff.2 ⟨items_ne_nil_of_complexesOfSelections hf l hl c hcl, ?_⟩
  exact allCompounds_of_complexesOfSelections lasting
    (all_of_mem_compoundChoices lasting h.all hp hc)
    (fun hm => heads_compoundChoices hm (fun part hpart => (hp part hpart).filled) hc) hf
    _ hl l rfl c hcl

end Choices

end ExtendContext

section OneShot

variable {mode : ExtendMode} {l source targets found : SelectorList} {target : Compound}
  {span : Span}

/-- One target after another keeps a list whole. -/
theorem applyTarget_isWhole (hs : source.isWhole = true) (hl : l.isWhole = true)
    (authored : List Complex) :
    Ensures (fun _ _ => True) (applyTarget mode source span l target) authored fun found _ =>
      found.isWhole = true := by
  have extenders : ExtendContext.All (fun c => Compound.isWhole c = true)
      ⟨mode, .empty, extensionsOf source target span, none⟩ := fun e he =>
    isHereditary_isWhole.row _ ((SelectorList.isWhole_iff.1 hs).2 _ (extender_mem_of_holds he))
  refine (ExtendContext.extendList_givesFilled isHereditary_isWhole extenders
    (SelectorList.isWhole_iff.1 hl).2 authored).bind fun found _ _ filled => .pure ?_
  cases found with
  | none => exact hl
  | some found => exact SelectorList.isWhole_iff.2 (filled found rfl)

/-- **Extending and replacing keep a selector whole.** -/
theorem isWhole_of_applyTargets (hs : source.isWhole = true) (hl : l.isWhole = true)
    (h : applyTargets mode l source targets span = .ok found) : found.isWhole = true := by
  induction targets using List.reverseRecOn generalizing found with
  | nil =>
    obtain rfl : l = found := Except.ok.inj h
    exact hl
  | append_singleton before c ih =>
    obtain ⟨target, reached, authored, -, hreached, h⟩ := exists_of_applyTargets_concat h
    exact (applyTarget_isWhole hs (ih hreached) authored).2 found h

end OneShot

/-! ## Nesting -/

section Nesting

variable {s s' : Simple} {parent : SelectorList}
  {resolve : SelectorList → Except SelectorError SelectorList}

/-- A suffix is only added to a condition without argument. -/
theorem Simple.plain_of_withSuffix {suffix : String} (h : s.withSuffix suffix = .ok s') :
    s'.isParent = false ∧ s'.argument? = none := by
  unfold Simple.withSuffix at h
  split at h
  · cases h; exact ⟨rfl, rfl⟩
  · cases h; exact ⟨rfl, rfl⟩
  · cases h; exact ⟨rfl, rfl⟩
  · cases h; exact ⟨rfl, rfl⟩
  · split at h
    · cases h; exact ⟨rfl, rfl⟩
    · cases h
  · cases h

/-- A way to resolve arguments that keeps them whole. -/
def ResolvesWhole (resolve : SelectorList → Except SelectorError SelectorList) : Prop :=
  ∀ l l', SelectorList.isWhole l = true → resolve l = .ok l' → SelectorList.isWhole l' = true

/-- **What resolving does to one condition**: it stays if its argument has no `&`, or has none; else
the argument gives way to what it resolves to. -/
theorem Simple.resolveArgument_cases (resolve : SelectorList → Except SelectorError SelectorList)
    (s : Simple) :
    s.argumentContainsParent = false ∧ s.resolveArgument resolve = .ok s ∨
      ∃ p l, s = .pseudo p ∧ p.selector = some l ∧ SelectorList.containsParent l = true ∧
        s.resolveArgument resolve = (do return .pseudo (p.withSelector (← resolve l))) := by
  cases s with
  | pseudo p =>
    cases hp : p.selector with
    | none => exact .inl ⟨by simp [argumentContainsParent, argument?, hp], by
        simp only [resolveArgument, hp]⟩
    | some l =>
      cases named : SelectorList.containsParent l with
      | false => exact .inl ⟨by simp [argumentContainsParent, argument?, hp, named], by
          simp only [resolveArgument, hp, named, Bool.false_eq_true, if_false]⟩
      | true => exact .inr ⟨p, l, rfl, hp, named, by
          simp only [resolveArgument, hp, named, if_true]⟩
  | _ => exact .inl ⟨rfl, rfl⟩

/-- Resolving an argument keeps its condition whole. -/
theorem Simple.isWhole_of_resolveArgument (hr : ResolvesWhole resolve) (hs : s.isWhole = true)
    (h : s.resolveArgument resolve = .ok s') : s'.isWhole = true := by
  rcases s.resolveArgument_cases resolve with ⟨-, eq⟩ | ⟨p, l, rfl, selector, -, eq⟩
  · exact Except.ok.inj (eq.symm.trans h) ▸ hs
  · rw [eq] at h
    obtain ⟨l', hl', h⟩ := exists_of_bind_ok h
    obtain rfl := Except.ok.inj h
    refine Simple.isWhole_iff.2 fun l'' eq => ?_
    obtain rfl : l' = l'' := Option.some.inj eq
    exact hr l l' (Simple.isWhole_iff.1 hs l selector) hl'

/-- A parent that ends in a compound goes on with others: its last condition may get a suffix, and
the others stand behind it. -/
theorem joinToParent_eq {suffix : Option String} {conditions : List Simple} {c : Complex}
    {d : Compound} (hd : c.items.getLast? = some (.compound d)) (hs : d.getLast? = some s) :
    joinToParent suffix conditions c = (suffix.elim (.ok s) s.withSuffix).map fun last =>
      ⟨c.items.dropLast ++ [.compound (d.dropLast ++ last :: conditions)], c.lineBreak⟩ := by
  have last : c.lastCompound? = some d := by rw [Complex.lastCompound?, hd]; rfl
  rw [joinToParent, last, Option.bind_some, hs]
  cases suffix <;> rfl

/-- Any other parent is refused. -/
theorem joinToParent_incompatible {suffix : Option String} {conditions : List Simple} {c : Complex}
    (h : ∀ d s, c.items.getLast? = some (.compound d) → d.getLast? ≠ some s) :
    joinToParent suffix conditions c = .error (.incompatibleParent c) := by
  have missing : c.lastCompound?.bind List.getLast? = none := by
    refine Option.eq_none_iff_forall_ne_some.2 fun s hs => ?_
    obtain ⟨d, hd, hs⟩ := Option.bind_eq_some_iff.1 hs
    obtain ⟨item, hitem, eq⟩ := Option.bind_eq_some_iff.1 hd
    cases item with
    | compound d' =>
      obtain rfl := Option.some.inj eq
      exact h d' s hitem hs
    | combinator k => cases eq
  rw [joinToParent, missing]

/-- What a parent becomes: its last compound, without its last condition, goes on with others. -/
theorem exists_of_joinToParent {suffix : Option String} {conditions : List Simple} {c c' : Complex}
    (h : joinToParent suffix conditions c = .ok c') :
    ∃ d s last, c.items.getLast? = some (.compound d) ∧
      d.getLast? = some s ∧ suffix.elim (.ok s) s.withSuffix = .ok last ∧
      c' = ⟨c.items.dropLast ++ [.compound (d.dropLast ++ last :: conditions)], c.lineBreak⟩ := by
  by_cases ends : ∃ d s, c.items.getLast? = some (.compound d) ∧ d.getLast? = some s
  · obtain ⟨d, s, hd, hs⟩ := ends
    rw [joinToParent_eq hd hs] at h
    cases hlast : suffix.elim (.ok s) s.withSuffix with
    | error e => rw [hlast] at h; cases h
    | ok last =>
      rw [hlast] at h
      exact ⟨d, s, last, hd, hs, hlast, (Except.ok.inj h).symm⟩
  · rw [joinToParent_incompatible fun d s hd hs => ends ⟨d, s, hd, hs⟩] at h
    cases h

/-- What goes for the conditions of a parent and for those without argument goes for its last one,
with or without a suffix. -/
theorem of_withSuffix {P : Simple → Prop} {suffix : Option String} {last : Simple} (own : P s)
    (plain : ∀ s : Simple, s.isParent = false → s.argument? = none → P s)
    (h : suffix.elim (.ok s) s.withSuffix = .ok last) : P last := by
  cases suffix with
  | none => exact Except.ok.inj h ▸ own
  | some suffix =>
    obtain ⟨notParent, noArgument⟩ := Simple.plain_of_withSuffix h
    exact plain last notParent noArgument

/-- Joining to a parent keeps the conditions whole. -/
theorem Complex.isWhole_of_joinToParent {suffix : Option String} {conditions : List Simple}
    {c c' : Complex} (hc : c.isWhole = true) (hconditions : ∀ s ∈ conditions, s.isWhole = true)
    (h : joinToParent suffix conditions c = .ok c') : c'.isWhole = true := by
  obtain ⟨d, s, last, hd, hs, hlast, rfl⟩ := exists_of_joinToParent h
  have row := (Complex.isWhole_iff.1 hc).2
  have conditions_whole := (Compound.isWhole_iff.1 (row d (List.mem_of_getLast? hd))).2
  refine Complex.isWhole_iff.2 ⟨by simp, allCompounds_append.2 ⟨?_, allCompounds_compound ?_⟩⟩
  · exact AllCompounds.of_subset row (List.dropLast_subset _)
  · refine Compound.isWhole_iff.2 ⟨by simp, List.forall_mem_append.2 ⟨fun s hs => ?_, ?_⟩⟩
    · exact conditions_whole s (List.dropLast_subset _ hs)
    · refine List.forall_mem_cons.2 ⟨?_, hconditions⟩
      exact of_withSuffix (conditions_whole s (List.mem_of_getLast? hs))
        (fun _ _ plain => Simple.isWhole_of_argument? plain) hlast

theorem areWhole_of_resolveCompound (hr : ResolvesWhole resolve) (hp : parent.isWhole = true)
    {c : Compound} (hc : Compound.isWhole c = true) {found : List Complex}
    (h : resolveCompound resolve parent c = .ok (some found)) : AreWhole found := by
  obtain ⟨filled, conditions⟩ := Compound.isWhole_iff.1 hc
  obtain ⟨parents, choices⟩ := SelectorList.isWhole_iff.1 hp
  obtain ⟨resolved, hresolved, h⟩ := exists_of_bind_ok h
  have each := forall₂_of_mapM_ok hresolved
  have resolved_whole : ∀ s ∈ resolved, s.isWhole = true := by
    intro s hs
    obtain ⟨t, ht, eq⟩ := exists_mem_of_forall₂ each.flip hs
    exact Simple.isWhole_of_resolveArgument hr (conditions t ht) eq
  split at h
  · obtain rfl := Option.some.inj (Except.ok.inj h)
    exact ⟨parents, choices⟩
  · obtain ⟨joined, hjoined, h⟩ := exists_of_bind_ok h
    obtain rfl := Option.some.inj (Except.ok.inj h)
    have each := forall₂_of_mapM_ok hjoined
    refine ⟨fun empty => parents ?_, fun c' hc' => ?_⟩
    · rw [empty] at each
      exact List.forall₂_nil_right_iff.1 each
    · obtain ⟨p, hp, eq⟩ := exists_mem_of_forall₂ each.flip hc'
      exact Complex.isWhole_of_joinToParent (choices p hp)
        (fun s hs => resolved_whole s (List.mem_of_mem_tail hs)) eq
  · split at h
    · obtain rfl := Option.some.inj (Except.ok.inj h)
      have whole : Compound.isWhole resolved = true := by
        refine Compound.isWhole_iff.2 ⟨fun empty => filled ?_, resolved_whole⟩
        rw [empty] at each
        exact List.forall₂_nil_right_iff.1 each
      exact ⟨List.cons_ne_nil _ _, List.forall_mem_singleton.2
        (Complex.isWhole_iff.2 ⟨List.cons_ne_nil _ _, allCompounds_compound whole⟩)⟩
    · cases Except.ok.inj h

/-- Going on with an item makes whole rows of rows with whole compounds. -/
theorem areWhole_continueWith {rows : List Complex} {item : Item} {found : Option (List Complex)}
    (nonempty : rows ≠ [])
    (hrows : ∀ row ∈ rows, AllCompounds (fun c => Compound.isWhole c = true) row.items)
    (hitem : ∀ c, item = .compound c → Compound.isWhole c = true)
    (hfound : ∀ l, found = some l → AreWhole l) : AreWhole (continueWith rows item found) := by
  cases found with
  | none =>
    refine ⟨fun empty => nonempty (List.map_eq_nil_iff.1 empty), List.forall_mem_map.2
      fun row hrow => ?_⟩
    exact Complex.isWhole_iff.2 ⟨by simp, allCompounds_append.2
      ⟨hrows row hrow, allCompounds_cons.2 ⟨hitem, by simp [AllCompounds]⟩⟩⟩
  | some found =>
    obtain ⟨filled, whole⟩ := hfound found rfl
    refine ⟨fun empty => ?_, fun c hc => ?_⟩
    · obtain ⟨row, hrow⟩ := List.exists_mem_of_ne_nil _ nonempty
      exact filled (List.map_eq_nil_iff.1 (List.flatMap_eq_nil_iff.1 empty row hrow))
    · obtain ⟨row, hrow, hc⟩ := List.mem_flatMap.1 hc
      obtain ⟨d, hd, rfl⟩ := List.mem_map.1 hc
      obtain ⟨items, compounds⟩ := Complex.isWhole_iff.1 (whole d hd)
      exact Complex.isWhole_iff.2 ⟨List.append_ne_nil_of_right_ne_nil _ items,
        allCompounds_append.2 ⟨hrows row hrow, compounds⟩⟩

/-- The rows after any number of items are whole, or they are those before the first one. -/
theorem areWhole_of_foldlM (hr : ResolvesWhole resolve) (hp : parent.isWhole = true)
    {items : List Item}
    (hi : AllCompounds (fun c => Compound.isWhole c = true) items) {rows found : List Complex}
    (nonempty : rows ≠ [])
    (hrows : ∀ row ∈ rows, AllCompounds (fun c => Compound.isWhole c = true) row.items)
    (h : items.foldlM (fun rows item => do
      return continueWith rows item (← resolveItem resolve parent item)) rows = .ok found) :
    AreWhole found ∨ items = [] ∧ found = rows := by
  induction items generalizing rows with
  | nil => exact .inr ⟨rfl, (Except.ok.inj h).symm⟩
  | cons item items ih =>
    obtain ⟨hitem, hi⟩ := allCompounds_cons.1 hi
    obtain ⟨next, hnext, h⟩ := exists_of_bind_ok h
    obtain ⟨replaced, hreplaced, hnext⟩ := exists_of_bind_ok hnext
    obtain rfl := Except.ok.inj hnext
    have whole : AreWhole (continueWith rows item replaced) := by
      refine areWhole_continueWith nonempty hrows hitem fun l eq => ?_
      subst eq
      cases item with
      | compound c => exact areWhole_of_resolveCompound hr hp (hitem c rfl) hreplaced
      | combinator k => cases hreplaced
    obtain found_whole | ⟨-, rfl⟩ := ih hi whole.1
      (fun row hrow => (Complex.isWhole_iff.1 (whole.2 row hrow)).2) h
    · exact .inl found_whole
    · exact .inl whole

theorem areWhole_of_resolveComplex (hr : ResolvesWhole resolve) (hp : parent.isWhole = true)
    {implicit : Bool} {c : Complex} (hc : c.isWhole = true) {found : List Complex}
    (h : resolveComplex resolve parent implicit c = .ok found) : AreWhole found := by
  obtain ⟨items, compounds⟩ := Complex.isWhole_iff.1 hc
  obtain ⟨parents, choices⟩ := SelectorList.isWhole_iff.1 hp
  unfold resolveComplex at h
  split at h
  · have start : ∀ row ∈ [(⟨[], false⟩ : Complex)],
        AllCompounds (fun c => Compound.isWhole c = true) row.items :=
      List.forall_mem_singleton.2 (by simp [AllCompounds])
    obtain whole | ⟨empty, -⟩ := areWhole_of_foldlM hr hp compounds (List.cons_ne_nil _ _) start h
    · exact whole
    · exact absurd empty items
  · split at h
    · obtain rfl := Except.ok.inj h
      refine ⟨fun empty => parents (List.map_eq_nil_iff.1 empty),
        List.forall_mem_map.2 fun p hp => ?_⟩
      exact Complex.isWhole_iff.2 ⟨List.append_ne_nil_of_right_ne_nil _ items,
        allCompounds_append.2 ⟨(Complex.isWhole_iff.1 (choices p hp)).2, compounds⟩⟩
    · obtain rfl := Except.ok.inj h
      exact ⟨List.cons_ne_nil _ _, List.forall_mem_singleton.2 hc⟩

/-- **Nesting keeps a selector whole**, to any depth of arguments. -/
theorem resolvesWhole_resolveWithin (hp : parent.isWhole = true) : ∀ (n : ℕ) (implicit : Bool),
    ResolvesWhole (resolveWithin n parent implicit)
  | 0, _, l, l', hl, h => Except.ok.inj h ▸ hl
  | n + 1, implicit, l, l', hl, h => by
    obtain ⟨filled, choices⟩ := SelectorList.isWhole_iff.1 hl
    obtain ⟨rows, hrows, h⟩ := exists_of_bind_ok h
    obtain rfl := Except.ok.inj h
    have each := forall₂_of_mapM_ok hrows
    have whole : ∀ row ∈ rows, AreWhole row := by
      intro row hrow
      obtain ⟨c, hc, eq⟩ := exists_mem_of_forall₂ each.flip hrow
      exact areWhole_of_resolveComplex (resolvesWhole_resolveWithin hp n false) hp (choices c hc) eq
    refine SelectorList.isWhole_iff.2 ⟨?_, fun c hc => ?_⟩
    · obtain ⟨c, rest, rfl⟩ := List.exists_cons_of_ne_nil filled
      obtain ⟨row, rows, -, -, rfl⟩ := List.forall₂_cons_left_iff.1 each
      exact roundRobin_ne_nil List.mem_cons_self (whole row List.mem_cons_self).1
    · obtain ⟨row, hrow, hc⟩ := mem_roundRobin.1 hc
      exact (whole row hrow).2 c hc

/-- **Resolution gives whole lists.** -/
theorem SelectorList.isWhole_of_resolveParents {l l' : SelectorList} {parent : Option SelectorList}
    {implicit : Bool} (hl : l.isWhole = true) (hp : ∀ p, parent = some p → p.isWhole = true)
    (h : l.resolveParents parent implicit = .ok l') : l'.isWhole = true := by
  unfold SelectorList.resolveParents at h
  split at h
  · split at h
    · cases h
    · exact Except.ok.inj h ▸ hl
  · rename_i p
    exact resolvesWhole_resolveWithin (hp p rfl) _ _ l l' hl h

end Nesting

end SelectorAlgebra
