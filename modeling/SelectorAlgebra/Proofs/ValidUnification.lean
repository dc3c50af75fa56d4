import Mathlib
import SelectorAlgebra.Proofs.SoundSelectors

/-!
# Proofs/ValidUnification — two valid selectors unify to valid ones

* `unify_valid` — if two selectors are valid and `:root` is in none of their parents, the same holds
  of every selector that they unify to.

A valid selector is an open row of parents before one compound (`isBogus_eq_false_iff`).  Unifying
two of them merges the last compounds, weaves the parents and puts the one behind the other
(`exists_isWoven_of_unifyRows`), and open rows are woven into open rows (`weaves_weaveParents`).

Only parents have to be without `:root`.  It is taken off the row that it begins, and a combinator
behind it would begin what is left.
-/

namespace SelectorAlgebra

/-- The condition may be moved between parents: its argument is valid, and it is not `:root`. -/
structure Simple.IsMovable (s : Simple) : Prop where
  argument : s.hasBogusArgument = false
  rootless : Compound.isRoot [s] = false

theorem isStable_isMovable : IsStable Simple.IsMovable where
  element s hs := by
    cases s with
    | universal | type => exact ⟨rfl, rfl⟩
    | _ => cases hs
  rootless p h := by simpa [Compound.isRoot] using h.rootless

/-- **A selector is valid if an open row of parents stands before one compound.** -/
theorem isBogus_eq_false_iff {c : Complex} :
    (c.isBogus = false ∧ ∀ d ∈ c.compounds.dropLast, Compound.isRoot d = false) ↔
      ∃ parents base, c.items = parents ++ [.compound base] ∧ IsOpenRow Simple.IsMovable parents ∧
        ∀ s ∈ base, s.hasBogusArgument = false := by
  have parents_of : ∀ {parents base}, c.items = parents ++ [.compound base] →
      c.compounds.dropLast = parents.filterMap Item.compound? := by
    intro parents base items
    rw [Complex.compounds, items, List.filterMap_append]
    exact List.dropLast_concat
  constructor
  · rintro ⟨valid, rootless⟩
    obtain ⟨closed, filled⟩ := isValidRow_zero.1 (isValidRow_arguments_iff.2 valid)
    obtain ⟨parents, base, items, isOpen, arguments⟩ := closed.exists_concat filled
    refine ⟨parents, base, items, ⟨isOpen.beside, isOpen.head, fun d hd s hs => ?_⟩, arguments⟩
    rw [parents_of items] at rootless
    exact ⟨isOpen.conditions d hd s hs, isRoot_eq_false_iff.1
      (rootless d (mem_filterMap_compound?.2 hd)) s hs⟩
  · rintro ⟨parents, base, items, isOpen, arguments⟩
    have row :=
      isValidRow_zero.2 ⟨(isOpen.mono fun _ => Simple.IsMovable.argument).concat arguments,
      List.append_ne_nil_of_right_ne_nil _ (List.cons_ne_nil _ _)⟩
    rw [← items, isValidRow_arguments_iff] at row
    refine ⟨row, fun d hd => isRoot_eq_false_iff.2 fun s hs => ?_⟩
    rw [parents_of items] at hd
    exact (isOpen.conditions d (mem_filterMap_compound?.1 hd) s hs).rootless

/-- **Unifying two rows weaves their parents and merges their last compounds.** -/
theorem exists_isWoven_of_unifyRows {G : Simple → Prop} (hG : IsStable G)
    {parents₁ parents₂ : List Item} (h₁ : IsOpenRow G parents₁) (h₂ : IsOpenRow G parents₂)
    {base₁ base₂ : Compound} {rows : List (List Item)}
    (h : unifyRows [parents₁ ++ [.compound base₁], parents₂ ++ [.compound base₂]] = some rows) :
    ∃ base, Compound.unify base₂ base₁ = some base ∧
      ∀ row ∈ rows, ∃ init, row = init ++ [.compound base] ∧ IsWoven G parents₁ parents₂ init := by
  have bases : unifyBases [parents₁ ++ [.compound base₁], parents₂ ++ [.compound base₂]]
      = Compound.unify base₂ base₁ := by
    simp [unifyBases, baseOfRow, Item.compound?]
  obtain ⟨base, hbase, rfl⟩ := Option.map_eq_some_iff.1 h
  refine ⟨base, bases ▸ hbase, fun row hrow => ?_⟩
  simp only [withBase, List.dropLast_concat, weaveWith, List.foldl_cons, List.foldl_nil] at hrow
  obtain ⟨before, mem, init, rfl, shape⟩ := exists_isWoven_of_mem_weaveRow (weaves_weaveParents hG)
    [] (List.forall_mem_singleton.2 ⟨parents₁, rfl, h₁⟩) h₂ hrow
  obtain rfl : before = parents₁ := List.mem_singleton.1 mem
  exact ⟨init, rfl, shape⟩

/-- **Two valid selectors unify to valid ones**, if `:root` is in no parent of either; and it is in
no parent of what they unify to. -/
theorem unify_valid {a b : Complex} (ha : a.isBogus = false) (hb : b.isBogus = false)
    (rootless : ∀ c ∈ a.compounds.dropLast ++ b.compounds.dropLast, Compound.isRoot c = false)
    {found : List Complex} (h : a.unify b = some found) :
    ∀ c ∈ found, c.isBogus = false ∧ ∀ d ∈ c.compounds.dropLast, Compound.isRoot d = false := by
  rw [List.forall_mem_append] at rootless
  obtain ⟨parents₁, base₁, items₁, h₁, arguments₁⟩ := isBogus_eq_false_iff.1 ⟨ha, rootless.1⟩
  obtain ⟨parents₂, base₂, items₂, h₂, arguments₂⟩ := isBogus_eq_false_iff.1 ⟨hb, rootless.2⟩
  have element : ∀ s : Simple, s.isUniversalOrType = true → s.hasBogusArgument = false :=
    fun s hs => (isStable_isMovable.element s hs).argument
  unfold Complex.unify at h
  rw [items₁, items₂] at h
  split at h
  · cases h
  rename_i rows hrows
  obtain ⟨base, hbase, woven⟩ := exists_isWoven_of_unifyRows isStable_isMovable h₁ h₂ hrows
  split at h
  · cases h
  obtain rfl := Option.some.inj h
  rw [List.forall_mem_map]
  intro row hrow
  obtain ⟨init, rfl, shape⟩ := woven row (List.mem_of_mem_filter hrow)
  exact isBogus_eq_false_iff.2 ⟨init, base, rfl, shape.isOpen,
    forall_mem_unify element arguments₂ arguments₁ hbase⟩

/-- The groups around `#i` become one, `~` goes behind `>`, and `:root` may be in a last compound:
`.a > #i .b > .x` and `.c ~ #i.d .e ~ .y:root`. -/
theorem unify_valid_groups :
    let a : Complex := ⟨[.compound [.className "a"], .combinator .child, .compound [.idName "i"],
      .compound [.className "b"], .combinator .child, .compound [.className "x"]], false⟩
    let b : Complex := ⟨[.compound [.className "c"], .combinator .followingSibling,
      .compound [.idName "i", .className "d"], .compound [.className "e"],
      .combinator .followingSibling,
      .compound [.className "y", .pseudo (.ofClass "root")]], false⟩
    (a.isBogus = false ∧ b.isBogus = false ∧
      ∀ c ∈ a.compounds.dropLast ++ b.compounds.dropLast, Compound.isRoot c = false) ∧
    ∃ found, a.unify b = some found ∧
      found.map Complex.text = [".a > .c ~ #i.d .b > .e ~ .x.y:root"] ∧
      ∀ c ∈ found, c.isBogus = false ∧ ∀ d ∈ c.compounds.dropLast, Compound.isRoot d = false := by
  intro a b
  have ha : a.isBogus = false := by decide +kernel
  have hb : b.isBogus = false := by decide +kernel
  have rootless : ∀ c ∈ a.compounds.dropLast ++ b.compounds.dropLast,
      Compound.isRoot c = false := by
    decide +kernel
  obtain ⟨found, h, texts⟩ := Option.map_eq_some_iff.1 (show (a.unify b).map (List.map Complex.text)
    = some [".a > .c ~ #i.d .b > .e ~ .x.y:root"] by decide +kernel)
  exact ⟨⟨ha, hb, rootless⟩, found, h, texts, unify_valid ha hb rootless h⟩

/-- A `:root` among the parents leaves its combinator behind: `:root > .a .x` and `.b .y` unify to
`> .a :root .b .x.y` and `:root .b > .a .x.y`. -/
example : (Complex.unify ⟨[.compound [.pseudo (.ofClass "root")], .combinator .child,
      .compound [.className "a"], .compound [.className "x"]], false⟩
    ⟨[.compound [.className "b"], .compound [.className "y"]], false⟩).map
      (List.map Complex.isBogus)
      = some [true, false] := by decide +kernel

end SelectorAlgebra
