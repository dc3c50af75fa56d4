import Mathlib
import SelectorAlgebra.Proofs.Occurrence
import SelectorAlgebra.Proofs.Soundness

/-!
# Proofs/Reflexivity — regular selectors are above themselves

Two things keep a selector from being above itself: a combinator out of place, since such rows are
above nothing, and an argument on the wrong kind of pseudo selector, since the rule for `:is` looks
among pseudo-classes and the one for `::slotted` among pseudo-elements.  A selector is **regular**
if neither occurs in it, at any depth of arguments.

* `SelectorList.isSuperselector_self` — a regular list is above itself.

The engine is `covers_self`: every condition of a compound is met by the compound itself, behind any
items, as soon as the choices of its argument are above themselves.
-/

namespace SelectorAlgebra

/-! ## Regular selectors -/

/-- Whether a pseudo selector that carries an argument is of the sort, class or element, that the
rule for its kind looks for. -/
def Pseudo.isWellSorted (p : Pseudo) : Bool :=
  match p.kind with
  | .is | .matchesAny | .any | .whereAny | .has | .host | .hostContext | .current => p.isClass
  | .slotted => p.isElement
  | .not | .nthChild | .nthLastChild | .other => true

/-- Whether an argument, if there is one, stands on the right sort of pseudo selector and has no
combinator out of place in its choices. -/
def Simple.hasRegularArgument : Simple → Bool
  | .pseudo p =>
    match p.selector with
    | some l => p.isWellSorted && l.all fun c => !isMisplaced 0 c.items
    | none => true
  | _ => true

/-- Whether the arguments are regular, at any depth. -/
def Complex.hasRegularArguments (c : Complex) : Bool := c.simples.all Simple.hasRegularArgument

/-- Whether no combinator is out of place and the arguments are regular, at any depth. -/
def Complex.isRegular (c : Complex) : Bool := !isMisplaced 0 c.items && c.hasRegularArguments

/-- Whether every choice is regular. -/
def SelectorList.isRegular (l : SelectorList) : Bool := l.all Complex.isRegular

theorem Simple.hasRegularArgument_pseudo {p : Pseudo} {l : SelectorList}
    (hl : p.selector = some l) :
    (Simple.pseudo p).hasRegularArgument = true ↔
      p.isWellSorted = true ∧ ∀ c ∈ l, isMisplaced 0 c.items = false := by
  simp [hasRegularArgument, hl]

/-- An argument inside a selector with regular arguments stands on the right sort of pseudo
selector, and its choices are regular. -/
theorem Complex.isRegular_argument {c : Complex} {e : Compound} {p : Pseudo} {l : SelectorList}
    (h : c.hasRegularArguments = true) (he : Item.compound e ∈ c.items) (hp : .pseudo p ∈ e)
    (hl : p.selector = some l) : p.isWellSorted = true ∧ ∀ d ∈ l, d.isRegular = true := by
  rw [hasRegularArguments, List.all_eq_true] at h
  have here : (Simple.pseudo p).hasRegularArgument = true :=
    h _ (mem_simplesOfItems.2 ⟨e, he, _, hp, Simple.mem_simples.2 (.inl rfl)⟩)
  obtain ⟨sorted, placed⟩ := (Simple.hasRegularArgument_pseudo hl).1 here
  refine ⟨sorted, fun d hd => ?_⟩
  -- what occurs in a choice of the argument occurs in the whole selector
  have inside : d.hasRegularArguments = true := by
    rw [hasRegularArguments, List.all_eq_true]
    intro s hs
    refine h s (mem_simplesOfItems.2 ⟨e, he, _, hp, Simple.mem_simples.2 (.inr ⟨l, hl, ?_⟩)⟩)
    rw [SelectorList.simples, simplesOfList_eq_flatMap]
    exact List.mem_flatMap.2 ⟨d, hd, hs⟩
  rw [isRegular, placed d hd, inside]
  rfl

/-! ## Compounds -/

section Compounds

variable {sup : ItemsRelation} {c : Compound} {p : Pseudo} {l : SelectorList}

theorem Simple.metBy_of_mem {s : Simple} (h : s ∈ c) : s.metBy c = true :=
  List.any_eq_true.2 ⟨s, h, by simp [impliedBy]⟩

/-- The argument of a pseudo is among those of its name. -/
theorem Compound.mem_argumentsOf (hp : .pseudo p ∈ c) (hl : p.selector = some l) :
    l ∈ c.argumentsOf p.name p.isElement :=
  List.mem_filterMap.2 ⟨.pseudo p, hp, by simp [hl]⟩

theorem listCovers_self (h : ∀ d ∈ l, sup d.items d.items = true) : listCovers sup l l = true :=
  List.all_eq_true.2 fun d hd => List.any_eq_true.2 ⟨d, hd, h d hd⟩

/-- A `:not` rules out every branch of its own argument. -/
theorem Simple.rulesOut_self {branch : Complex} (hl : p.selector = some l) (hb : branch ∈ l)
    (h : sup branch.items branch.items = true) :
    (Simple.pseudo p).rulesOut sup p.name branch = true := by
  have below : listCovers sup l [branch] = true := by
    simp only [listCovers, List.all_cons, List.all_nil, Bool.and_true]
    exact List.any_eq_true.2 ⟨branch, hb, h⟩
  simp [rulesOut, hl, below]

/-- A pseudo selector is met where it stands itself, whatever its kind. -/
theorem Pseudo.metBy_self (hp : .pseudo p ∈ c) (hl : p.selector = some l)
    (sorted : p.isWellSorted = true) (h : ∀ d ∈ l, sup d.items d.items = true)
    (parents : List Item) : p.metBy sup l c parents = true := by
  have own : l ∈ c.argumentsOf p.name p.isElement := Compound.mem_argumentsOf hp hl
  have among : ((c.argumentsOf p.name p.isElement).any fun l' => listCovers sup l l') = true :=
    List.any_eq_true.2 ⟨l, own, listCovers_self h⟩
  unfold isWellSorted at sorted
  unfold metBy
  cases hk : p.kind with
  | is | matchesAny | any | whereAny =>
    have element : p.isElement = false := by simpa [hk, isClass_eq_not_isElement] using sorted
    rw [element] at among
    exact Bool.or_eq_true_iff.2 (.inl among)
  | has | host | hostContext =>
    have element : p.isElement = false := by simpa [hk, isClass_eq_not_isElement] using sorted
    rwa [element] at among
  | slotted =>
    have element : p.isElement = true := by simpa [hk] using sorted
    rwa [element] at among
  | not =>
    exact List.all_eq_true.2 fun branch hb =>
      List.any_eq_true.2 ⟨_, hp, Simple.rulesOut_self hl hb (h branch hb)⟩
  | current =>
    have element : p.isElement = false := by simpa [hk, isClass_eq_not_isElement] using sorted
    rw [element] at own
    exact List.any_eq_true.2 ⟨l, own, BEq.rfl⟩
  | nthChild | nthLastChild =>
    exact List.any_eq_true.2 ⟨_, hp, by simp [hl, listCovers_self h]⟩
  | other => exact Simple.metBy_of_mem hp

/-- **A compound covers itself**, behind any items, if the choices of its arguments are above
themselves. -/
theorem covers_self (h : ∀ p l, .pseudo p ∈ c → p.selector = some l → p.isWellSorted = true ∧
      ∀ d ∈ l, sup d.items d.items = true) (parents : List Item) :
    covers sup c c parents = true := by
  rw [covers, Bool.and_eq_true, List.all_eq_true, List.all_eq_true]
  refine ⟨fun s hs => ?_, fun s hs => by simp [Simple.metBy_of_mem hs]⟩
  cases harg : s.argument? with
  | none => rw [Simple.metBehind_eq_metBy harg, Simple.metBy_of_mem hs]
  | some l =>
    cases s with
    | pseudo p =>
      have hl : p.selector = some l := harg
      obtain ⟨sorted, own⟩ := h p l hs hl
      simp only [Simple.metBehind, hl]
      exact Pseudo.metBy_self hs hl sorted own parents
    | _ => cases harg

end Compounds

/-! ## Rows and lists -/

/-- A row without misplaced combinators is above itself if its compounds cover themselves. -/
theorem itemsSuperselector_self {row : List Item} (placed : isMisplaced 0 row = false)
    (h : ∀ c, Item.compound c ∈ row → ∀ parents, covers itemsSuperselector c c parents = true) :
    itemsSuperselector row row = true := by
  obtain ⟨c, links, rfl⟩ := exists_rowOf placed
  rw [itemsSuperselector_rowOf]
  exact walk_self (h c (mem_rowOf.2 (.inl rfl))) fun l hl =>
    h l.compound (mem_rowOf.2 (.inr ⟨l, hl, rfl⟩))

/-- Every compound of a selector with regular arguments covers itself, behind any items. -/
theorem Complex.covers_itself {c : Complex} (h : c.hasRegularArguments = true) {e : Compound}
    (he : Item.compound e ∈ c.items) (parents : List Item) :
    covers itemsSuperselector e e parents = true := by
  refine covers_self (fun p l hp hl => ?_) parents
  obtain ⟨sorted, regular⟩ := isRegular_argument h he hp hl
  refine ⟨sorted, fun d hd => ?_⟩
  have deeper : nestingOfItems d.items < nestingOfItems c.items :=
    calc nestingOfItems d.items ≤ nestingOfList l := nestingOfItems_le_nestingOfList hd
      _ < nestingOfCompound e := nestingOfList_lt_nestingOfCompound hp hl
      _ ≤ nestingOfItems c.items := nestingOfCompound_le_nestingOfItems he
  obtain ⟨placed, inside⟩ : isMisplaced 0 d.items = false ∧ d.hasRegularArguments = true := by
    simpa [isRegular] using regular d hd
  exact itemsSuperselector_self placed fun e' he' parents' => d.covers_itself inside he' parents'
termination_by nestingOfItems c.items

/-- **A regular list is above itself.** -/
theorem SelectorList.isSuperselector_self {l : SelectorList} (h : l.isRegular = true) :
    l.isSuperselector l = true := by
  rw [isRegular, List.all_eq_true] at h
  refine listCovers_self fun c hc => ?_
  obtain ⟨placed, inside⟩ : isMisplaced 0 c.items = false ∧ c.hasRegularArguments = true := by
    simpa [Complex.isRegular] using h c hc
  exact itemsSuperselector_self placed fun e he parents => c.covers_itself inside he parents

/-- The list `:not(.a > .b):nth-child(2n of .c) ~ ::slotted(:is(.d)), .e` is above itself. -/
theorem SelectorList.isSuperselector_self_nested : ∃ l : SelectorList,
    l = [⟨[.compound [
          .pseudo (.around "not" [⟨[.compound [.className "a"], .combinator .child,
            .compound [.className "b"]], false⟩]),
          .pseudo (.written "nth-child" false (some "2n") (some [.ofCompound [.className "c"]]))],
        .combinator .followingSibling,
        .compound [.pseudo (.written "slotted" true none
          (some [.ofCompound [.pseudo (.around "is" [.ofCompound [.className "d"]])]]))]], false⟩,
      .ofCompound [.className "e"]] ∧
    l.isRegular = true ∧ l.isSuperselector l = true :=
  ⟨_, rfl, by cbv, SelectorList.isSuperselector_self (by cbv)⟩

end SelectorAlgebra
