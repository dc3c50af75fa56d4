import Mathlib
import SelectorAlgebra.Proofs.Retention

/-!
# Proofs/CanonicalForms — what a canonical form keeps

A canonical form forgets line breaks and the number of colons before a pseudo-element.  Nothing that
is asked of a selector hangs on them, so every question has the same answer for the canonical form,
and every operation on canonical forms gives the canonical form of what it gives otherwise.

This module has the forms level by level, as maps, and the questions: names, kinds and shapes,
equivalence (`beq_canonical`), depth and specificity.  `CanonicalCover`, `CanonicalWeaving` and
`CanonicalExtension` go on with the operations.
-/

namespace SelectorAlgebra

/-! ## Canonical forms level by level -/

/-- The pseudo selector with two colons if it is a pseudo-element, around canonical choices. -/
def Pseudo.canonical (p : Pseudo) : Pseudo :=
  ⟨p.toPseudoName.canonical, p.argument, p.selector.map (List.map Complex.canonical)⟩

/-- The item with the canonical forms of its conditions. -/
def Item.canonical : Item → Item
  | .compound c => .compound (c.map Simple.canonical)
  | .combinator k => .combinator k

/-- The canonical form of a list is that of each of its choices. -/
theorem canonicalList_eq_map : ∀ l : SelectorList, canonicalList l = l.map Complex.canonical
  | [] => rfl
  | ⟨_, _⟩ :: l => congrArg _ (canonicalList_eq_map l)

/-- A pseudo's canonical form only rewrites its argument; every other condition is its own. -/
@[simp] theorem Simple.canonical_pseudo (p : Pseudo) :
    (pseudo p).canonical = .pseudo p.canonical := by
  obtain ⟨name, argument, _ | l⟩ := p
  · rfl
  · rw [Simple.canonical, canonicalList_eq_map]
    rfl

@[simp] theorem Simple.canonical_universal (ns : Option Namespace) :
    (universal ns).canonical = .universal ns := rfl

@[simp] theorem Simple.canonical_type (name : QualifiedName) :
    (type name).canonical = .type name := rfl

@[simp] theorem Simple.canonical_className (name : String) :
    (className name).canonical = .className name := rfl

@[simp] theorem Simple.canonical_idName (name : String) :
    (idName name).canonical = .idName name := rfl

@[simp] theorem Simple.canonical_attr (condition : Attribute) :
    (attr condition).canonical = .attr condition := rfl

@[simp] theorem Simple.canonical_placeholder (name : String) :
    (placeholder name).canonical = .placeholder name := rfl

@[simp] theorem Simple.canonical_parent (suffix : Option String) :
    (parent suffix).canonical = .parent suffix := rfl

/-- A compound is put in canonical form condition by condition. -/
@[simp] theorem Item.canonical_compound (c : Compound) :
    (compound c).canonical = .compound (c.map Simple.canonical) := rfl

@[simp] theorem Item.canonical_combinator (k : Combinator) :
    (combinator k).canonical = .combinator k := rfl

/-- The canonical form of a row is that of each of its items. -/
theorem canonicalItems_eq_map (row : List Item) : canonicalItems row = row.map Item.canonical := by
  induction row with
  | nil => rfl
  | cons item row ih =>
    cases item with
    | compound c =>
      rw [canonicalItems, ih, canonicalCompound_eq_map, List.map_cons, Item.canonical_compound]
    | combinator k => rw [canonicalItems, ih, List.map_cons, Item.canonical_combinator]

/-- The items of a canonical form, for the recursion over rows. -/
@[simp] theorem Complex.items_canonical (c : Complex) :
    c.canonical.items = c.items.map Item.canonical :=
  canonicalItems_eq_map c.items

/-- Standing alone is kept: a single compound stays a single compound. -/
@[simp] theorem Complex.canonical_ofCompound (c : Compound) :
    (ofCompound c).canonical = .ofCompound (c.map Simple.canonical) := by
  rw [Complex.canonical, canonicalItems_eq_map]
  rfl

/-- The two things a canonical form does to a complex selector: its items are canonical, and its
line break is forgotten. -/
theorem Complex.canonical_eq (c : Complex) : c.canonical = ⟨c.items.map Item.canonical, false⟩ := by
  rw [Complex.canonical, canonicalItems_eq_map]

/-! ## What a canonical form keeps -/

namespace Pseudo

variable (p : Pseudo)

@[simp] theorem name_canonical : p.canonical.name = p.name := rfl

@[simp] theorem argument_canonical : p.canonical.argument = p.argument := rfl

/-- Only the argument of a pseudo changes, and it changes to its own canonical form. -/
@[simp] theorem selector_canonical :
    p.canonical.selector = p.selector.map (List.map Complex.canonical) := rfl

/-- What a pseudo stores about its name is kept, so every test on the name gives the same answer. -/
@[simp] theorem normalizedName_canonical : p.canonical.normalizedName = p.normalizedName :=
  p.toPseudoName.normalizedName_canonical

/-- The kind is read off the normalized name. -/
@[simp] theorem kind_canonical : p.canonical.kind = p.kind :=
  congrArg PseudoKind.ofName p.normalizedName_canonical

@[simp] theorem isClass_canonical : p.canonical.isClass = p.isClass :=
  p.toPseudoName.isClass_canonical

/-- Canonical forms do not turn classes into elements. -/
@[simp] theorem isElement_canonical : p.canonical.isElement = p.isElement :=
  congrArg (!·) p.isClass_canonical

@[simp] theorem isHost_canonical : p.canonical.isHost = p.isHost := by
  rw [isHost, isClass_canonical, name_canonical, isHost]

@[simp] theorem isHostContext_canonical : p.canonical.isHostContext = p.isHostContext := by
  rw [isHostContext, isClass_canonical, name_canonical, isHostContext]

@[simp] theorem isRoot_canonical : p.canonical.isRoot = p.isRoot := by
  rw [isRoot, isClass_canonical, normalizedName_canonical, isRoot]

/-- Replacing the argument and putting in canonical form commute. -/
@[simp] theorem canonical_withSelector (l : SelectorList) :
    (p.withSelector l).canonical = p.canonical.withSelector (l.map Complex.canonical) := rfl

end Pseudo

namespace Simple

variable (s : Simple)

/-- The constructor of a condition is kept, and with it every test that only looks at the
constructor. -/
@[simp] theorem isUniversalOrType_canonical :
    s.canonical.isUniversalOrType = s.isUniversalOrType := by
  cases s <;> simp [isUniversalOrType]

@[simp] theorem isId_canonical : s.canonical.isId = s.isId := by cases s <;> simp [isId]

@[simp] theorem isType_canonical : s.canonical.isType = s.isType := by cases s <;> simp [isType]

@[simp] theorem isPseudo_canonical : s.canonical.isPseudo = s.isPseudo := by
  cases s <;> simp [isPseudo]

/-- A pseudo-element stays one: that is read off the pseudo's name. -/
@[simp] theorem isPseudoElement_canonical : s.canonical.isPseudoElement = s.isPseudoElement := by
  cases s <;> simp [isPseudoElement]

/-- Having an argument is kept, since an argument maps to an argument. -/
@[simp] theorem isPlainPseudoElement_canonical :
    s.canonical.isPlainPseudoElement = s.isPlainPseudoElement := by
  cases s <;> simp [isPlainPseudoElement]

@[simp] theorem isHostLike_canonical : s.canonical.isHostLike = s.isHostLike := by
  cases s <;> simp [isHostLike]

/-- What may stand beside `:host` is decided by names and by the presence of an argument. -/
@[simp] theorem standsWithHost_canonical : s.canonical.standsWithHost = s.standsWithHost := by
  cases s <;> simp [standsWithHost]

/-- What only one element can meet is the same before and after. -/
@[simp] theorem isUnique_canonical : s.canonical.isUnique = s.isUnique := by
  rw [isUnique, isId_canonical, isPseudoElement_canonical, isUnique]

/-- A name and a namespace are not touched. -/
@[simp] theorem elementName?_canonical : s.canonical.elementName? = s.elementName? := by
  cases s <;> simp [elementName?]

end Simple

namespace Item

variable (item : Item)

/-- An item keeps its constructor. -/
@[simp] theorem isCombinator_canonical : item.canonical.isCombinator = item.isCombinator := by
  cases item <;> rfl

@[simp] theorem isCompound_canonical : item.canonical.isCompound = item.isCompound := by
  cases item <;> rfl

/-- Combinators have nothing to normalize. -/
@[simp] theorem combinator?_canonical : item.canonical.combinator? = item.combinator? := by
  cases item <;> rfl

/-- The compound of an item, if it is one, is put in canonical form. -/
@[simp] theorem compound?_canonical :
    item.canonical.compound? = item.compound?.map (List.map Simple.canonical) := by
  cases item <;> rfl

end Item

namespace Complex

variable (c : Complex)

/-- The last compound stands at the same place. -/
@[simp] theorem lastCompound?_canonical :
    c.canonical.lastCompound? = c.lastCompound?.map (List.map Simple.canonical) := by
  rw [lastCompound?, items_canonical, List.getLast?_map, lastCompound?]
  cases c.items.getLast? <;> simp

/-- A selector is a single compound before exactly when it is after. -/
@[simp] theorem singleCompound?_canonical :
    c.canonical.singleCompound? = c.singleCompound?.map (List.map Simple.canonical) := by
  obtain ⟨row, lineBreak⟩ := c
  rw [canonical_eq]
  rcases row with _ | ⟨_ | _, _ | _⟩ <;> rfl

/-- The compounds of a selector correspond one to one. -/
@[simp] theorem compounds_canonical :
    c.canonical.compounds = c.compounds.map (List.map Simple.canonical) := by
  rw [compounds, items_canonical, List.filterMap_map, compounds, List.map_filterMap]
  exact List.filterMap_congr fun item _ => Item.compound?_canonical item

end Complex

/-! ## Forms that differ in nothing else -/

mutual

/-- Canonical forms are canonical: the four functions are idempotent together, by recursion on the
selector. -/
theorem Simple.canonical_canonical : ∀ s : Simple, s.canonical.canonical = s.canonical
  | .pseudo ⟨name, _, none⟩ => by
    rw [Simple.canonical, Simple.canonical, name.canonical_canonical]
  | .pseudo ⟨name, _, some l⟩ => by
    rw [Simple.canonical, Simple.canonical, canonicalList_canonical l, name.canonical_canonical]
  | .universal _ | .type _ | .className _ | .idName _ | .attr _ | .placeholder _ | .parent _ => rfl

theorem canonicalCompound_canonical : ∀ c : List Simple,
    canonicalCompound (canonicalCompound c) = canonicalCompound c
  | [] => rfl
  | s :: c => by
    rw [canonicalCompound, canonicalCompound, s.canonical_canonical, canonicalCompound_canonical c]

theorem canonicalItems_canonical : ∀ row : List Item,
    canonicalItems (canonicalItems row) = canonicalItems row
  | [] => rfl
  | .compound c :: row => by
    rw [canonicalItems, canonicalItems, canonicalCompound_canonical c, canonicalItems_canonical row]
  | .combinator k :: row => by
    rw [canonicalItems, canonicalItems, canonicalItems_canonical row]

theorem canonicalList_canonical : ∀ l : List Complex,
    canonicalList (canonicalList l) = canonicalList l
  | [] => rfl
  | ⟨row, lineBreak⟩ :: l => by
    rw [canonicalList, canonicalList, canonicalItems_canonical row, canonicalList_canonical l]

end

/-- The closed case of the recursion, for a complex selector. -/
theorem Complex.canonical_canonical (c : Complex) : c.canonical.canonical = c.canonical :=
  congrArg (Complex.mk · false) (canonicalItems_canonical c.items)

/-- A condition is the same as its canonical form up to what equality ignores. -/
theorem Simple.canonical_beq_self (s : Simple) : (s.canonical == s) = true :=
  beq_iff.2 s.canonical_canonical

/-- So is a complex selector. -/
theorem Complex.canonical_beq_self (c : Complex) : (c.canonical == c) = true :=
  beq_iff.2 c.canonical_canonical

/-- Canonical forms are equal exactly when the conditions were: this is what equality compares. -/
@[simp] theorem Simple.beq_canonical (s t : Simple) : (s.canonical == t.canonical) = (s == t) := by
  rw [BEq.congr_left s.canonical_beq_self, BEq.congr_right t.canonical_beq_self]

/-- The same for complex selectors, where the line break is what equality ignores. -/
@[simp] theorem Complex.beq_canonical (c d : Complex) :
    (c.canonical == d.canonical) = (c == d) := by
  rw [BEq.congr_left c.canonical_beq_self, BEq.congr_right d.canonical_beq_self]

@[simp] theorem Simple.bne_canonical (s t : Simple) : (s.canonical != t.canonical) = (s != t) := by
  rw [bne, beq_canonical, bne]

/-- Rows are equivalent exactly when their canonical forms are. -/
@[simp] theorem equivItems_canonical (row row' : List Item) :
    equivItems (row.map Item.canonical) (row'.map Item.canonical) = equivItems row row' := by
  rw [Bool.eq_iff_iff, equivItems_iff, equivItems_iff, ← canonicalItems_eq_map,
    ← canonicalItems_eq_map, canonicalItems_canonical, canonicalItems_canonical]

section Lists

variable {α β : Type} [BEq α] [BEq β] {f : α → β}

/-- Looking a member up gives the same answer for equal members. -/
theorem contains_congr_right [EquivBEq α] {x y : α} (h : (x == y) = true) (xs : List α) :
    xs.contains x = xs.contains y := by
  induction xs with
  | nil => rfl
  | cons z xs ih => rw [List.contains_cons, List.contains_cons, ih, BEq.congr_left h]

/-- Looking up in a list of images, for a map that neither makes nor breaks equalities. -/
theorem contains_map (h : ∀ x y, (f x == f y) = (x == y)) (xs : List α) (x : α) :
    (xs.map f).contains (f x) = xs.contains x := by
  induction xs with
  | nil => rfl
  | cons y xs ih => rw [List.map_cons, List.contains_cons, List.contains_cons, ih, h]

/-- Lists of images are equal exactly when the lists are, for such a map. -/
theorem beq_map (h : ∀ x y, (f x == f y) = (x == y)) : ∀ xs ys : List α,
    (xs.map f == ys.map f) = (xs == ys)
  | [], [] => rfl
  | [], _ :: _ => rfl
  | _ :: _, [] => rfl
  | x :: xs, y :: ys => by
    rw [List.map_cons, List.map_cons, List.cons_beq_cons, List.cons_beq_cons, h, beq_map h xs ys]

/-- Adding a member if it is new commutes with such a map. -/
theorem addDistinct_map (h : ∀ x y, (f x == f y) = (x == y)) (xs : List α) (x : α) :
    addDistinct (xs.map f) (f x) = (addDistinct xs x).map f := by
  rw [addDistinct, contains_map h, addDistinct, apply_ite (List.map f), List.map_append,
    List.map_singleton]

end Lists

/-- The instance of `contains_map` at canonical forms; it fires before the general lemmas about
`map`. -/
@[simp high] theorem contains_map_canonical (c : Compound) (s : Simple) :
    (c.map Simple.canonical).contains s.canonical = c.contains s :=
  contains_map Simple.beq_canonical c s

/-- A choice is in a list exactly when its canonical form is. -/
theorem Complex.contains_canonical (l : SelectorList) (c : Complex) :
    l.contains c.canonical = l.contains c :=
  contains_congr_right c.canonical_beq_self l

/-- Nor does it matter that the list is put in canonical form. -/
theorem Complex.contains_map_canonical (l : SelectorList) (c : Complex) :
    (l.map canonical).contains c = l.contains c := by
  rw [← contains_canonical, contains_map beq_canonical]

/-- Equality of lists is equality of canonical forms, choice by choice. -/
theorem SelectorList.beq_iff : ∀ {l l' : SelectorList},
    (l == l') = true ↔ l.map Complex.canonical = l'.map Complex.canonical
  | [], [] => by simp
  | [], _ :: _ => by simp
  | _ :: _, [] => by simp
  | c :: l, c' :: l' => by
    rw [List.cons_beq_cons, Bool.and_eq_true, Complex.beq_iff, SelectorList.beq_iff, List.map_cons,
      List.map_cons, List.cons.injEq]

/-! ## Depth and specificity -/

mutual

/-- Canonical forms are as deep as what they came from; the recursions bounded by depth take the
same number of steps. -/
theorem Simple.nesting_canonical : ∀ s : Simple, s.canonical.nesting = s.nesting
  | .pseudo ⟨_, _, none⟩ => rfl
  | .pseudo ⟨_, _, some l⟩ => by
    rw [Simple.canonical, Simple.nesting, Simple.nesting, nestingOfList_canonical l]
  | .universal _ | .type _ | .className _ | .idName _ | .attr _ | .placeholder _ | .parent _ => rfl

theorem nestingOfCompound_canonical : ∀ c : List Simple,
    nestingOfCompound (canonicalCompound c) = nestingOfCompound c
  | [] => rfl
  | s :: c => by
    rw [canonicalCompound, nestingOfCompound, nestingOfCompound, s.nesting_canonical,
      nestingOfCompound_canonical c]

theorem nestingOfItems_canonicalItems : ∀ row : List Item,
    nestingOfItems (canonicalItems row) = nestingOfItems row
  | [] => rfl
  | .compound c :: row => by
    rw [canonicalItems, nestingOfItems, nestingOfItems, nestingOfCompound_canonical c,
      nestingOfItems_canonicalItems row]
  | .combinator k :: row => by
    rw [canonicalItems, nestingOfItems, nestingOfItems, nestingOfItems_canonicalItems row]

theorem nestingOfList_canonical : ∀ l : List Complex,
    nestingOfList (canonicalList l) = nestingOfList l
  | [] => rfl
  | ⟨row, _⟩ :: l => by
    rw [canonicalList, nestingOfList, nestingOfList, nestingOfItems_canonicalItems row,
      nestingOfList_canonical l]

end

/-- The depth of a row, in the form the rewriting meets it. -/
@[simp] theorem nestingOfItems_map_canonical (row : List Item) :
    nestingOfItems (row.map Item.canonical) = nestingOfItems row := by
  rw [← canonicalItems_eq_map, nestingOfItems_canonicalItems]

/-- The depth of a list. -/
@[simp] theorem SelectorList.nesting_canonical (l : SelectorList) :
    SelectorList.nesting (l.map Complex.canonical) = l.nesting := by
  rw [SelectorList.nesting, ← canonicalList_eq_map, nestingOfList_canonical, SelectorList.nesting]

mutual

/-- Specificity is a sum over names and arguments, and both are kept. -/
theorem Simple.specificity_canonical : ∀ s : Simple, s.canonical.specificity = s.specificity
  | .pseudo ⟨_, _, none⟩ => rfl
  | .pseudo ⟨_, _, some l⟩ => by
    rw [Simple.canonical, Simple.specificity, Simple.specificity, specificityOfList_canonical l]
  | .universal _ | .type _ | .className _ | .idName _ | .attr _ | .placeholder _ | .parent _ => rfl

/-- Adding up a compound, from any specificity found so far. -/
theorem addCompound_canonical : ∀ (found : Specificity) (c : List Simple),
    addCompound found (canonicalCompound c) = addCompound found c
  | _, [] => rfl
  | found, s :: c => by
    rw [canonicalCompound, addCompound, addCompound, s.specificity_canonical,
      addCompound_canonical _ c]

/-- Adding up a row. -/
theorem addItems_canonical : ∀ (found : Specificity) (row : List Item),
    addItems found (canonicalItems row) = addItems found row
  | _, [] => rfl
  | found, .compound c :: row => by
    rw [canonicalItems, addItems, addItems, addCompound_canonical _ c, addItems_canonical _ row]
  | found, .combinator k :: row => by
    rw [canonicalItems, addItems, addItems, addItems_canonical _ row]

/-- The widest of a list, joined to any range found so far. -/
theorem widenList_canonical : ∀ (found : Specificity) (l : List Complex),
    widenList found (canonicalList l) = widenList found l
  | _, [] => rfl
  | found, ⟨row, _⟩ :: l => by
    rw [canonicalList, widenList, widenList, addItems_canonical _ row, widenList_canonical _ l]

/-- The specificity of a list. -/
theorem specificityOfList_canonical : ∀ l : List Complex,
    specificityOfList (canonicalList l) = specificityOfList l
  | [] => rfl
  | ⟨row, _⟩ :: l => by
    rw [canonicalList, specificityOfList, specificityOfList, addItems_canonical _ row,
      widenList_canonical _ l]

end

/-- The specificity of a complex selector does not see its line break. -/
@[simp] theorem Complex.specificity_canonical (c : Complex) :
    c.canonical.specificity = c.specificity :=
  addItems_canonical .zero c.items

end SelectorAlgebra
