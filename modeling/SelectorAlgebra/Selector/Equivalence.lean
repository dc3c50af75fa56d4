import SelectorAlgebra.Selector.Pseudo

/-!
# Selector/Equivalence — when two selectors count as the same

Two selectors are equivalent, written `a == b`, when they differ at most in line breaks and in the
number of colons before a pseudo-element that allows either: `:before` and `::before` are one
selector.  Everything that looks a selector up, in a compound or in a table, looks it up by `==`.

`canonical` forgets exactly those two differences, and `Simple.beq_iff` and `Complex.beq_iff` read
`==` as equality of canonical forms.  So `==` is reflexive, symmetric and transitive.
-/

namespace SelectorAlgebra

/-! ## Equivalence -/

mutual

/-- Equivalence of simple selectors. -/
def Simple.equiv : Simple → Simple → Bool
  | .universal a, .universal b => a == b
  | .type a, .type b => a == b
  | .className a, .className b => a == b
  | .idName a, .idName b => a == b
  | .attr a, .attr b => a == b
  | .placeholder a, .placeholder b => a == b
  | .parent a, .parent b => a == b
  | .pseudo ⟨n, a, s⟩, .pseudo ⟨n', a', s'⟩ =>
    n.name == n'.name && n.isClass == n'.isClass && a == a' &&
      (match s, s' with
        | none, none => true
        | some l, some l' => equivList l l'
        | _, _ => false)
  | _, _ => false

/-- Equivalence of compounds, place by place. -/
def equivCompound : List Simple → List Simple → Bool
  | [], [] => true
  | a :: as, b :: bs => Simple.equiv a b && equivCompound as bs
  | _, _ => false

/-- Equivalence of rows of items, place by place. -/
def equivItems : List Item → List Item → Bool
  | [], [] => true
  | .compound a :: as, .compound b :: bs => equivCompound a b && equivItems as bs
  | .combinator a :: as, .combinator b :: bs => a == b && equivItems as bs
  | _, _ => false

/-- Equivalence of lists, place by place. -/
def equivList : List Complex → List Complex → Bool
  | [], [] => true
  | ⟨a, _⟩ :: as, ⟨b, _⟩ :: bs => equivItems a b && equivList as bs
  | _, _ => false

end

instance : BEq Simple := ⟨Simple.equiv⟩

instance : BEq Complex := ⟨fun a b => equivItems a.items b.items⟩

instance : BEq Item := ⟨fun a b => equivItems [a] [b]⟩

/-! ## Canonical forms -/

namespace PseudoName

/-- The name with two colons if it is that of a pseudo-element. -/
def canonical (n : PseudoName) : PseudoName := .written n.name !n.isClass

variable (n : PseudoName)

theorem normalizedName_canonical : n.canonical.normalizedName = n.normalizedName :=
  n.normalizedName_eq.symm

/-- Two colons before the name of a pseudo-element leave it one. -/
theorem isClass_canonical : n.canonical.isClass = n.isClass := by
  show (!(!n.isClass) && !isLegacyElementName (normalizeName n.name)) = n.isClass
  rw [n.isClass_eq, n.normalizedName_eq, Bool.not_not, Bool.and_assoc, Bool.and_self]

theorem canonical_canonical : n.canonical.canonical = n.canonical :=
  congrArg (PseudoName.written n.name !·) n.isClass_canonical

/-- Names have the same canonical form if they are spelled alike and name the same kind of thing. -/
theorem canonical_eq_iff {n n' : PseudoName} :
    n.canonical = n'.canonical ↔ n.name = n'.name ∧ n.isClass = n'.isClass := by
  constructor
  · intro same
    have name : n.canonical.name = n'.canonical.name := by rw [same]
    exact ⟨name, by rw [← isClass_canonical n, ← isClass_canonical n', same]⟩
  · rintro ⟨name, isClass⟩
    rw [canonical, canonical, name, isClass]

end PseudoName

mutual

/-- The simple selector with two colons before every pseudo-element and no line breaks. -/
def Simple.canonical : Simple → Simple
  | .pseudo ⟨n, a, none⟩ => .pseudo ⟨n.canonical, a, none⟩
  | .pseudo ⟨n, a, some l⟩ => .pseudo ⟨n.canonical, a, some (canonicalList l)⟩
  | s => s

/-- The canonical forms of the conditions of a compound. -/
def canonicalCompound : List Simple → List Simple
  | [] => []
  | s :: rest => s.canonical :: canonicalCompound rest

/-- The canonical forms of the items of a row. -/
def canonicalItems : List Item → List Item
  | [] => []
  | .compound c :: rest => .compound (canonicalCompound c) :: canonicalItems rest
  | .combinator k :: rest => .combinator k :: canonicalItems rest

/-- The canonical forms of the choices of a list. -/
def canonicalList : List Complex → List Complex
  | [] => []
  | ⟨items, _⟩ :: rest => ⟨canonicalItems items, false⟩ :: canonicalList rest

end

/-- The complex selector with two colons before every pseudo-element and no line breaks. -/
def Complex.canonical (c : Complex) : Complex := ⟨canonicalItems c.items, false⟩

/-! ## Equivalence is equality of canonical forms -/

mutual

theorem Simple.equiv_iff : ∀ a b : Simple, a.equiv b = true ↔ a.canonical = b.canonical
  | .pseudo ⟨_, _, none⟩, b => by
    rcases b with _ | _ | _ | _ | _ | _ | _ | ⟨_, _, _ | _⟩ <;>
      simp [Simple.equiv, Simple.canonical, PseudoName.canonical_eq_iff, and_assoc]
  | .pseudo ⟨_, _, some l⟩, b => by
    rcases b with _ | _ | _ | _ | _ | _ | _ | ⟨_, _, _ | _⟩ <;>
      simp [Simple.equiv, Simple.canonical, PseudoName.canonical_eq_iff, equivList_iff l, and_assoc]
  | .universal _, b | .type _, b | .className _, b | .idName _, b | .attr _, b
  | .placeholder _, b | .parent _, b => by
    rcases b with _ | _ | _ | _ | _ | _ | _ | ⟨_, _, _ | _⟩ <;>
      simp [Simple.equiv, Simple.canonical]

theorem equivCompound_iff : ∀ as bs : List Simple,
    equivCompound as bs = true ↔ canonicalCompound as = canonicalCompound bs
  | [], bs => by cases bs <;> simp [equivCompound, canonicalCompound]
  | a :: as, bs => by
    cases bs <;> simp [equivCompound, canonicalCompound, a.equiv_iff, equivCompound_iff as]

theorem equivItems_iff : ∀ as bs : List Item,
    equivItems as bs = true ↔ canonicalItems as = canonicalItems bs
  | [], bs => by rcases bs with _ | ⟨_ | _, _⟩ <;> simp [equivItems, canonicalItems]
  | .compound c :: as, bs => by
    rcases bs with _ | ⟨_ | _, _⟩ <;>
      simp [equivItems, canonicalItems, equivCompound_iff c, equivItems_iff as]
  | .combinator k :: as, bs => by
    rcases bs with _ | ⟨_ | _, _⟩ <;> simp [equivItems, canonicalItems, equivItems_iff as]

theorem equivList_iff : ∀ as bs : List Complex,
    equivList as bs = true ↔ canonicalList as = canonicalList bs
  | [], bs => by rcases bs with _ | ⟨⟨_, _⟩, _⟩ <;> simp [equivList, canonicalList]
  | ⟨a, _⟩ :: as, bs => by
    rcases bs with _ | ⟨⟨b, _⟩, _⟩ <;>
      simp [equivList, canonicalList, equivItems_iff a, equivList_iff as]

end

/-- Two simple selectors are equivalent exactly when their canonical forms are the same. -/
theorem Simple.beq_iff {a b : Simple} : (a == b) = true ↔ a.canonical = b.canonical :=
  Simple.equiv_iff a b

/-- Two complex selectors are equivalent exactly when their canonical forms are the same. -/
theorem Complex.beq_iff {a b : Complex} : (a == b) = true ↔ a.canonical = b.canonical := by
  simp [Complex.canonical, ← equivItems_iff, BEq.beq]

instance : EquivBEq Simple where
  rfl := Simple.beq_iff.2 rfl
  symm h := Simple.beq_iff.2 (Simple.beq_iff.1 h).symm
  trans h h' := Simple.beq_iff.2 ((Simple.beq_iff.1 h).trans (Simple.beq_iff.1 h'))

instance : EquivBEq Complex where
  rfl := Complex.beq_iff.2 rfl
  symm h := Complex.beq_iff.2 (Complex.beq_iff.1 h).symm
  trans h h' := Complex.beq_iff.2 ((Complex.beq_iff.1 h).trans (Complex.beq_iff.1 h'))

end SelectorAlgebra
