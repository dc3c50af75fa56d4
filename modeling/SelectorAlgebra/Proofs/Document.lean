import Mathlib.Data.Set.Finite.Basic
import SelectorAlgebra.Validity

/-!
# Proofs/Document — the elements of a document, and which of them a row matches

A document is a finite ordered forest of elements.  An element is named by its address: its position
among its siblings, then the position of its parent, and so on up to the top.

    [2]     the third element at the top
    [0, 2]  its first child
    [1, 2]  the sibling right after that child

A row matches an element when elements can be found for its compounds, each joined to the next as
the combinator between them asks, so that the last one is that element (`Document.Matches`).

Rows without misplaced combinators read as a compound and a chain of links, each a joint and a
compound (`exists_rowOf`); there the elements make up a trail (`leads_rowOf`).
-/

namespace SelectorAlgebra

/-! ## Documents -/

/-- Positions among siblings, innermost first.  The empty address is the document itself. -/
abbrev Address := List ℕ

/-- A finite ordered forest of elements, each with the conditions it meets. -/
structure Document where
  /-- The addresses where an element stands. -/
  elements : Set Address
  finite : elements.Finite
  nil_notMem : [] ∉ elements
  /-- Whatever is not at the top has a parent. -/
  parent_mem : ∀ {i place}, i :: place ∈ elements → place ≠ [] → place ∈ elements
  /-- Positions among siblings have no holes. -/
  previous_mem : ∀ {i place}, (i + 1) :: place ∈ elements → i :: place ∈ elements
  /-- The conditions that hold of an element. -/
  traits : Address → Set Simple

/-- How two neighbouring compounds are joined: by a combinator, or as ancestor and descendant. -/
abbrev Joint := Option Combinator

/-- The second element stands to the first one as the joint asks. -/
def Joint.Holds : Joint → Address → Address → Prop
  | none, e, e' => ∃ way, way ≠ [] ∧ e' = way ++ e
  | some .child, e, e' => ∃ i, e' = i :: e
  | some .nextSibling, e, e' => ∃ i place, e = i :: place ∧ e' = (i + 1) :: place
  | some .followingSibling, e, e' => ∃ i j place, e = i :: place ∧ e' = j :: place ∧ i < j

namespace Document

variable (doc : Document)

/-- An element meets a compound when it meets all of its conditions. -/
def Meets (e : Address) (c : Compound) : Prop := e ∈ doc.elements ∧ ∀ s ∈ c, s ∈ doc.traits e

/-- Elements for the compounds of a row, from the one for the first to the one for the last. -/
def Leads : List Item → Address → Address → Prop
  | [.compound c], e, e' => doc.Meets e c ∧ e = e'
  | .compound c :: .combinator k :: row, e, e' =>
    doc.Meets e c ∧ ∃ next, Joint.Holds (some k) e next ∧ Leads row next e'
  | .compound c :: .compound d :: row, e, e' =>
    doc.Meets e c ∧ ∃ next, Joint.Holds none e next ∧ Leads (.compound d :: row) next e'
  | _, _, _ => False

/-- The element at `e` is matched by the row. -/
def Matches (row : List Item) (e : Address) : Prop := ∃ start, doc.Leads row start e

end Document

/-- In every document, all that `lower` matches is matched by `upper`. -/
def Contains (upper lower : List Item) : Prop :=
  ∀ (doc : Document) (e : Address), doc.Matches lower e → doc.Matches upper e

/-! ## Rows as chains -/

/-- A compound with the joint before it. -/
structure Link where
  joint : Joint
  compound : Compound

/-- The row that begins with a compound and goes on with links. -/
def rowOf : Compound → List Link → List Item
  | c, [] => [.compound c]
  | c, ⟨none, d⟩ :: links => .compound c :: rowOf d links
  | c, ⟨some k, d⟩ :: links => .compound c :: .combinator k :: rowOf d links

theorem rowOf_eq_cons : ∀ (c : Compound) (links : List Link),
    ∃ row, rowOf c links = .compound c :: row
  | _, [] => ⟨[], rfl⟩
  | _, ⟨none, d⟩ :: links => ⟨rowOf d links, rfl⟩
  | _, ⟨some k, d⟩ :: links => ⟨.combinator k :: rowOf d links, rfl⟩

/-- The compounds of a row are those of its chain. -/
theorem mem_rowOf {d : Compound} : ∀ {c : Compound} {links : List Link},
    Item.compound d ∈ rowOf c links ↔ d = c ∨ ∃ l ∈ links, d = l.compound
  | c, [] => by simp [rowOf]
  | c, ⟨none, c'⟩ :: links => by simp [rowOf, @mem_rowOf d c' links]
  | c, ⟨some k, c'⟩ :: links => by simp [rowOf, @mem_rowOf d c' links]

/-- A row that begins and ends with a compound and repeats no combinator is a chain. -/
theorem exists_links : ∀ {c : Compound} {row : List Item},
    (Item.compound c :: row).getLast?.any Item.isCombinator = false →
    hasRepeatedCombinator (.compound c :: row) = false → ∃ links, .compound c :: row = rowOf c links
  | c, [], _, _ => ⟨[], rfl⟩
  | c, .compound d :: row, last, single => by
    obtain ⟨links, h⟩ := @exists_links d row (by simpa using last)
      (by simpa [hasRepeatedCombinator] using single)
    exact ⟨⟨none, d⟩ :: links, by rw [h]; rfl⟩
  | c, [.combinator k], last, _ => by simp [Item.isCombinator] at last
  | c, .combinator k :: .combinator k' :: row, _, single => by
    simp [hasRepeatedCombinator] at single
  | c, .combinator k :: .compound d :: row, last, single => by
    obtain ⟨links, h⟩ := @exists_links d row (by simpa using last)
      (by simpa [hasRepeatedCombinator] using single)
    exact ⟨⟨some k, d⟩ :: links, by rw [h]; rfl⟩

/-- **A row without misplaced combinators is a chain.** -/
theorem exists_rowOf {row : List Item} (h : isMisplaced 0 row = false) :
    ∃ c links, row = rowOf c links := by
  cases row with
  | nil => simp [isMisplaced] at h
  | cons item row =>
    cases item with
    | combinator k => simp [isMisplaced, List.takeWhile_cons, Item.isCombinator] at h
    | compound c =>
      have parts : (Item.compound c :: row).getLast?.any Item.isCombinator = false ∧
          hasRepeatedCombinator (.compound c :: row) = false := by
        simpa [isMisplaced, List.takeWhile_cons, Item.isCombinator] using h
      obtain ⟨links, hl⟩ := exists_links parts.1 parts.2
      exact ⟨c, links, hl⟩

/-! ## Trails -/

namespace Document

variable {doc : Document}

/-- Elements for the compounds of a chain, from the one before the first link to the one for the
last. -/
def Trail (doc : Document) : Address → List Link → Address → Prop
  | e, [], e' => e = e'
  | e, l :: links, e' =>
    ∃ next, l.joint.Holds e next ∧ doc.Meets next l.compound ∧ doc.Trail next links e'

/-- A row leads from one element to another when the first meets its first compound and a trail goes
on from there. -/
theorem leads_rowOf : ∀ {c : Compound} {links : List Link} {e e' : Address},
    doc.Leads (rowOf c links) e e' ↔ doc.Meets e c ∧ doc.Trail e links e'
  | _, [], _, _ => Iff.rfl
  | c, ⟨none, d⟩ :: links, e, e' => by
    obtain ⟨row, h⟩ := rowOf_eq_cons d links
    have step : doc.Leads (rowOf c (⟨none, d⟩ :: links)) e e' ↔
        doc.Meets e c ∧ ∃ next, Joint.Holds none e next ∧ doc.Leads (rowOf d links) next e' := by
      rw [rowOf, h]; rfl
    rw [step]
    simp only [@leads_rowOf d links, Trail]
  | c, ⟨some k, d⟩ :: links, e, e' => by
    have step : doc.Leads (rowOf c (⟨some k, d⟩ :: links)) e e' ↔
        doc.Meets e c ∧ ∃ next, Joint.Holds (some k) e next ∧ doc.Leads (rowOf d links) next e' :=
      Iff.rfl
    rw [step]
    simp only [@leads_rowOf d links, Trail]

/-- So matching a row is having a trail behind. -/
theorem matches_rowOf {c : Compound} {links : List Link} {e : Address} :
    doc.Matches (rowOf c links) e ↔ ∃ start, doc.Meets start c ∧ doc.Trail start links e :=
  exists_congr fun _ => leads_rowOf

/-- Trails are put together at an element in between. -/
theorem trail_append {links links' : List Link} {e e' : Address} :
    doc.Trail e (links ++ links') e' ↔ ∃ mid, doc.Trail e links mid ∧ doc.Trail mid links' e' := by
  induction links generalizing e with
  | nil => simp [Trail]
  | cons l links ih =>
    simp only [List.cons_append, Trail, ih]
    constructor
    · rintro ⟨next, hj, hm, mid, h, h'⟩
      exact ⟨mid, ⟨next, hj, hm, h⟩, h'⟩
    · rintro ⟨mid, ⟨next, hj, hm, h⟩, h'⟩
      exact ⟨next, hj, hm, mid, h, h'⟩

end Document

end SelectorAlgebra
