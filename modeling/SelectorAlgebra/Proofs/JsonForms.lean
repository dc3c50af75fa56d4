import SelectorAlgebra.Proofs.Sequences
import SelectorAlgebra.Proofs.StoredForms
import SelectorAlgebra.Selector.Decode

/-!
# Proofs/JsonForms — reading and writing selectors as JSON values

JSON is a format for stored selectors (`Json.codec`), and a lawful one (`Json.lawful_codec`), so
`Proofs/StoredForms` applies to it.

The readers of all levels take the reader of arguments as a parameter, and what is claimed of them
is proved for any such parameter.  The reader of lists goes only as deep as the value does;
`SelectorList.ofJson_eq` says that this is deep enough for it to be its own reader of arguments.
-/

namespace SelectorAlgebra

open Json

/-! ## Parts of a JSON value -/

namespace Json

variable {α : Type} {read : Decoder α} {form : α → Json}

@[simp] theorem decodeText_string (text : String) : decodeText (.string text) = .ok text := rfl

@[simp] theorem decodeFlag_bool (b : Bool) : decodeFlag (.bool b) = .ok b := rfl

@[simp] theorem decodeFields_object (fields : List (String × Json)) :
    decodeFields (.object fields) = .ok fields := rfl

@[simp] theorem decodeVariant_object (field : String × Json) :
    decodeVariant (.object [field]) = .ok field := rfl

@[simp] theorem require_some (a : α) : require (some a) = .ok a := rfl

/-- A list is read back when each member is. -/
theorem decodeList_array {as : List α} (h : ∀ a ∈ as, read (form a) = .ok a) :
    decodeList read (.array (as.map form)) = .ok as := by
  have each : (as.map form).mapM read = .ok as := by
    rw [List.mapM_map]
    exact (mapM_ok h).trans (congrArg Except.ok (List.map_id as))
  exact each

/-- A value that may be missing is read back. -/
theorem nullable_ofOption {o : Option α} (h : ∀ a ∈ o, read (form a) = .ok a)
    (filled : ∀ a, (form a).isNull = false) : nullable read (.ofOption (o.map form)) = .ok o := by
  cases o with
  | none => rfl
  | some a => simp [nullable, ofOption, filled, h, Except.map]

@[simp] theorem nullable_textToJson (text : Option String) :
    nullable decodeText (textToJson text) = .ok text :=
  nullable_ofOption (fun text _ => decodeText_string text) fun _ => rfl

end Json

/-- Combinators are read back from their labels. -/
theorem Combinator.ofJson_label (k : Combinator) : Combinator.ofJson (.string k.label) = .ok k := by
  cases k <;> rfl

theorem AttributeOperator.ofJson_label (op : AttributeOperator) :
    AttributeOperator.ofJson (.string op.label) = .ok op := by
  cases op <;> rfl

/-- A namespace is read back from the form of its constructor. -/
theorem Namespace.ofJson_toJson (ns : Namespace) : Namespace.ofJson ns.toJson = .ok ns := by
  cases ns <;> rfl

theorem nullable_namespace (ns : Option Namespace) :
    nullable Namespace.ofJson (.ofOption (ns.map Namespace.toJson)) = .ok ns :=
  nullable_ofOption (fun ns _ => ns.ofJson_toJson) fun ns => by cases ns <;> rfl

theorem QualifiedName.ofJson_toJson (q : QualifiedName) :
    QualifiedName.ofJson q.toJson = .ok q := by
  simp [QualifiedName.ofJson, QualifiedName.toJson, field?, nullableField, nullable_namespace, bind,
    Except.bind, pure, Except.pure, Except.map]

/-- An attribute condition is read back field by field. -/
theorem Attribute.ofJson_toJson (a : Attribute) : Attribute.ofJson a.toJson = .ok a := by
  have operator : nullable AttributeOperator.ofJson
      (.ofOption (a.operator.map fun op => .string op.label)) = .ok a.operator :=
    nullable_ofOption (fun op _ => op.ofJson_label) fun _ => rfl
  simp [Attribute.ofJson, Attribute.toJson, field?, nullableField, QualifiedName.ofJson_toJson,
    operator, bind, Except.bind, pure, Except.pure, Except.map]

/-! ## Reading back what was written -/

theorem elementsOfCompound_eq_map : ∀ c : List Simple, elementsOfCompound c = c.map Simple.toJson
  | [] => rfl
  | s :: rest => by rw [elementsOfCompound, elementsOfCompound_eq_map rest, List.map_cons]

/-- The JSON form of an item. -/
def Item.toJson : Item → Json
  | .compound c => .object [("Compound", Compound.toJson c)]
  | .combinator k => .object [("Comb", .string k.label)]

/-- The recursion that writes rows is a map. -/
theorem elementsOfItems_eq_map : ∀ items : List Item, elementsOfItems items = items.map Item.toJson
  | [] => rfl
  | .compound c :: rest => by
    rw [elementsOfItems, elementsOfItems_eq_map rest]
    rfl
  | .combinator k :: rest => by
    rw [elementsOfItems, elementsOfItems_eq_map rest]
    rfl

theorem elementsOfList_eq_map : ∀ l : List Complex, elementsOfList l = l.map Complex.toJson
  | [] => rfl
  | ⟨items, lineBreak⟩ :: rest => by
    rw [elementsOfList, elementsOfList_eq_map rest]
    rfl

section Levels

variable {argument : Decoder SelectorList}

/-- The JSON form of a stored pseudo selector. -/
def PseudoData.toJson (data : PseudoData) : Json :=
  .object [("name", .string data.name), ("element", .bool data.element),
    ("argument", textToJson data.argument),
    ("selector", .ofOption (data.selector.map SelectorList.toJson))]

/-- The JSON form of a stored complex selector. -/
def ComplexData.toJson (data : ComplexData) : Json :=
  .object [("components", itemsToJson data.items), ("line_break", .bool data.lineBreak)]

/-- A pseudo is written as the data it is stored as. -/
theorem Simple.toJson_pseudo (p : Pseudo) :
    (Simple.pseudo p).toJson = .object [("Pseudo", p.toData.toJson)] := by
  obtain ⟨name, text, _ | l⟩ := p <;> rfl

/-- The form of a record is read back if that of its argument is. -/
theorem PseudoData.ofJsonWith_toJson {data : PseudoData}
    (h : ∀ l ∈ data.selector, argument (SelectorList.toJson l) = .ok l) :
    PseudoData.ofJsonWith argument data.toJson = .ok data := by
  have selector := nullable_ofOption h fun _ => rfl
  simp [ofJsonWith, toJson, field?, nullableField, selector, bind, Except.bind, pure, Except.pure,
    Except.map]

/-- A condition is read back if it is no pseudo selector, or one that is. -/
theorem Simple.ofJsonWith_toJson {s : Simple}
    (h : ∀ p, s = .pseudo p → Pseudo.ofJsonWith argument p.toData.toJson = .ok p) :
    Simple.ofJsonWith argument s.toJson = .ok s := by
  cases s with
  | universal ns =>
    simp [Simple.ofJsonWith, Simple.toJson, field?, nullableField, nullable_namespace, bind,
      Except.bind, pure, Except.pure, Except.map]
  | type name =>
    simp [Simple.ofJsonWith, Simple.toJson, QualifiedName.ofJson_toJson, bind, Except.bind, pure,
      Except.pure]
  | className name => rfl
  | idName name => rfl
  | attr a =>
    simp [Simple.ofJsonWith, Simple.toJson, Attribute.ofJson_toJson, bind, Except.bind, pure,
      Except.pure]
  | placeholder name => rfl
  | parent suffix =>
    simp [Simple.ofJsonWith, Simple.toJson, field?, nullableField, bind, Except.bind, pure,
      Except.pure, Except.map]
  | pseudo p =>
    simp [Simple.toJson_pseudo, Simple.ofJsonWith, h p rfl, bind, Except.bind, pure, Except.pure]

/-- A row's item, once compounds are read back. -/
theorem Item.ofJsonWith_toJson {item : Item}
    (h : ∀ c, item = .compound c → Compound.ofJsonWith argument (Compound.toJson c) = .ok c) :
    Item.ofJsonWith argument item.toJson = .ok item := by
  cases item with
  | compound c =>
    simp [Item.ofJsonWith, Item.toJson, h c rfl, bind, Except.bind, pure, Except.pure]
  | combinator k =>
    simp [Item.ofJsonWith, Item.toJson, Combinator.ofJson_label, bind, Except.bind, pure,
      Except.pure]

/-- A stored complex selector, once its compounds are read back. -/
theorem ComplexData.ofJsonWith_toJson {data : ComplexData}
    (h : ∀ c, Item.compound c ∈ data.items →
      Compound.ofJsonWith argument (Compound.toJson c) = .ok c) :
    ComplexData.ofJsonWith argument data.toJson = .ok data := by
  have items : decodeList (Item.ofJsonWith argument) (itemsToJson data.items) = .ok data.items := by
    rw [itemsToJson, elementsOfItems_eq_map]
    refine decodeList_array fun item hi => Item.ofJsonWith_toJson ?_
    rintro c rfl
    exact h c hi
  simp [ofJsonWith, toJson, field?, items, bind, Except.bind, pure, Except.pure, Except.map]

end Levels

/-! ## What decoding gives -/

/-- Whatever the reader reads has the property. -/
def Gives {α : Type} (read : Decoder α) (P : α → Prop) : Prop := ∀ j a, read j = .ok a → P a

section Gives

variable {α : Type} {read : Decoder α} {P : α → Prop} {argument : Decoder SelectorList}

/-- What a reader gives holds of each member of a list it reads. -/
theorem Gives.decodeList (h : Gives read P) : Gives (decodeList read) fun as => ∀ a ∈ as, P a := by
  intro j as has a ha
  obtain ⟨elements, -, has⟩ := exists_of_bind_ok has
  obtain ⟨e, -, he⟩ := exists_mem_of_forall₂ (forall₂_of_mapM_ok has).flip ha
  exact h e a he

/-- Where `null` is read there is nothing to hold. -/
theorem Gives.nullable (h : Gives read P) :
    Gives (nullable read) fun o => ∀ a, o = some a → P a := by
  intro j o ho a ha
  subst ha
  unfold Json.nullable at ho
  split at ho
  · cases ho
  · obtain ⟨b, hb, hba⟩ := exists_of_map_ok ho
    obtain rfl := Option.some.inj hba
    exact h j b hb

/-- A field that is present was read by its reader. -/
theorem Gives.field? (h : Gives read P) {fields : List (String × Json)} {key : String}
    {o : Option α} (ho : field? fields key read = .ok o) : ∀ a, o = some a → P a := by
  rintro a rfl
  unfold Json.field? at ho
  split at ho
  · cases ho
  · obtain ⟨b, hb, hba⟩ := exists_of_map_ok ho
    obtain rfl := Option.some.inj hba
    exact h _ b hb
  · cases ho

theorem Gives.nullableField (h : Gives read P) {fields : List (String × Json)} {key : String}
    {o : Option α} (ho : nullableField fields key read = .ok o) : ∀ a, o = some a → P a := by
  rintro a rfl
  obtain ⟨found, hfound, join⟩ := exists_of_map_ok ho
  exact h.nullable.field? hfound _ (Option.join_eq_some_iff.1 join) a rfl

/-- The argument of a pseudo was read by the reader for arguments. -/
theorem PseudoData.gives_ofJsonWith {P : SelectorList → Prop} (h : Gives argument P) :
    Gives (PseudoData.ofJsonWith argument) fun data => ∀ l, data.selector = some l → P l := by
  intro j data hdata
  obtain ⟨fields, -, hdata⟩ := exists_of_bind_ok hdata
  obtain ⟨text, -, hdata⟩ := exists_of_bind_ok hdata
  obtain ⟨doubleColon, -, hdata⟩ := exists_of_bind_ok hdata
  obtain ⟨name, -, hdata⟩ := exists_of_bind_ok hdata
  obtain ⟨selector, hselector, hdata⟩ := exists_of_bind_ok hdata
  obtain ⟨name, -, hdata⟩ := exists_of_bind_ok hdata
  obtain rfl := Except.ok.inj hdata
  exact h.nullableField hselector

/-- A condition that is a pseudo was read as one. -/
theorem Simple.gives_ofJsonWith {P : Pseudo → Prop} (h : Gives (Pseudo.ofJsonWith argument) P) :
    Gives (Simple.ofJsonWith argument) fun s => ∀ p, s = .pseudo p → P p := by
  intro j s hs
  obtain ⟨⟨key, body⟩, -, hs⟩ := exists_of_bind_ok hs
  -- only one of the forms is that of a pseudo selector
  split at hs
  case h_8 =>
    obtain ⟨p, hp, hs⟩ := exists_of_bind_ok hs
    obtain rfl := Except.ok.inj hs
    rintro _ ⟨⟩
    exact h _ p hp
  case h_1 | h_7 =>
    obtain ⟨fields, -, hs⟩ := exists_of_bind_ok hs
    obtain ⟨o, -, hs⟩ := exists_of_bind_ok hs
    obtain rfl := Except.ok.inj hs
    rintro _ ⟨⟩
  case h_2 | h_3 | h_4 | h_5 | h_6 =>
    obtain ⟨content, -, hs⟩ := exists_of_bind_ok hs
    obtain rfl := Except.ok.inj hs
    rintro _ ⟨⟩
  case h_9 => cases hs

/-- An item that is a compound was read as one. -/
theorem Item.gives_ofJsonWith {P : Compound → Prop} (h : Gives (Compound.ofJsonWith argument) P) :
    Gives (Item.ofJsonWith argument) fun item => ∀ c, item = .compound c → P c := by
  intro j item hi
  obtain ⟨⟨key, body⟩, -, hi⟩ := exists_of_bind_ok hi
  split at hi
  · obtain ⟨c, hc, hi⟩ := exists_of_bind_ok hi
    obtain rfl := Except.ok.inj hi
    rintro _ ⟨⟩
    exact h _ c hc
  · obtain ⟨k, -, hi⟩ := exists_of_bind_ok hi
    obtain rfl := Except.ok.inj hi
    rintro _ ⟨⟩
  · cases hi

/-- The compounds of a row were read as compounds. -/
theorem ComplexData.gives_ofJsonWith {P : Compound → Prop}
    (h : Gives (Compound.ofJsonWith argument) P) :
    Gives (ComplexData.ofJsonWith argument) fun data =>
      ∀ c, Item.compound c ∈ data.items → P c := by
  intro j data hdata
  obtain ⟨fields, -, hdata⟩ := exists_of_bind_ok hdata
  obtain ⟨found, hfound, hdata⟩ := exists_of_bind_ok hdata
  obtain ⟨lineBreak, -, hdata⟩ := exists_of_bind_ok hdata
  obtain ⟨items, hitems, hdata⟩ := exists_of_bind_ok hdata
  obtain rfl := Except.ok.inj hdata
  have there : found = some items := by
    cases found with
    | none => cases hitems
    | some items' => rw [Except.ok.inj hitems]
  have compounds := (Item.gives_ofJsonWith h).decodeList.field? hfound items there
  exact fun c hc => compounds _ hc c rfl

end Gives

/-! ## Deep enough -/

section Depth

variable {α β : Type} {read read' : Decoder α} {argument argument' : Decoder SelectorList}
  {depth : Nat}

/-- Two readers do the same with values that nest less deep. -/
def AlikeBelow (depth : Nat) (read read' : Decoder α) : Prop :=
  ∀ j : Json, j.nesting < depth → read j = read' j

/-- A value in an array is no deeper than the array's elements. -/
theorem nesting_le_elements {j : Json} : ∀ {elements : List Json}, j ∈ elements →
    j.nesting ≤ nestingOfElements elements
  | first :: rest, h => by
    rcases List.mem_cons.1 h with rfl | h
    · exact Nat.le_max_left _ _
    · exact Nat.le_trans (nesting_le_elements h) (Nat.le_max_right _ _)

/-- Nor is the value of a field. -/
theorem nesting_le_fields {field : String × Json} : ∀ {fields : List (String × Json)},
    field ∈ fields → field.2.nesting ≤ nestingOfFields fields
  | first :: rest, h => by
    rcases List.mem_cons.1 h with rfl | h
    · exact Nat.le_max_left _ _
    · exact Nat.le_trans (nesting_le_fields h) (Nat.le_max_right _ _)

/-- Readers that agree below a depth give readers of lists that agree one level higher. -/
theorem AlikeBelow.decodeList (h : AlikeBelow depth read read') :
    AlikeBelow (depth + 1) (decodeList read) (decodeList read') := by
  intro j lt
  cases j with
  | array elements =>
    have each := fun e he => h e (Nat.lt_of_le_of_lt (nesting_le_elements he)
      (Nat.lt_of_succ_lt_succ lt))
    exact mapM_congr each
  | _ => rfl

theorem AlikeBelow.nullable (h : AlikeBelow depth read read') :
    AlikeBelow depth (nullable read) (nullable read') := by
  intro j lt
  rw [Json.nullable, Json.nullable, h j lt]

/-- Fields of an object whose values are below the depth. -/
theorem AlikeBelow.field? (h : AlikeBelow depth read read') {fields : List (String × Json)}
    (lt : nestingOfFields fields < depth) (key : String) :
    field? fields key read = field? fields key read' := by
  unfold Json.field?
  split
  · rfl
  · rename_i name j found
    have mem : (name, j) ∈ fields :=
      List.mem_of_mem_filter (found ▸ List.mem_singleton_self _)
    rw [h j (Nat.lt_of_le_of_lt (nesting_le_fields mem) lt)]
  · rfl

/-- Only what is read decides how reading goes on. -/
theorem bind_congr_of_ok {ε : Type} {x : Except ε α} {f g : α → Except ε β}
    (h : ∀ a, x = .ok a → f a = g a) : x >>= f = x >>= g := by
  rcases x with _ | a
  · rfl
  · exact h a rfl

/-- An object's fields are less deep than the object. -/
theorem nestingOfFields_lt_of_decodeFields {j : Json} {fields : List (String × Json)}
    (h : decodeFields j = .ok fields) : nestingOfFields fields < j.nesting := by
  cases j with
  | object fields' =>
    cases h
    exact Nat.lt_succ_self _
  | _ => cases h

/-- The same for an object with the one field that names a variant. -/
theorem nesting_lt_of_decodeVariant {j : Json} {field : String × Json}
    (h : decodeVariant j = .ok field) : field.2.nesting < j.nesting := by
  unfold decodeVariant at h
  split at h
  · cases h
    exact Nat.lt_succ_of_le (nesting_le_fields (List.mem_singleton_self _))
  · cases h

/-- A pseudo adds one level to its argument. -/
theorem AlikeBelow.pseudoData (h : AlikeBelow depth argument argument') :
    AlikeBelow (depth + 1) (PseudoData.ofJsonWith argument) (PseudoData.ofJsonWith argument') := by
  intro j lt
  refine bind_congr_of_ok fun fields hfields => ?_
  have inside := nestingOfFields_lt_of_decodeFields hfields
  have selector : nullableField fields "selector" argument =
      nullableField fields "selector" argument' :=
    congrArg (Except.map Option.join) (h.nullable.field? (by omega) "selector")
  rw [selector]

/-- A condition adds the level of its variant. -/
theorem AlikeBelow.simple (h : AlikeBelow depth argument argument') :
    AlikeBelow (depth + 2) (Simple.ofJsonWith argument) (Simple.ofJsonWith argument') := by
  intro j lt
  refine bind_congr_of_ok fun field hfield => ?_
  have inside := nesting_lt_of_decodeVariant hfield
  have pseudo := h.pseudoData field.2 (by omega)
  split
  case h_8 => rw [Pseudo.ofJsonWith, Pseudo.ofJsonWith, pseudo]
  all_goals rfl

/-- A compound adds the level of the array. -/
theorem AlikeBelow.compound (h : AlikeBelow depth argument argument') :
    AlikeBelow (depth + 3) (Compound.ofJsonWith argument) (Compound.ofJsonWith argument') := by
  intro j lt
  rw [Compound.ofJsonWith, Compound.ofJsonWith, h.simple.decodeList j lt]

/-- An item adds the level of its variant. -/
theorem AlikeBelow.item (h : AlikeBelow depth argument argument') :
    AlikeBelow (depth + 4) (Item.ofJsonWith argument) (Item.ofJsonWith argument') := by
  intro j lt
  refine bind_congr_of_ok fun field hfield => ?_
  have inside := nesting_lt_of_decodeVariant hfield
  have compound := h.compound field.2 (by omega)
  split
  · rw [compound]
  all_goals rfl

/-- A complex selector adds the array of items and the object around it. -/
theorem AlikeBelow.complexData (h : AlikeBelow depth argument argument') :
    AlikeBelow (depth + 6) (ComplexData.ofJsonWith argument)
      (ComplexData.ofJsonWith argument') := by
  intro j lt
  refine bind_congr_of_ok fun fields hfields => ?_
  have inside := nestingOfFields_lt_of_decodeFields hfields
  rw [h.item.decodeList.field? (by omega) "components"]

theorem AlikeBelow.complex (h : AlikeBelow depth argument argument') :
    AlikeBelow (depth + 6) (Complex.ofJsonWith argument) (Complex.ofJsonWith argument') := by
  intro j lt
  rw [Complex.ofJsonWith, Complex.ofJsonWith, h.complexData j lt]

/-- **A list is read alike by any two readers that go as deep as the value does.** -/
theorem SelectorList.ofJsonWithin_congr : ∀ {n m : Nat} {j : Json}, j.nesting < n → j.nesting < m →
    SelectorList.ofJsonWithin n j = SelectorList.ofJsonWithin m j
  | n + 1, m + 1, j, hn, hm => by
    have arguments : AlikeBelow j.nesting (ofJsonWithin n) (ofJsonWithin m) := fun e lt =>
      ofJsonWithin_congr (Nat.lt_of_lt_of_le lt (Nat.le_of_lt_succ hn))
        (Nat.lt_of_lt_of_le lt (Nat.le_of_lt_succ hm))
    rw [ofJsonWithin, ofJsonWithin, arguments.complex.decodeList j (by omega)]

/-- **The reader of lists is its own reader of arguments.** -/
theorem SelectorList.ofJson_eq (j : Json) :
    SelectorList.ofJson j = decodeList Complex.ofJson j >>= SelectorList.ofChoices := by
  have arguments : AlikeBelow j.nesting (ofJsonWithin j.nesting) SelectorList.ofJson :=
    fun e lt => ofJsonWithin_congr lt (Nat.lt_succ_self _)
  rw [ofJson, ofJsonWithin, arguments.complex.decodeList j (by omega)]
  rfl

end Depth

/-! ## JSON as a format -/

/-- JSON as a format for stored selectors. -/
def Json.codec : Codec Json DecodeError where
  pseudoData := ⟨PseudoData.toJson, PseudoData.ofJsonWith SelectorList.ofJson⟩
  simples := ⟨Compound.toJson, decodeList Simple.ofJson⟩
  complexData := ⟨ComplexData.toJson, ComplexData.ofJsonWith SelectorList.ofJson⟩
  complexes := ⟨SelectorList.toJson, decodeList Complex.ofJson⟩
  refuse := id

namespace Json

theorem mapError_id {ε α : Type} (x : Except ε α) : x.mapError id = x := by
  cases x <;> rfl

theorem read_pseudo (j : Json) : codec.pseudo.read j = Pseudo.ofJsonWith SelectorList.ofJson j :=
  rfl

theorem read_compound (j : Json) : codec.compound.read j = Compound.ofJson j :=
  bind_congr_of_ok fun _ _ => mapError_id _

theorem read_complex (j : Json) : codec.complex.read j = Complex.ofJson j :=
  bind_congr_of_ok fun _ _ => mapError_id _

/-- The reader the format derives is the decoder that runs. -/
theorem read_list (j : Json) : codec.list.read j = SelectorList.ofJson j := by
  rw [SelectorList.ofJson_eq]
  exact bind_congr_of_ok fun _ _ => mapError_id _

/-- **JSON is a lawful format.** -/
theorem lawful_codec : codec.Lawful where
  pseudoData_readsBack data argument :=
    PseudoData.ofJsonWith_toJson fun l hl => (read_list _).symm.trans (argument l hl)
  simples_readsBack simples pseudos := by
    show decodeList Simple.ofJson (.array (elementsOfCompound simples)) = .ok simples
    rw [elementsOfCompound_eq_map]
    refine decodeList_array fun s hs => Simple.ofJsonWith_toJson ?_
    rintro p rfl
    exact pseudos p hs
  complexData_readsBack data compounds :=
    ComplexData.ofJsonWith_toJson fun c hc => (read_compound _).symm.trans (compounds c hc)
  complexes_readsBack choices complexes := by
    show decodeList Complex.ofJson (.array (elementsOfList choices)) = .ok choices
    rw [elementsOfList_eq_map]
    exact decodeList_array fun c hc => (read_complex _).symm.trans (complexes c hc)
  reads_selector data := by
    rintro ⟨j, hj⟩
    exact PseudoData.gives_ofJsonWith (fun j l h => ⟨j, (read_list j).trans h⟩) j data hj
  reads_pseudo simples := by
    rintro ⟨j, hj⟩ p hp
    have pseudos : Gives (Pseudo.ofJsonWith SelectorList.ofJson) codec.pseudo.Reads :=
      fun j _ h => ⟨j, (read_pseudo j).trans h⟩
    exact (Simple.gives_ofJsonWith pseudos).decodeList j simples hj _ hp p rfl
  reads_compound data := by
    rintro ⟨j, hj⟩
    exact ComplexData.gives_ofJsonWith (fun j c h => ⟨j, (read_compound j).trans h⟩) j data hj
  reads_complex choices := by
    rintro ⟨j, hj⟩
    exact Gives.decodeList (fun j c h => ⟨j, (read_complex j).trans h⟩) j choices hj

end Json

/-- **Decoding undoes encoding.** -/
theorem SelectorList.ofJson_toJson {l : SelectorList} (whole : l.isWhole = true) :
    SelectorList.ofJson l.toJson = .ok l :=
  (Json.read_list _).symm.trans (Json.lawful_codec.list_readsBack whole)

end SelectorAlgebra
