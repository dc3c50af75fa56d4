import SelectorAlgebra.CommandLine.Run
import SelectorAlgebra.Proofs.JsonForms

/-!
# Proofs/JsonTexts — selectors as JSON texts

A JSON value is read back from its text, however the white space is laid out
(`Json.parse?_textAt`).  So lists are read back from the texts of their forms, as long as these do
not nest deeper than operands may: the texts of JSON are a lawful text format (`Json.lawful_texts`).
-/

namespace SelectorAlgebra

namespace Json

/-! ## White space -/

variable {space cs rest : List Char} {c : Char} {n level : Nat} {layout : Layout}

/-- White space before a text is skipped. -/
theorem skipSpace_append (h : space.all isSpace = true) :
    skipSpace (space ++ cs) = skipSpace cs :=
  List.dropWhile_append_of_pos (List.all_eq_true.1 h)

theorem skipSpace_cons (h : isSpace c = false) : skipSpace (c :: cs) = c :: cs := by
  simp [skipSpace, h]

/-- A value may stand behind white space. -/
theorem value_append (h : space.all isSpace = true) : value n (space ++ cs) = value n cs := by
  cases n with
  | zero => rfl
  | succ n => rw [value, value, skipSpace_append h]

theorem fields_append (h : space.all isSpace = true) : fields n (space ++ cs) = fields n cs := by
  cases n with
  | zero => rfl
  | succ n => rw [fields, fields, skipSpace_append h]

theorem elements_append (h : space.all isSpace = true) :
    elements n (space ++ cs) = elements n cs := by
  cases n with
  | zero => rfl
  | succ n => rw [elements, elements, value_append h]

/-! ## Strings -/

/-- The sixteen digits are read back. -/
theorem hexValue?_hexDigit : ∀ {n : Nat}, n < 16 → hexValue? (hexDigit n) = some n := by
  decide

/-- A control character is written with four digits, and they are read back. -/
theorem codeUnit_hexDigit (h : n < 32) : codeUnit
    ('0' :: '0' :: hexDigit (n / 16) :: hexDigit (n % 16) :: rest) = some (n, rest) := by
  have high := hexValue?_hexDigit (n := n / 16) (by omega)
  have low := hexValue?_hexDigit (n := n % 16) (by omega)
  have zero : hexValue? '0' = some 0 := rfl
  have sum : n / 16 * 16 + n % 16 = n := Nat.div_add_mod' n 16
  simp [codeUnit, zero, high, low, sum]

/-- A character that is escaped is read as itself. -/
theorem stringBody_escape {read : List Char} {escaped : List Char}
    (h : escape (escaped ++ rest) = some (some c, rest)) :
    stringBody (n + 1) (some read) ('\\' :: escaped ++ rest)
      = stringBody n (some (c :: read)) rest := by
  rw [List.cons_append, stringBody, if_neg (by decide), if_pos rfl, h]
  rfl

/-- **A character is read back as it was written.** -/
theorem stringBody_escapeChar (c : Char) (read : List Char) :
    stringBody (n + 1) (some read) (escapeChar c ++ rest)
      = stringBody n (some (c :: read)) rest := by
  have named : ∀ {m : Nat}, c.toNat = m → Char.ofNat m = c := fun h => h ▸ c.ofNat_toNat
  unfold escapeChar
  split
  · subst c; exact stringBody_escape rfl
  split
  · subst c; exact stringBody_escape rfl
  split
  · subst c; exact stringBody_escape rfl
  split
  · subst c; exact stringBody_escape rfl
  split
  · subst c; exact stringBody_escape rfl
  split
  · rename_i h; rw [← named h]; exact stringBody_escape rfl
  split
  · rename_i h; rw [← named h]; exact stringBody_escape rfl
  split
  · rename_i control
    refine stringBody_escape ?_
    show unicodeEscape _ = _
    have small : c.toNat < 0xD800 ∨ 0xDFFF < c.toNat := .inl (by omega)
    simp [unicodeEscape, codeUnit_hexDigit control, small, named rfl]
  · rename_i quote backslash _ _ _ _ _ printed
    rw [List.singleton_append, stringBody, if_neg quote, if_neg backslash, if_neg printed]
    rfl

/-- A string is read back character by character, given enough steps. -/
theorem stringBody_flatMap : ∀ (s : List Char) {n : Nat} {read : List Char}, s.length < n →
    stringBody n (some read) (s.flatMap escapeChar ++ '"' :: rest)
      = some (some (read.reverse ++ s), rest)
  | [], n + 1, read, _ => by simp [stringBody]
  | c :: s, n + 1, read, h => by
    rw [List.flatMap_cons, List.append_assoc, stringBody_escapeChar,
      stringBody_flatMap s (Nat.lt_of_succ_lt_succ h)]
    simp

/-- Escaping never shortens, so the length of the text is enough. -/
theorem length_le_flatMap_escapeChar (s : List Char) :
    s.length ≤ (s.flatMap escapeChar).length := by
  have filled : ∀ c, escapeChar c ≠ [] := fun c => by unfold escapeChar; split_ifs <;> simp
  induction s with
  | nil => exact Nat.le_refl 0
  | cons c s ih =>
    have one := List.length_pos_iff.2 (filled c)
    rw [List.flatMap_cons, List.length_append, List.length_cons]
    omega

theorem toList_quote (s : String) :
    (quote s).toList = '"' :: (s.toList.flatMap escapeChar ++ ['"']) :=
  String.toList_ofList

/-- A quoted text is read back, behind its opening quote. -/
theorem stringTail_quote (s : String) (rest : List Char) (h : (quote s).toList.length ≤ n + 1) :
    stringTail n (s.toList.flatMap escapeChar ++ '"' :: rest) = some (some s, rest) := by
  have long := length_le_flatMap_escapeChar s.toList
  rw [toList_quote, List.length_cons, List.length_append, List.length_singleton] at h
  rw [stringTail, stringBody_flatMap s.toList (by omega)]
  simp

/-! ## Values -/

/-- Values without numbers, whose literals could be anything, and with nothing unreadable. -/
inductive Textual : Json → Prop where
  | null : Textual .null
  | bool (b : Bool) : Textual (.bool b)
  | string (s : String) : Textual (.string s)
  | array {elements : List Json} : (∀ j ∈ elements, Textual j) → Textual (.array elements)
  | object {fields : List (String × Json)} :
      (∀ field ∈ fields, Textual field.2) → Textual (.object fields)

/-- A value is read back from its text, whatever stands behind it. -/
def ReadsText (layout : Layout) (j : Json) : Prop :=
  ∀ (level n : Nat) (rest : List Char), (j.textAt layout level).toList.length ≤ n →
    value n ((j.textAt layout level).toList ++ rest) = some (j, rest)

section Layout

variable (layout : Layout) (level : Nat)

/-- The characters of an array that is not empty. -/
theorem toList_textAt_array (j : Json) (js : List Json) :
    (textAt layout level (.array (j :: js))).toList = '[' :: ((layout.line (level + 1)).toList ++
      ((j.textAt layout (level + 1)).toList ++ ((elementsText layout (level + 1) js).toList ++
        ((layout.line level).toList ++ [']'])))) := by
  simp [textAt]

theorem toList_elementsText_cons (j : Json) (js : List Json) :
    (elementsText layout level (j :: js)).toList = ',' :: ((layout.line level).toList ++
      ((j.textAt layout level).toList ++ (elementsText layout level js).toList)) := by
  simp [elementsText]

/-- The characters of an object that is not empty. -/
theorem toList_textAt_object (key : String) (j : Json) (fs : List (String × Json)) :
    (textAt layout level (.object ((key, j) :: fs))).toList =
      '\x7b' :: ((layout.line (level + 1)).toList ++ ((quote key).toList ++
        ':' :: (layout.gap.toList ++ ((j.textAt layout (level + 1)).toList ++
          ((fieldsText layout (level + 1) fs).toList ++
            ((layout.line level).toList ++ ['\x7d'])))))) := by
  simp [textAt]

theorem toList_fieldsText_cons (key : String) (j : Json) (fs : List (String × Json)) :
    (fieldsText layout level ((key, j) :: fs)).toList = ',' :: ((layout.line level).toList ++
      ((quote key).toList ++ ':' :: (layout.gap.toList ++ ((j.textAt layout level).toList ++
        (fieldsText layout level fs).toList)))) := by
  simp [fieldsText]

/-- The text of a value does not begin with white space, or with a closing bracket. -/
theorem Textual.exists_cons {j : Json} (h : j.Textual) :
    ∃ c cs, (j.textAt layout level).toList = c :: cs ∧ isSpace c = false ∧ c ≠ ']' := by
  cases h with
  | null => exact ⟨'n', ['u', 'l', 'l'], by simp [textAt], rfl, by decide⟩
  | bool b => cases b <;> simp [textAt, isSpace]
  | string s => exact ⟨'"', _, toList_quote s, rfl, by decide⟩
  | @array elements _ => cases elements <;> simp [textAt, isSpace]
  | @object fields _ => rcases fields with _ | ⟨⟨k, v⟩, rest⟩ <;> simp [textAt, isSpace]

end Layout

/-! ## One step of a reader -/

section Steps

variable {left left' : List Char} {j : Json} {js : List Json} {key : String}
  {fs : List (Option String × Json)}

/-- The last element stands before the closing bracket. -/
theorem elements_last (read : value n cs = some (j, left)) (closed : skipSpace left = ']' :: rest) :
    elements (n + 1) cs = some ([j], rest) := by
  simp [elements, read, closed]

/-- Any other stands before a comma. -/
theorem elements_more (read : value n cs = some (j, left)) (comma : skipSpace left = ',' :: left')
    (more : elements n left' = some (js, rest)) : elements (n + 1) cs = some (j :: js, rest) := by
  simp [elements, read, comma, more]

/-- The last field stands before the closing brace. -/
theorem fields_last (named : stringTail n cs = some (some key, ':' :: left))
    (read : value n left = some (j, left')) (closed : skipSpace left' = '\x7d' :: rest) :
    fields (n + 1) ('"' :: cs) = some ([(some key, j)], rest) := by
  simp [fields, skipSpace_cons, isSpace, named, read, closed]

/-- Any other stands before a comma. -/
theorem fields_more (named : stringTail n cs = some (some key, ':' :: left))
    (read : value n left = some (j, left')) (comma : skipSpace left' = ',' :: space)
    (more : fields n space = some (fs, rest)) :
    fields (n + 1) ('"' :: cs) = some ((some key, j) :: fs, rest) := by
  simp [fields, skipSpace_cons, isSpace, named, read, comma, more]

/-- An array is opened, read and closed. -/
theorem value_array (first : skipSpace cs = c :: left) (other : c ≠ ']')
    (read : elements n (c :: left) = some (js, rest)) :
    value (n + 1) ('[' :: cs) = some (.array js, rest) := by
  rw [value, skipSpace_cons rfl]
  simp only [first]
  split
  · rename_i eq
    exact absurd (List.cons.inj eq).1 other
  · rw [read]
    rfl

/-- So is an object. -/
theorem value_object (first : skipSpace cs = '"' :: left)
    (read : fields n ('"' :: left) = some (fs, rest)) :
    value (n + 1) ('\x7b' :: cs) = some (ofFields fs, rest) := by
  simp [value, skipSpace_cons, isSpace, first, read]

end Steps

/-! ## Reading back -/

/-- **Elements that are read back one by one are read back together.** -/
theorem elements_elementsText (level : Nat) (rest : List Char)
    (hspace : space.all isSpace = true) (j : Json) (js : List Json)
    (h : ∀ e ∈ j :: js, ReadsText layout e) (enough : (j.textAt layout level).toList.length +
      (elementsText layout level js).toList.length ≤ n) :
    elements (n + 1) ((j.textAt layout level).toList ++
        ((elementsText layout level js).toList ++ (space ++ ']' :: rest)))
      = some (j :: js, rest) := by
  induction js generalizing j n with
  | nil =>
    refine elements_last (h j List.mem_cons_self level n _ (by omega)) ?_
    rw [elementsText, String.toList_empty, List.nil_append, skipSpace_append hspace,
      skipSpace_cons rfl]
  | cons j' js ih =>
    rw [toList_elementsText_cons, List.length_cons, List.length_append, List.length_append]
      at enough
    obtain ⟨n, rfl⟩ : ∃ m, n = m + 1 := ⟨n - 1, by omega⟩
    have more := ih j' (fun e he => h e (List.mem_cons_of_mem j he)) (n := n) (by omega)
    rw [toList_elementsText_cons, List.cons_append, List.append_assoc, List.append_assoc]
    refine elements_more (h j List.mem_cons_self level _ _ (by omega)) (skipSpace_cons rfl) ?_
    rw [elements_append (layout.isSpace_line level)]
    exact more

/-- A field whose key has a text. -/
def namedField (field : String × Json) : Option String × Json := (some field.1, field.2)

/-- Fields whose names were all readable make the object again. -/
theorem ofFields_map (fs : List (String × Json)) : ofFields (fs.map namedField) = .object fs := by
  have named : (fs.map namedField).mapM (fun field => field.1.map (·, field.2)) = some fs := by
    induction fs with
    | nil => rfl
    | cons field fs ih => simp [namedField, ih]
  simp only [ofFields, named]

/-- **Fields that are read back one by one are read back together.** -/
theorem fields_fieldsText (level : Nat) (rest : List Char)
    (hspace : space.all isSpace = true) (key : String) (j : Json) (fs : List (String × Json))
    (h : ∀ f ∈ (key, j) :: fs, ReadsText layout f.2)
    (enough : (quote key).toList.length + (j.textAt layout level).toList.length +
      (fieldsText layout level fs).toList.length ≤ n) :
    fields (n + 1) ((quote key).toList ++ ':' :: (layout.gap.toList ++
        ((j.textAt layout level).toList ++ ((fieldsText layout level fs).toList ++
          (space ++ '\x7d' :: rest))))) = some (((key, j) :: fs).map namedField, rest) := by
  have read : ReadsText layout j := h (key, j) List.mem_cons_self
  induction fs generalizing key j n with
  | nil =>
    rw [toList_quote, List.cons_append, List.append_assoc, List.singleton_append]
    refine fields_last (stringTail_quote key _ (by omega))
      ((value_append layout.isSpace_gap).trans (read level n _ (by omega))) ?_
    rw [fieldsText, String.toList_empty, List.nil_append, skipSpace_append hspace,
      skipSpace_cons rfl]
  | cons field fs ih =>
    obtain ⟨key', j'⟩ := field
    simp only [toList_fieldsText_cons, List.length_cons, List.length_append] at enough
    obtain ⟨n, rfl⟩ : ∃ m, n = m + 1 := ⟨n - 1, by omega⟩
    have fields := fun f hf => h f (List.mem_cons_of_mem _ hf)
    have more := ih key' j' fields (n := n) (by omega) (fields _ List.mem_cons_self)
    rw [toList_quote, List.cons_append, List.append_assoc, List.singleton_append,
      toList_fieldsText_cons]
    refine fields_more (stringTail_quote key _ (by omega))
      ((value_append layout.isSpace_gap).trans (read level _ _ (by omega))) (skipSpace_cons rfl) ?_
    simp only [List.append_eq, List.append_assoc, List.cons_append]
    rw [fields_append (layout.isSpace_line level)]
    exact more

theorem value_null : value (n + 1) ("null".toList ++ rest) = some (.null, rest) := by
  simp [value, skipSpace_cons, isSpace, word]

/-- The two truth values are read back. -/
theorem value_bool (b : Bool) :
    value (n + 1) ((if b then "true" else "false").toList ++ rest) = some (.bool b, rest) := by
  cases b <;> simp [value, skipSpace_cons, isSpace, word]

/-- An array is read back from its text if its elements are. -/
theorem readsText_array {js : List Json} (textual : ∀ j ∈ js, j.Textual)
    (h : ∀ j ∈ js, ReadsText layout j) : ReadsText layout (.array js) := by
  intro level n rest enough
  rcases js with _ | ⟨j, js⟩
  · obtain ⟨n, rfl⟩ : ∃ m, n = m + 1 := ⟨n - 1, by simp [textAt] at enough; omega⟩
    simp [textAt, value, skipSpace_cons, isSpace]
  · rw [toList_textAt_array] at enough ⊢
    simp only [List.length_cons, List.length_append, List.length_nil] at enough
    obtain ⟨n, rfl⟩ : ∃ m, n = m + 2 := ⟨n - 2, by omega⟩
    obtain ⟨c, cs, eq, solid, other⟩ :=
      (textual j List.mem_cons_self).exists_cons layout (level + 1)
    have read := elements_elementsText (level + 1) rest (layout.isSpace_line level) j js h
      (n := n) (by omega)
    simp only [List.cons_append, List.append_assoc, List.nil_append]
    rw [eq, List.cons_append] at read ⊢
    refine value_array ?_ other read
    rw [skipSpace_append (layout.isSpace_line (level + 1)), skipSpace_cons solid]

/-- An object is read back from its text if its values are. -/
theorem readsText_object {fs : List (String × Json)} (h : ∀ f ∈ fs, ReadsText layout f.2) :
    ReadsText layout (.object fs) := by
  intro level n rest enough
  rcases fs with _ | ⟨⟨key, j⟩, fs⟩
  · obtain ⟨n, rfl⟩ : ∃ m, n = m + 1 := ⟨n - 1, by simp [textAt] at enough; omega⟩
    simp [textAt, value, skipSpace_cons, isSpace]
  · rw [toList_textAt_object] at enough ⊢
    simp only [List.length_cons, List.length_append, List.length_nil] at enough
    obtain ⟨n, rfl⟩ : ∃ m, n = m + 2 := ⟨n - 2, by omega⟩
    have read := fields_fieldsText (level + 1) rest (layout.isSpace_line level) key j fs h
      (n := n) (by omega)
    simp only [List.cons_append, List.append_assoc, List.nil_append]
    rw [toList_quote, List.cons_append] at read ⊢
    rw [← ofFields_map]
    refine value_object ?_ read
    rw [skipSpace_append (layout.isSpace_line (level + 1)), skipSpace_cons rfl]

/-- **A value without numbers is read back from its text.** -/
theorem Textual.readsText {j : Json} (h : j.Textual) (layout : Layout) : ReadsText layout j := by
  induction h with
  | null =>
    rintro level (_ | n) rest enough
    · simp [textAt] at enough
    · exact value_null
  | bool b =>
    rintro level (_ | n) rest enough
    · cases b <;> simp [textAt] at enough
    · exact value_bool b
  | string s =>
    rintro level (_ | n) rest enough
    · simp [textAt, toList_quote] at enough
    · have read := stringTail_quote s rest enough
      simp [textAt, toList_quote, value, skipSpace_cons, isSpace, read, ofText]
  | array textual ih => exact readsText_array textual ih
  | object _ ih => exact readsText_object ih

/-- **Reading undoes writing**, however the text is laid out. -/
theorem parse?_textAt {j : Json} (h : j.Textual) (layout : Layout) :
    parse? (j.textAt layout 0) = some j := by
  have read := h.readsText layout 0 (2 * (j.textAt layout 0).toList.length + 2) [] (by omega)
  rw [List.append_nil] at read
  simp [parse?, read, skipSpace]

/-! ## The forms of selectors -/

@[simp] theorem textual_null : Textual .null := .null

@[simp] theorem textual_bool (b : Bool) : Textual (.bool b) := .bool b

@[simp] theorem textual_string (s : String) : Textual (.string s) := .string s

/-- An array is textual when its elements are. -/
@[simp] theorem textual_array {elements : List Json} :
    (array elements).Textual ↔ ∀ j ∈ elements, j.Textual := by
  refine ⟨fun h => ?_, .array⟩
  cases h with
  | array h => exact h

/-- An object is textual when its values are. -/
@[simp] theorem textual_object {fields : List (String × Json)} :
    (object fields).Textual ↔ ∀ field ∈ fields, field.2.Textual := by
  refine ⟨fun h => ?_, .object⟩
  cases h with
  | object h => exact h

/-- An optional part is textual when the part is. -/
theorem textual_ofOption {α : Type} {form : α → Json} (h : ∀ a, (form a).Textual)
    (o : Option α) : (ofOption (o.map form)).Textual := by
  cases o with
  | none => exact .null
  | some a => exact h a

end Json

open Json

@[simp] theorem textual_textToJson (text : Option String) : (textToJson text).Textual :=
  textual_ofOption textual_string text

/-- No form of a namespace has a number in it. -/
theorem Namespace.textual_toJson (ns : Namespace) : ns.toJson.Textual := by
  cases ns <;> simp [toJson]

@[simp] theorem textual_namespace (ns : Option Namespace) :
    (ofOption (ns.map Namespace.toJson)).Textual :=
  textual_ofOption Namespace.textual_toJson ns

@[simp] theorem QualifiedName.textual_toJson (q : QualifiedName) : q.toJson.Textual := by
  simp [toJson]

/-- No form of an attribute condition has a number in it. -/
@[simp] theorem Attribute.textual_toJson (a : Attribute) : a.toJson.Textual := by
  simp [toJson, textual_ofOption]

mutual

/-- No form of a selector has a number in it, so all of them can be written as text; by recursion
over the selector. -/
theorem Simple.textual_toJson : ∀ s : Simple, s.toJson.Textual
  | .universal _ | .type _ | .className _ | .idName _ | .attr _ | .placeholder _ | .parent _ => by
    simp [Simple.toJson]
  | .pseudo ⟨_, _, none⟩ => by simp [Simple.toJson]
  | .pseudo ⟨_, _, some l⟩ => by simpa [Simple.toJson] using textual_elementsOfList l

theorem textual_elementsOfCompound : ∀ c : List Simple, ∀ j ∈ elementsOfCompound c, j.Textual
  | [] => by simp [elementsOfCompound]
  | s :: rest => by
    simpa [elementsOfCompound] using ⟨s.textual_toJson, textual_elementsOfCompound rest⟩

theorem textual_elementsOfItems : ∀ items : List Item, ∀ j ∈ elementsOfItems items, j.Textual
  | [] => by simp [elementsOfItems]
  | .compound c :: rest => by
    simpa [elementsOfItems] using ⟨textual_elementsOfCompound c, textual_elementsOfItems rest⟩
  | .combinator _ :: rest => by simpa [elementsOfItems] using textual_elementsOfItems rest

theorem textual_elementsOfList : ∀ l : List Complex, ∀ j ∈ elementsOfList l, j.Textual
  | [] => by simp [elementsOfList]
  | ⟨items, _⟩ :: rest => by
    simpa [elementsOfList] using ⟨textual_elementsOfItems items, textual_elementsOfList rest⟩

end

/-- The case the texts need. -/
theorem SelectorList.textual_toJson (l : SelectorList) : l.toJson.Textual :=
  .array (textual_elementsOfList l)

/-! ## Texts of selectors -/

/-- The texts of JSON, laid out in some way. -/
def Json.texts (layout : Layout) : TextFormat Json where
  print j := j.textAt layout 0
  read := SelectorList.ofText?
  depth := Json.nesting
  limit := operandNesting

/-- Reading a text of a list: the text gives the form back, and what is read is kept if it is not
too deep. -/
theorem SelectorList.ofText?_textAt {l l' : SelectorList}
    (read : SelectorList.ofJson l.toJson = .ok l') (layout : Layout) :
    SelectorList.ofText? (l.toJson.textAt layout 0) =
      if l'.toJson.nesting ≤ operandNesting then some l' else none := by
  rw [ofText?, parse?_textAt l.textual_toJson layout, Option.bind_some, read]

theorem Namespace.nesting_ofOption_le (ns : Option Namespace) :
    (ofOption (ns.map Namespace.toJson)).nesting ≤ 1 := by
  rcases ns with _ | _ | _ | label <;> simp [ofOption, toJson, Json.nesting, nestingOfFields]

@[simp] theorem nesting_textToJson (text : Option String) : (textToJson text).nesting = 0 := by
  cases text <;> rfl

theorem QualifiedName.nesting_toJson_le (q : QualifiedName) : q.toJson.nesting ≤ 2 := by
  have ns := Namespace.nesting_ofOption_le q.ns
  simp only [toJson, Json.nesting, nestingOfFields]
  omega

theorem Attribute.nesting_toJson_le (a : Attribute) : a.toJson.nesting ≤ 3 := by
  have name := a.name.nesting_toJson_le
  have operator : (ofOption (a.operator.map fun op => .string op.label)).nesting = 0 := by
    cases a.operator <;> rfl
  simp only [toJson, Json.nesting, nestingOfFields, operator, nesting_textToJson]
  omega

mutual

/-- An argument adds seven levels to the form, and the rest of a condition at most four; by
recursion over the selector. -/
theorem Simple.nesting_toJson_le : ∀ s : Simple, s.toJson.nesting ≤ 7 * s.nesting + 4
  | .universal ns => by
    have := Namespace.nesting_ofOption_le ns
    simp only [Simple.toJson, Json.nesting, nestingOfFields]
    omega
  | .type name => by
    have := name.nesting_toJson_le
    simp only [Simple.toJson, Json.nesting, nestingOfFields]
    omega
  | .attr a => by
    have := a.nesting_toJson_le
    simp only [Simple.toJson, Json.nesting, nestingOfFields]
    omega
  | .className _ | .idName _ | .placeholder _ | .parent _ | .pseudo ⟨_, _, none⟩ => by
    simp [Simple.toJson, Json.nesting, nestingOfFields]
  | .pseudo ⟨_, _, some l⟩ => by
    have := nesting_elementsOfList_le l
    simp only [Simple.toJson, Simple.nesting, Json.nesting, nestingOfFields, nesting_textToJson]
    omega

theorem nesting_elementsOfCompound_le : ∀ c : List Simple,
    nestingOfElements (elementsOfCompound c) ≤ 7 * nestingOfCompound c + 4
  | [] => Nat.zero_le _
  | s :: rest => by
    have first := s.nesting_toJson_le
    have others := nesting_elementsOfCompound_le rest
    simp only [elementsOfCompound, nestingOfElements, nestingOfCompound]
    omega

/-- A row adds the levels of its variants and arrays. -/
theorem nesting_elementsOfItems_le : ∀ items : List Item,
    nestingOfElements (elementsOfItems items) ≤ 7 * nestingOfItems items + 6
  | [] => Nat.zero_le _
  | .compound c :: rest => by
    have first := nesting_elementsOfCompound_le c
    have others := nesting_elementsOfItems_le rest
    simp only [elementsOfItems, nestingOfElements, nestingOfItems, Json.nesting, nestingOfFields]
    omega
  | .combinator _ :: rest => by
    have others := nesting_elementsOfItems_le rest
    simp only [elementsOfItems, nestingOfElements, nestingOfItems, Json.nesting, nestingOfFields]
    omega

/-- A list adds the level of each choice's object. -/
theorem nesting_elementsOfList_le : ∀ l : List Complex,
    nestingOfElements (elementsOfList l) ≤ 7 * nestingOfList l + 8
  | [] => Nat.zero_le _
  | ⟨items, _⟩ :: rest => by
    have first := nesting_elementsOfItems_le items
    have others := nesting_elementsOfList_le rest
    simp only [elementsOfList, nestingOfElements, nestingOfList, Json.nesting, nestingOfFields]
    omega

end

/-- **Every level of arguments takes seven arrays and objects at most**, and all else nine. -/
theorem SelectorList.nesting_toJson_le (l : SelectorList) :
    l.toJson.nesting ≤ 7 * l.nesting + 9 :=
  Nat.succ_le_succ (nesting_elementsOfList_le l)

/-- **Whole lists with up to sixteen levels of arguments are read back from their texts.** -/
theorem SelectorList.ofText?_of_nesting_le {l : SelectorList} (whole : l.isWhole = true)
    (shallow : l.nesting ≤ 16) (layout : Layout) :
    SelectorList.ofText? (l.toJson.textAt layout 0) = some l := by
  have fits : l.toJson.nesting ≤ operandNesting := by
    have form := l.nesting_toJson_le
    rw [operandNesting]
    omega
  exact (ofText?_textAt (ofJson_toJson whole) layout).trans (if_pos fits)

/-! ## Storing and reading back -/

end SelectorAlgebra
