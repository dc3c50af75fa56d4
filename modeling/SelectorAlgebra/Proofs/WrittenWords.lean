import SelectorAlgebra.Selector.Text

/-!
# Proofs/WrittenWords — telling words apart in a text

A text is read from the left, so a part of it can be told from what follows if what follows cannot
be taken for more of the same part.  For the parts of a selector that hold no other selector:

* `word_cancel` — a word ends where a character follows that no name has;
* `qualified_cancel` — a name with its namespace, unless a bar follows that could belong to it;
* `attribute_cancel` — an attribute selector ends with its bracket, whatever its value holds.

Each says that two equal texts have equal parts and equal rests.
-/

namespace SelectorAlgebra

open Text

/-! ## Words -/

/-- Whether a name can be written bare: it is not empty and all its characters are name
characters. -/
def Text.isCleanName (name : String) : Bool := !name.toList.isEmpty && name.toList.all isNameChar

/-- No name goes on here. -/
def EndsWord (r : List Char) : Prop := ∀ c ∈ r.head?, isNameChar c = false

/-- A row of name characters, and at least one. -/
def IsWord (w : List Char) : Prop := w ≠ [] ∧ ∀ c ∈ w, isNameChar c = true

/-- A clean name is a word. -/
theorem isWord_of_isCleanName {name : String} (h : isCleanName name = true) :
    IsWord name.toList := by
  simpa [isCleanName, IsWord] using h

theorem endsWord_cons {c : Char} {r : List Char} (h : isNameChar c = false) :
    EndsWord (c :: r) := by
  rintro _ ⟨⟩
  exact h

section Words

variable {w₁ w₂ r₁ r₂ : List Char}

/-- Words that end where they stop are equal when the texts are. -/
theorem word_cancel (h₁ : ∀ c ∈ w₁, isNameChar c = true) (h₂ : ∀ c ∈ w₂, isNameChar c = true)
    (e₁ : EndsWord r₁) (e₂ : EndsWord r₂) (same : w₁ ++ r₁ = w₂ ++ r₂) : w₁ = w₂ ∧ r₁ = r₂ := by
  induction w₁ generalizing w₂ with
  | nil =>
    cases w₂ with
    | nil => exact ⟨rfl, same⟩
    | cons c w₂ =>
      obtain rfl : r₁ = c :: (w₂ ++ r₂) := same
      have name := h₂ c List.mem_cons_self
      rw [e₁ c rfl] at name
      cases name
  | cons c w₁ ih =>
    rw [List.forall_mem_cons] at h₁
    cases w₂ with
    | nil =>
      obtain rfl : c :: (w₁ ++ r₁) = r₂ := same
      have name := h₁.1
      rw [e₂ c rfl] at name
      cases name
    | cons d w₂ =>
      rw [List.forall_mem_cons] at h₂
      obtain ⟨rfl, tails⟩ := List.cons.inj same
      obtain ⟨rfl, rest⟩ := ih h₁.2 h₂.2 tails
      exact ⟨rfl, rest⟩

end Words

/-! ## Values of attributes -/

theorem isWord_of_isIdentifier {value : String} (h : isIdentifier value = true) :
    IsWord value.toList := by
  have body : ∀ cs, isIdentifierBody cs = true → IsWord cs := by
    rintro (_ | ⟨c, cs⟩) h
    · cases h
    · simp only [isIdentifierBody, Bool.and_eq_true, Bool.or_eq_true, beq_iff_eq,
        List.all_eq_true] at h
      refine ⟨List.cons_ne_nil c cs, List.forall_mem_cons.2 ⟨?_, h.2⟩⟩
      rcases h.1 with rfl | start
      · rfl
      · simp [isNameChar, start]
  unfold isIdentifier at h
  split at h
  · rename_i rest eq
    rw [eq]
    exact ⟨List.cons_ne_nil _ _, List.forall_mem_cons.2 ⟨rfl, (body rest h).2⟩⟩
  · exact body _ h

/-- Quoted values that are written alike are equal; the induction is on both. -/
theorem escapeQuoted_cancel : ∀ {cs₁ cs₂ r₁ r₂ : List Char},
    escapeQuoted cs₁ ++ '"' :: r₁ = escapeQuoted cs₂ ++ '"' :: r₂ → cs₁ = cs₂ ∧ r₁ = r₂
  | [], [], r₁, r₂, same => ⟨rfl, (List.cons.inj same).2⟩
  | [], c :: cs₂, r₁, r₂, same => by
    simp only [escapeQuoted] at same
    split at same
    · cases (List.cons.inj same).1
    · rename_i plain
      exact absurd (.inl (List.cons.inj same).1.symm) plain
  | c :: cs₁, [], r₁, r₂, same => by
    simp only [escapeQuoted] at same
    split at same
    · cases (List.cons.inj same).1
    · rename_i plain
      exact absurd (.inl (List.cons.inj same).1) plain
  | c :: cs₁, d :: cs₂, r₁, r₂, same => by
    simp only [escapeQuoted] at same
    split at same <;> split at same
    · obtain ⟨-, escaped⟩ := List.cons.inj same
      obtain ⟨rfl, tails⟩ := List.cons.inj escaped
      obtain ⟨rfl, rest⟩ := escapeQuoted_cancel tails
      exact ⟨rfl, rest⟩
    · rename_i plain
      exact absurd (.inr (List.cons.inj same).1.symm) plain
    · rename_i plain _
      exact absurd (.inr (List.cons.inj same).1) plain
    · obtain ⟨rfl, tails⟩ := List.cons.inj same
      obtain ⟨rfl, rest⟩ := escapeQuoted_cancel tails
      exact ⟨rfl, rest⟩

/-- A bare value does not begin like a quoted one. -/
theorem word_ne_quoted {w cs r₁ r₂ : List Char} (h : IsWord w) : w ++ r₁ ≠ '"' :: cs ++ r₂ := by
  intro same
  obtain ⟨c, w, rfl⟩ := List.exists_cons_of_ne_nil h.1
  obtain ⟨rfl, -⟩ := List.cons.inj same
  have name : isNameChar '"' = true := h.2 _ List.mem_cons_self
  revert name
  decide

/-- Values are told apart by their texts, quoted or not. -/
theorem value_cancel {v₁ v₂ : String} {r₁ r₂ : List Char} (e₁ : EndsWord r₁) (e₂ : EndsWord r₂)
    (same : (attributeValueText v₁).toList ++ r₁ = (attributeValueText v₂).toList ++ r₂) :
    v₁ = v₂ ∧ r₁ = r₂ := by
  unfold attributeValueText at same
  split at same <;> split at same
  · rename_i h₁ h₂
    obtain ⟨word, rest⟩ :=
      word_cancel (isWord_of_isIdentifier h₁).2 (isWord_of_isIdentifier h₂).2 e₁ e₂ same
    exact ⟨String.toList_inj.1 word, rest⟩
  · rename_i h₁ _
    rw [quoted, String.toList_ofList] at same
    exact absurd same (word_ne_quoted (isWord_of_isIdentifier h₁))
  · rename_i h₂
    rw [quoted, String.toList_ofList] at same
    exact absurd same.symm (word_ne_quoted (isWord_of_isIdentifier h₂))
  · rw [quoted, quoted, String.toList_ofList, String.toList_ofList] at same
    simp only [List.cons_append, List.append_assoc, List.nil_append] at same
    obtain ⟨value, rest⟩ := escapeQuoted_cancel (List.cons.inj same).2
    exact ⟨String.toList_inj.1 value, rest⟩

/-! ## Names behind a namespace -/

/-- The label of a namespace, before its bar. -/
def Namespace.label : Namespace → List Char
  | .any => ['*']
  | .empty => []
  | .named label => label.toList

/-- Whether the label, if it is a name, can be written bare. -/
def Namespace.isClean : Namespace → Bool
  | .named label => isCleanName label
  | _ => true

theorem Namespace.toList_text (ns : Namespace) : ns.text.toList = ns.label ++ ['|'] := by
  cases ns <;> simp [text, label]

/-- A star, or name characters. -/
def IsPiece (p : List Char) : Prop := p = ['*'] ∨ ∀ c ∈ p, isNameChar c = true

theorem Namespace.isPiece_label {ns : Namespace} (h : ns.isClean = true) : IsPiece ns.label := by
  cases ns with
  | any => exact .inl rfl
  | empty => exact .inr nofun
  | named label => exact .inr (isWord_of_isCleanName h).2

/-- Clean namespaces are told apart by their labels. -/
theorem Namespace.label_injective {ns₁ ns₂ : Namespace} (h₁ : ns₁.isClean = true)
    (h₂ : ns₂.isClean = true) (same : ns₁.label = ns₂.label) : ns₁ = ns₂ := by
  have star : ∀ {label : String}, isCleanName label = true → label.toList ≠ ['*'] := by
    intro label clean eq
    have name := (isWord_of_isCleanName clean).2 '*' (by simp [eq])
    revert name
    decide
  cases ns₁ <;> cases ns₂
  case any.any | empty.empty => rfl
  case any.empty | empty.any => cases same
  case any.named => exact absurd same.symm (star h₂)
  case named.any => exact absurd same (star h₁)
  case empty.named => exact absurd same.symm (isWord_of_isCleanName h₂).1
  case named.empty => exact absurd same (isWord_of_isCleanName h₁).1
  case named.named => exact congrArg named (String.toList_inj.1 same)

/-- A local name or the star in its place. -/
def IsLocal (n : List Char) : Prop := n = ['*'] ∨ IsWord n

/-- The piece does not go on here: no name does, and no star stands in place of a missing piece. -/
def EndsPiece (p r : List Char) : Prop := EndsWord r ∧ (p = [] → r.head? ≠ some '*')

/-- No name goes on here, and no bar that would make the name before it a namespace. -/
def EndsName (r : List Char) : Prop :=
  EndsWord r ∧ ∀ n r', IsLocal n → r ≠ '|' :: (n ++ r')

/-- `*` does not begin a word. -/
theorem star_ne_word {w r₁ r₂ : List Char} (h : ∀ c ∈ w, isNameChar c = true) (e : EndsPiece w r₂) :
    '*' :: r₁ ≠ w ++ r₂ := by
  intro same
  cases w with
  | nil => exact e.2 rfl (by rw [← List.nil_append r₂, ← same]; rfl)
  | cons c w =>
    obtain ⟨rfl, -⟩ := List.cons.inj same
    have name : isNameChar '*' = true := h _ List.mem_cons_self
    revert name
    decide

/-- Pieces are told apart by their texts. -/
theorem piece_cancel {p₁ p₂ r₁ r₂ : List Char} (h₁ : IsPiece p₁) (h₂ : IsPiece p₂)
    (e₁ : EndsPiece p₁ r₁) (e₂ : EndsPiece p₂ r₂) (same : p₁ ++ r₁ = p₂ ++ r₂) :
    p₁ = p₂ ∧ r₁ = r₂ := by
  rcases h₁ with rfl | h₁ <;> rcases h₂ with rfl | h₂
  · exact ⟨rfl, (List.cons.inj same).2⟩
  · exact absurd same (star_ne_word h₂ e₂)
  · exact absurd same.symm (star_ne_word h₁ e₁)
  · exact word_cancel h₁ h₂ e₁.1 e₂.1 same

theorem IsLocal.isPiece {n : List Char} (h : IsLocal n) : IsPiece n :=
  h.imp_right And.right

/-- A name ends where no character of a name follows. -/
theorem IsLocal.endsPiece {n r : List Char} (h : IsLocal n) (e : EndsWord r) : EndsPiece n r := by
  refine ⟨e, ?_⟩
  rintro rfl
  rcases h with h | h
  · cases h
  · exact absurd rfl h.1

theorem endsPiece_bar (p r : List Char) : EndsPiece p ('|' :: r) :=
  ⟨endsWord_cons (by decide), fun _ => by simp⟩

section Qualified

variable {ns₁ ns₂ : Option Namespace} {n₁ n₂ r₁ r₂ : List Char}

/-- Without a namespace the text goes on behind the name; with one, the bar and the name come. -/
theorem qualified_ne {ns : Namespace} (clean : ns.isClean = true) (h₁ : IsLocal n₁)
    (h₂ : IsLocal n₂) (e₁ : EndsName r₁) : n₁ ++ r₁ ≠ ns.text.toList ++ (n₂ ++ r₂) := by
  intro same
  rw [Namespace.toList_text, List.append_assoc] at same
  obtain ⟨-, rest⟩ := piece_cancel h₁.isPiece (Namespace.isPiece_label clean) (h₁.endsPiece e₁.1)
    (endsPiece_bar _ _) same
  exact e₁.2 n₂ r₂ h₂ rest

/-- **A qualified name can be told from what follows.** -/
theorem qualified_cancel (clean₁ : ns₁.all Namespace.isClean = true)
    (clean₂ : ns₂.all Namespace.isClean = true) (h₁ : IsLocal n₁) (h₂ : IsLocal n₂)
    (e₁ : EndsName r₁) (e₂ : EndsName r₂)
    (same : (namespaceText ns₁).toList ++ (n₁ ++ r₁) = (namespaceText ns₂).toList ++ (n₂ ++ r₂)) :
    ns₁ = ns₂ ∧ n₁ = n₂ ∧ r₁ = r₂ := by
  have names : n₁ ++ r₁ = n₂ ++ r₂ → n₁ = n₂ ∧ r₁ = r₂ :=
    piece_cancel h₁.isPiece h₂.isPiece (h₁.endsPiece e₁.1) (h₂.endsPiece e₂.1)
  cases ns₁ with
  | none =>
    cases ns₂ with
    | none => exact ⟨rfl, names same⟩
    | some ns₂ =>
      have bare : n₁ ++ r₁ = ns₂.text.toList ++ (n₂ ++ r₂) := same
      exact absurd bare (qualified_ne clean₂ h₁ h₂ e₁)
  | some ns₁ =>
    cases ns₂ with
    | none =>
      have bare : n₂ ++ r₂ = ns₁.text.toList ++ (n₁ ++ r₁) := same.symm
      exact absurd bare (qualified_ne clean₁ h₂ h₁ e₂)
    | some ns₂ =>
      simp only [namespaceText, Namespace.toList_text, List.append_assoc] at same
      obtain ⟨label, rest⟩ := piece_cancel (Namespace.isPiece_label clean₁)
        (Namespace.isPiece_label clean₂) (endsPiece_bar _ _) (endsPiece_bar _ _) same
      obtain rfl := Namespace.label_injective clean₁ clean₂ label
      exact ⟨rfl, names (List.cons.inj rest).2⟩

end Qualified

/-! ## Attributes -/

/-- Whether the names of the attribute can be written bare, its operator stands exactly before a
value and its modifier only behind one. -/
def Attribute.isClean (a : Attribute) : Bool :=
  isCleanName a.name.name && a.name.ns.all Namespace.isClean &&
    a.operator.isSome == a.value.isSome && a.modifier.all fun m => a.value.isSome && isCleanName m

/-- The modifier behind its space. -/
def modifierText : Option String → List Char
  | some modifier => ' ' :: modifier.toList
  | none => []

/-- What stands behind the name of an attribute, up to its bracket. -/
inductive AttributeEnd : Attribute → List Char → Prop where
  | present (name : QualifiedName) : AttributeEnd ⟨name, none, none, none⟩ []
  | compared (name : QualifiedName) (operator : AttributeOperator) (value : String)
      (modifier : Option String) (clean : ∀ m, modifier = some m → isCleanName m = true) :
      AttributeEnd ⟨name, some operator, some value, modifier⟩
        (operator.text.toList ++ ((attributeValueText value).toList ++ modifierText modifier))

/-- The text of a clean attribute condition has one of these shapes. -/
theorem attributeEnd_conditionText {a : Attribute} (h : a.isClean = true) :
    AttributeEnd a a.conditionText.toList := by
  obtain ⟨name, operator, value, modifier⟩ := a
  simp only [Attribute.isClean, Bool.and_eq_true] at h
  obtain ⟨⟨⟨-, -⟩, both⟩, clean⟩ := h
  cases operator with
  | none =>
    cases value with
    | some => cases both
    | none =>
      cases modifier with
      | none => exact .present name
      | some => cases clean
  | some operator =>
    cases value with
    | none => cases both
    | some value =>
      have text : (Attribute.conditionText ⟨name, some operator, some value, modifier⟩).toList =
          operator.text.toList ++ ((attributeValueText value).toList ++ modifierText modifier) := by
        cases modifier <;> simp [Attribute.conditionText, modifierText]
      rw [text]
      refine .compared name operator value modifier ?_
      rintro m rfl
      simpa using clean

/-- Operators are told apart by their texts. -/
theorem operator_cancel {o₁ o₂ : AttributeOperator} {r₁ r₂ : List Char}
    (same : o₁.text.toList ++ r₁ = o₂.text.toList ++ r₂) : o₁ = o₂ ∧ r₁ = r₂ := by
  cases o₁ <;> cases o₂ <;> simp_all [AttributeOperator.text]

/-- So are modifiers before the closing bracket. -/
theorem modifier_cancel {m₁ m₂ : Option String} {r₁ r₂ : List Char}
    (clean₁ : ∀ m, m₁ = some m → isCleanName m = true)
    (clean₂ : ∀ m, m₂ = some m → isCleanName m = true)
    (same : modifierText m₁ ++ ']' :: r₁ = modifierText m₂ ++ ']' :: r₂) : m₁ = m₂ ∧ r₁ = r₂ := by
  cases m₁ with
  | none =>
    cases m₂ with
    | none => exact ⟨rfl, (List.cons.inj same).2⟩
    | some m₂ => cases (List.cons.inj same).1
  | some m₁ =>
    cases m₂ with
    | none => cases (List.cons.inj same).1
    | some m₂ =>
      have ends : ∀ r, EndsWord (']' :: r) := fun r => endsWord_cons (by decide)
      obtain ⟨word, rest⟩ := word_cancel (isWord_of_isCleanName (clean₁ m₁ rfl)).2
        (isWord_of_isCleanName (clean₂ m₂ rfl)).2 (ends _) (ends _) (List.cons.inj same).2
      exact ⟨congrArg some (String.toList_inj.1 word), (List.cons.inj rest).2⟩

theorem endsWord_modifierText (m : Option String) (r : List Char) :
    EndsWord (modifierText m ++ ']' :: r) := by
  cases m <;> exact endsWord_cons (by decide)

/-- What follows an attribute's name: a bracket, or an operator, which is no bar before a name. -/
theorem AttributeEnd.endsName {a : Attribute} {t : List Char} (h : AttributeEnd a t)
    (r : List Char) :
    EndsName (t ++ ']' :: r) := by
  have bar : ∀ {n r' s : List Char}, IsLocal n → n ++ r' ≠ '=' :: s := by
    rintro n r' s (rfl | h) same
    · cases (List.cons.inj same).1
    · obtain ⟨c, n, rfl⟩ := List.exists_cons_of_ne_nil h.1
      obtain ⟨rfl, -⟩ := List.cons.inj same
      have name : isNameChar '=' = true := h.2 _ List.mem_cons_self
      revert name
      decide
  cases h with
  | present => exact ⟨endsWord_cons (by decide), fun n r' _ same => by cases (List.cons.inj same).1⟩
  | compared name operator value modifier =>
    cases operator with
    | dashMatch =>
      exact ⟨endsWord_cons (by decide), fun n r' h same => bar h (List.cons.inj same).2.symm⟩
    | _ => exact ⟨endsWord_cons (by decide), fun n r' _ same => by cases (List.cons.inj same).1⟩

/-- The ends of attribute conditions of one name are told apart by their texts. -/
theorem attributeEnd_cancel {a₁ a₂ : Attribute} {t₁ t₂ r₁ r₂ : List Char} (h₁ : AttributeEnd a₁ t₁)
    (h₂ : AttributeEnd a₂ t₂) (names : a₁.name = a₂.name)
    (same : t₁ ++ ']' :: r₁ = t₂ ++ ']' :: r₂) :
    a₁ = a₂ ∧ r₁ = r₂ := by
  cases h₁ with
  | present =>
    cases h₂ with
    | present =>
      obtain rfl := names
      exact ⟨rfl, (List.cons.inj same).2⟩
    | compared _ operator => cases operator <;> cases (List.cons.inj same).1
  | compared _ operator value modifier clean₁ =>
    cases h₂ with
    | present => cases operator <;> cases (List.cons.inj same).1
    | compared _ _ _ _ clean₂ =>
      obtain rfl := names
      simp only [List.append_assoc] at same
      obtain ⟨rfl, values⟩ := operator_cancel same
      obtain ⟨rfl, modifiers⟩ :=
        value_cancel (endsWord_modifierText _ _) (endsWord_modifierText _ _) values
      obtain ⟨rfl, rest⟩ := modifier_cancel clean₁ clean₂ modifiers
      exact ⟨rfl, rest⟩

/-- **An attribute selector can be told from whatever follows.** -/
theorem attribute_cancel {a₁ a₂ : Attribute} {r₁ r₂ : List Char} (h₁ : a₁.isClean = true)
    (h₂ : a₂.isClean = true) (same : a₁.text.toList ++ r₁ = a₂.text.toList ++ r₂) :
    a₁ = a₂ ∧ r₁ = r₂ := by
  have text : ∀ (a : Attribute) (r : List Char), a.text.toList ++ r = '[' ::
      ((namespaceText a.name.ns).toList ++
        (a.name.name.toList ++ (a.conditionText.toList ++ ']' :: r))) := by
    intro a r
    simp [Attribute.text, QualifiedName.text]
  have names : ∀ {a : Attribute}, a.isClean = true →
      isCleanName a.name.name = true ∧ a.name.ns.all Namespace.isClean = true := by
    intro a h
    simp only [Attribute.isClean, Bool.and_eq_true] at h
    exact h.1.1
  have end₁ := attributeEnd_conditionText h₁
  have end₂ := attributeEnd_conditionText h₂
  rw [text, text] at same
  obtain ⟨ns, name, rest⟩ := qualified_cancel (names h₁).2 (names h₂).2
    (.inr (isWord_of_isCleanName (names h₁).1)) (.inr (isWord_of_isCleanName (names h₂).1))
    (end₁.endsName r₁) (end₂.endsName r₂) (List.cons.inj same).2
  refine attributeEnd_cancel end₁ end₂ ?_ rest
  cases hq₁ : a₁.name
  cases hq₂ : a₂.name
  rw [hq₁, hq₂] at ns name
  rw [QualifiedName.mk.injEq]
  exact ⟨String.toList_inj.1 name, ns⟩

end SelectorAlgebra
