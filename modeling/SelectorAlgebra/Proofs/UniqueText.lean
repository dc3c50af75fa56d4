import SelectorAlgebra.Proofs.Occurrence
import SelectorAlgebra.Proofs.SoundSelectors
import SelectorAlgebra.Proofs.CanonicalForms
import SelectorAlgebra.Proofs.WholeSelectors
import SelectorAlgebra.Proofs.WrittenWords

/-!
# Proofs/UniqueText — a selector is determined by its text

A list is **clean** if its names can be written bare, nothing in it is empty, and a name of the
element itself stands first in its compound.  Then

* `text_injective` — two clean lists with one text are equivalent.

The engine is cancellation: on every level, two equal texts that begin with a selector of that level
begin with equivalent ones and go on the same way, if what follows begins with a sign that cannot
continue the selector.  A level's own separators are among the signs of the level below, and a
closing parenthesis is among all of them, so arguments cancel like whole lists; the levels are tied
together by induction on the depth of arguments.
-/

namespace SelectorAlgebra

open Text

/-! ## Clean selectors -/

/-- Whether the names of the condition itself can be written bare, and it has no text argument. -/
def Simple.isClean : Simple → Bool
  | .universal ns => ns.all Namespace.isClean
  | .type name => isCleanName name.name && name.ns.all Namespace.isClean
  | .className name => isCleanName name
  | .idName name => isCleanName name
  | .attr a => a.isClean
  | .placeholder name => isCleanName name
  | .parent suffix => suffix.all isCleanName
  | .pseudo p => isCleanName p.name && p.argument.isNone

/-- Whether the condition may stand behind another one: it names neither the element nor `&`. -/
def Simple.isSecondary (s : Simple) : Bool := !(s.isUniversalOrType || s.isParent)

/-- Whether type, universal and parent selectors stand only first. -/
def Compound.namesFirst (c : Compound) : Bool := c.tail.all Simple.isSecondary

/-- Nothing in the list is empty, its names can be written bare, and those of elements come
first. -/
structure SelectorList.IsClean (l : SelectorList) : Prop where
  whole : l.isWhole = true
  names : ∀ s ∈ l.simples, s.isClean = true
  first : ∀ c ∈ compoundsOfList l, Compound.namesFirst c = true

/-- The compound has conditions, all of them good, and names the element only first. -/
structure Compound.IsCleanOver (G : Simple → Prop) (c : Compound) : Prop where
  ne_nil : c ≠ []
  first : c.namesFirst = true
  conditions : ∀ s ∈ c, G s

/-- There are choices, all of them have items, and every compound is clean. -/
structure SelectorList.IsCleanOver (G : Simple → Prop) (l : SelectorList) : Prop where
  ne_nil : l ≠ []
  rows : ∀ c ∈ l, c.items ≠ []
  compounds : ∀ c ∈ l, ∀ d, Item.compound d ∈ c.items → Compound.IsCleanOver G d

/-! ## What may follow -/

/-- The text is over, or goes on with one of the signs. -/
def GoesOnWith (signs r : List Char) : Prop := ∀ c ∈ r.head?, c ∈ signs

/-- What may follow a list: the parenthesis it stands in. -/
def listEnds : List Char := [')']

/-- What may follow a complex selector. -/
def rowEnds : List Char := ',' :: listEnds

/-- What may follow a compound. -/
def compoundEnds : List Char := ' ' :: rowEnds

/-- What a condition that is not the first begins with. -/
def secondarySigns : List Char := ['.', '#', '[', '%', ':']

/-- What may follow a condition. -/
def conditionEnds : List Char := secondarySigns ++ compoundEnds

theorem goesOnWith_cons {c : Char} {signs r : List Char} (h : c ∈ signs) :
    GoesOnWith signs (c :: r) := by
  rintro _ ⟨⟩
  exact h

theorem GoesOnWith.of_subset {signs more r : List Char} (h : GoesOnWith signs r)
    (sub : signs ⊆ more) :
    GoesOnWith more r :=
  fun c hc => sub (h c hc)

/-- After a condition no character of a name follows. -/
theorem GoesOnWith.endsWord {r : List Char} (h : GoesOnWith conditionEnds r) : EndsWord r := by
  have signs : conditionEnds.all (!isNameChar ·) = true := by decide
  intro c hc
  simpa using List.all_eq_true.1 signs c (h c hc)

theorem GoesOnWith.endsName {r : List Char} (h : GoesOnWith conditionEnds r) : EndsName r := by
  refine ⟨h.endsWord, ?_⟩
  rintro n r' - rfl
  have bar := h '|' rfl
  revert bar
  decide

/-! ## Conditions -/

/-- The sign before the name, for a condition that has one. -/
def Simple.sign? : Simple → Option Char
  | .universal _ => none
  | .type _ => none
  | .className _ => some '.'
  | .idName _ => some '#'
  | .attr _ => some '['
  | .placeholder _ => some '%'
  | .parent _ => some '&'
  | .pseudo _ => some ':'

/-- The argument of a pseudo selector in its parentheses. -/
def argumentText : Option SelectorList → List Char
  | none => []
  | some l => '(' :: ((textOfList l).toList ++ [')'])

/-- The characters of a pseudo. -/
theorem Simple.toList_text_pseudo (name : PseudoName) (selector : Option SelectorList) :
    (text (.pseudo ⟨name, none, selector⟩)).toList = ':' ::
      ((if name.doubleColon then [':'] else []) ++
        (name.name.toList ++ argumentText selector)) := by
  cases double : name.doubleColon <;> cases selector <;> simp [text, argumentText, double]

/-- What the name of an element can begin with. -/
def opensElement (c : Char) : Bool := isNameChar c || c == '*' || c == '|'

/-- A condition with a sign begins with it. -/
theorem Simple.text_of_sign? {s : Simple} {c : Char} (h : s.sign? = some c) :
    ∃ t, s.text.toList = c :: t := by
  rcases s with _ | _ | _ | _ | _ | _ | _ | ⟨⟨_, _ | _, _⟩, _ | _, _ | _⟩ <;> cases h <;>
    simp [Simple.text, Attribute.text]

/-- An element condition begins with a name, `*` or `|`. -/
theorem IsLocal.opens {n : List Char} {ns : Option Namespace} (h : IsLocal n)
    (clean : ns.all Namespace.isClean = true) :
    ∃ c t, (namespaceText ns).toList ++ n = c :: t ∧ opensElement c = true := by
  have word : ∀ {w : List Char}, IsWord w → ∃ c t, w = c :: t ∧ opensElement c = true := by
    intro w h
    obtain ⟨c, t, rfl⟩ := List.exists_cons_of_ne_nil h.1
    exact ⟨c, t, rfl, by simp [opensElement, h.2 c List.mem_cons_self]⟩
  rcases ns with _ | _ | _ | label
  · rcases h with rfl | h
    · exact ⟨'*', [], rfl, rfl⟩
    · exact word h
  · exact ⟨'*', _, rfl, rfl⟩
  · exact ⟨'|', _, rfl, rfl⟩
  · obtain ⟨c, t, eq, opens⟩ := word (isWord_of_isCleanName clean)
    exact ⟨c, t ++ '|' :: n, by simp [namespaceText, Namespace.text, eq], opens⟩

/-- A condition without a sign begins like the name of an element. -/
theorem Simple.text_of_sign?_eq_none {s : Simple} (clean : s.isClean = true) (h : s.sign? = none) :
    ∃ c t, s.text.toList = c :: t ∧ opensElement c = true := by
  cases s with
  | universal ns => simpa [Simple.text] using IsLocal.opens (.inl rfl) clean
  | type name =>
    obtain ⟨word, ns⟩ := Bool.and_eq_true_iff.1 clean
    simpa [Simple.text, QualifiedName.text] using IsLocal.opens (.inr (isWord_of_isCleanName word))
      ns
  | _ => cases h

/-- The signs are none of these, so the first character tells the two apart. -/
theorem opensElement_sign? {s : Simple} {c : Char} (h : s.sign? = some c) :
    opensElement c = false := by
  cases s <;> cases h <;> decide

/-- A condition begins with its sign, and an element's name with none. -/
theorem Simple.sign?_eq {s₁ s₂ : Simple} {r₁ r₂ : List Char} (clean₁ : s₁.isClean = true)
    (clean₂ : s₂.isClean = true) (same : s₁.text.toList ++ r₁ = s₂.text.toList ++ r₂) :
    s₁.sign? = s₂.sign? := by
  have apart : ∀ {s s' : Simple} {r r' : List Char} {c : Char}, s.isClean = true → s.sign? = none →
      s'.sign? = some c → s.text.toList ++ r ≠ s'.text.toList ++ r' := by
    intro s s' r r' c clean unsigned signed same
    obtain ⟨d, t, eq, opens⟩ := text_of_sign?_eq_none clean unsigned
    obtain ⟨t', eq'⟩ := text_of_sign? signed
    rw [eq, eq'] at same
    rw [(List.cons.inj same).1, opensElement_sign? signed] at opens
    cases opens
  cases h₁ : s₁.sign? with
  | none =>
    cases h₂ : s₂.sign? with
    | none => rfl
    | some c => exact absurd same (apart clean₁ h₁ h₂)
  | some c =>
    cases h₂ : s₂.sign? with
    | none => exact absurd same.symm (apart clean₂ h₂ h₁)
    | some d =>
      obtain ⟨t₁, eq₁⟩ := Simple.text_of_sign? h₁
      obtain ⟨t₂, eq₂⟩ := Simple.text_of_sign? h₂
      rw [eq₁, eq₂] at same
      rw [(List.cons.inj same).1]

section Conditions

variable {r₁ r₂ : List Char}

/-- Names that are followed alike are equal. -/
theorem name_cancel {name₁ name₂ : String} (clean₁ : isCleanName name₁ = true)
    (clean₂ : isCleanName name₂ = true) (e₁ : GoesOnWith conditionEnds r₁)
    (e₂ : GoesOnWith conditionEnds r₂) (same : name₁.toList ++ r₁ = name₂.toList ++ r₂) :
    name₁ = name₂ ∧ r₁ = r₂ := by
  obtain ⟨word, rest⟩ := word_cancel (isWord_of_isCleanName clean₁).2
    (isWord_of_isCleanName clean₂).2 e₁.endsWord e₂.endsWord same
  exact ⟨String.toList_inj.1 word, rest⟩

theorem suffix_cancel {suffix₁ suffix₂ : Option String} (clean₁ : suffix₁.all isCleanName = true)
    (clean₂ : suffix₂.all isCleanName = true) (e₁ : GoesOnWith conditionEnds r₁)
    (e₂ : GoesOnWith conditionEnds r₂)
    (same : (suffix₁.getD "").toList ++ r₁ = (suffix₂.getD "").toList ++ r₂) :
    suffix₁ = suffix₂ ∧ r₁ = r₂ := by
  have chars : ∀ {suffix : Option String}, suffix.all isCleanName = true →
      ∀ c ∈ (suffix.getD "").toList, isNameChar c = true := by
    rintro (_ | suffix) clean
    · exact nofun
    · exact (isWord_of_isCleanName clean).2
  obtain ⟨word, rest⟩ := word_cancel (chars clean₁) (chars clean₂) e₁.endsWord e₂.endsWord same
  refine ⟨?_, rest⟩
  cases suffix₁ with
  | none =>
    cases suffix₂ with
    | none => rfl
    | some suffix => exact absurd word.symm (isWord_of_isCleanName clean₂).1
  | some suffix =>
    cases suffix₂ with
    | none => exact absurd word (isWord_of_isCleanName clean₁).1
    | some suffix' => exact congrArg some (String.toList_inj.1 word)

/-- An element's name, or the star in its place. -/
theorem element_cancel {ns₁ ns₂ : Option Namespace} {n₁ n₂ : String}
    (clean₁ : ns₁.all Namespace.isClean = true) (clean₂ : ns₂.all Namespace.isClean = true)
    (local₁ : IsLocal n₁.toList) (local₂ : IsLocal n₂.toList) (e₁ : GoesOnWith conditionEnds r₁)
    (e₂ : GoesOnWith conditionEnds r₂)
    (same : (namespaceText ns₁ ++ n₁).toList ++ r₁ = (namespaceText ns₂ ++ n₂).toList ++ r₂) :
    ns₁ = ns₂ ∧ n₁ = n₂ ∧ r₁ = r₂ := by
  simp only [String.toList_append, List.append_assoc] at same
  obtain ⟨ns, word, rest⟩ :=
    qualified_cancel clean₁ clean₂ local₁ local₂ e₁.endsName e₂.endsName same
  exact ⟨ns, String.toList_inj.1 word, rest⟩

/-- The arguments of pseudo selectors, if lists in parentheses can be told apart. -/
theorem argument_cancel {l₁ l₂ : Option SelectorList}
    (inner : ∀ m₁ m₂ s₁ s₂, l₁ = some m₁ → l₂ = some m₂ →
      (textOfList m₁).toList ++ ')' :: s₁ = (textOfList m₂).toList ++ ')' :: s₂ →
      m₁.map Complex.canonical = m₂.map Complex.canonical ∧ s₁ = s₂)
    (e₁ : GoesOnWith conditionEnds r₁) (e₂ : GoesOnWith conditionEnds r₂)
    (same : argumentText l₁ ++ r₁ = argumentText l₂ ++ r₂) :
    l₁.map (List.map Complex.canonical) = l₂.map (List.map Complex.canonical) ∧ r₁ = r₂ := by
  have opened : ∀ {r s : List Char}, GoesOnWith conditionEnds r → r ≠ '(' :: s := by
    rintro r s e rfl
    have paren := e '(' rfl
    revert paren
    decide
  cases l₁ with
  | none =>
    cases l₂ with
    | none => exact ⟨rfl, same⟩
    | some l₂ => exact absurd same (opened e₁)
  | some l₁ =>
    cases l₂ with
    | none => exact absurd same.symm (opened e₂)
    | some l₂ =>
      simp only [argumentText, List.cons_append, List.append_assoc, List.nil_append] at same
      obtain ⟨lists, rest⟩ := inner l₁ l₂ r₁ r₂ rfl rfl (List.cons.inj same).2
      exact ⟨congrArg some lists, rest⟩

theorem endsWord_argumentText {r : List Char} (l : Option SelectorList)
    (e : GoesOnWith conditionEnds r) :
    EndsWord (argumentText l ++ r) := by
  cases l with
  | none => exact e.endsWord
  | some l => exact endsWord_cons (by decide)

/-- A second colon is no part of a name. -/
theorem colon_cons_ne_name {name : String} {s t : List Char} (clean : isCleanName name = true) :
    ':' :: s ≠ name.toList ++ t := by
  intro eq
  obtain ⟨word, chars⟩ := isWord_of_isCleanName clean
  obtain ⟨c, w, split⟩ := List.exists_cons_of_ne_nil word
  rw [split] at eq chars
  have first := chars c List.mem_cons_self
  rw [← (List.cons.inj eq).1] at first
  revert first
  decide

/-- Pseudos that are written alike are equal, if their arguments are told apart by their texts. -/
theorem pseudo_cancel {n₁ n₂ : PseudoName} {l₁ l₂ : Option SelectorList}
    (clean₁ : isCleanName n₁.name = true) (clean₂ : isCleanName n₂.name = true)
    (inner : ∀ m₁ m₂ s₁ s₂, l₁ = some m₁ → l₂ = some m₂ →
      (textOfList m₁).toList ++ ')' :: s₁ = (textOfList m₂).toList ++ ')' :: s₂ →
      m₁.map Complex.canonical = m₂.map Complex.canonical ∧ s₁ = s₂)
    (e₁ : GoesOnWith conditionEnds r₁) (e₂ : GoesOnWith conditionEnds r₂)
    (same : (Simple.text (.pseudo ⟨n₁, none, l₁⟩)).toList ++ r₁ =
      (Simple.text (.pseudo ⟨n₂, none, l₂⟩)).toList ++ r₂) :
    Simple.canonical (.pseudo ⟨n₁, none, l₁⟩) = Simple.canonical (.pseudo ⟨n₂, none, l₂⟩) ∧
      r₁ = r₂ := by
  have names : n₁.name.toList ++ (argumentText l₁ ++ r₁) =
        n₂.name.toList ++ (argumentText l₂ ++ r₂) →
      n₁.name = n₂.name ∧
        l₁.map (List.map Complex.canonical) = l₂.map (List.map Complex.canonical) ∧ r₁ = r₂ := by
    intro eq
    obtain ⟨word, arguments⟩ := word_cancel (isWord_of_isCleanName clean₁).2
      (isWord_of_isCleanName clean₂).2 (endsWord_argumentText l₁ e₁) (endsWord_argumentText l₂ e₂)
      eq
    exact ⟨String.toList_inj.1 word, argument_cancel inner e₁ e₂ arguments⟩
  simp only [Simple.toList_text_pseudo, List.cons_append, List.append_assoc] at same
  obtain ⟨doubles, name, arguments, rest⟩ : n₁.doubleColon = n₂.doubleColon ∧ n₁.name = n₂.name ∧
      l₁.map (List.map Complex.canonical) = l₂.map (List.map Complex.canonical) ∧ r₁ = r₂ := by
    have tails := (List.cons.inj same).2
    cases double₁ : n₁.doubleColon <;> cases double₂ : n₂.doubleColon <;>
      rw [double₁, double₂] at tails
    · exact ⟨rfl, names tails⟩
    · exact absurd tails.symm (colon_cons_ne_name clean₁)
    · exact absurd tails (colon_cons_ne_name clean₂)
    · exact ⟨rfl, names (List.cons.inj tails).2⟩
  obtain rfl := PseudoName.eq_of_written name doubles
  refine ⟨?_, rest⟩
  rw [Simple.canonical_pseudo, Simple.canonical_pseudo, Pseudo.canonical, Pseudo.canonical]
  exact congrArg _ (congrArg (Pseudo.mk n₁.canonical none) arguments)

/-- A universal selector is no type selector, since a clean name has no star. -/
theorem elementName_cancel {s₁ s₂ : Simple} (element₁ : s₁.isUniversalOrType = true)
    (element₂ : s₂.isUniversalOrType = true) (clean₁ : s₁.isClean = true)
    (clean₂ : s₂.isClean = true) (e₁ : GoesOnWith conditionEnds r₁)
    (e₂ : GoesOnWith conditionEnds r₂) (same : s₁.text.toList ++ r₁ = s₂.text.toList ++ r₂) :
    s₁ = s₂ ∧ r₁ = r₂ := by
  have star : IsLocal "*".toList := .inl rfl
  have named : ∀ {name : String}, isCleanName name = true → IsLocal name.toList :=
    fun clean => .inr (isWord_of_isCleanName clean)
  have unstarred : isCleanName "*" = false := by decide
  cases s₁ <;> cases element₁ <;> cases s₂ <;> cases element₂
  case universal.refl.universal.refl ns₁ ns₂ =>
    obtain ⟨rfl, -, rest⟩ := element_cancel clean₁ clean₂ star star e₁ e₂ same
    exact ⟨rfl, rest⟩
  case universal.refl.type.refl ns₁ name₂ =>
    obtain ⟨word, ns⟩ := Bool.and_eq_true_iff.1 clean₂
    obtain ⟨-, eq, -⟩ := element_cancel clean₁ ns star (named word) e₁ e₂ same
    rw [← eq, unstarred] at word
    cases word
  case type.refl.universal.refl name₁ ns₂ =>
    obtain ⟨word, ns⟩ := Bool.and_eq_true_iff.1 clean₁
    obtain ⟨-, eq, -⟩ := element_cancel ns clean₂ (named word) star e₁ e₂ same
    rw [eq, unstarred] at word
    cases word
  case type.refl.type.refl name₁ name₂ =>
    obtain ⟨⟩ := name₁
    obtain ⟨⟩ := name₂
    obtain ⟨word₁, ns₁⟩ := Bool.and_eq_true_iff.1 clean₁
    obtain ⟨word₂, ns₂⟩ := Bool.and_eq_true_iff.1 clean₂
    obtain ⟨rfl, rfl, rest⟩ := element_cancel ns₁ ns₂ (named word₁) (named word₂) e₁ e₂ same
    exact ⟨rfl, rest⟩

/-- **A condition can be told from what follows**, if lists in parentheses can. -/
theorem simple_cancel {s₁ s₂ : Simple} (clean₁ : s₁.isClean = true) (clean₂ : s₂.isClean = true)
    (inner : ∀ l₁ l₂ t₁ t₂, s₁.argument? = some l₁ → s₂.argument? = some l₂ →
      (textOfList l₁).toList ++ ')' :: t₁ = (textOfList l₂).toList ++ ')' :: t₂ →
      l₁.map Complex.canonical = l₂.map Complex.canonical ∧ t₁ = t₂)
    (e₁ : GoesOnWith conditionEnds r₁) (e₂ : GoesOnWith conditionEnds r₂)
    (same : s₁.text.toList ++ r₁ = s₂.text.toList ++ r₂) :
    s₁.canonical = s₂.canonical ∧ r₁ = r₂ := by
  have sign := Simple.sign?_eq clean₁ clean₂ same
  cases s₁ <;> cases s₂ <;> cases sign
  case universal.universal | universal.type | type.universal | type.type =>
    obtain ⟨eq, rest⟩ := elementName_cancel rfl rfl clean₁ clean₂ e₁ e₂ same
    exact ⟨congrArg Simple.canonical eq, rest⟩
  case className.className | idName.idName | placeholder.placeholder =>
    obtain ⟨rfl, rest⟩ := name_cancel clean₁ clean₂ e₁ e₂ (by simpa [Simple.text] using same)
    exact ⟨rfl, rest⟩
  case attr.attr a₁ a₂ =>
    obtain ⟨rfl, rest⟩ := attribute_cancel clean₁ clean₂ same
    exact ⟨rfl, rest⟩
  case parent.parent suffix₁ suffix₂ =>
    obtain ⟨rfl, rest⟩ := suffix_cancel clean₁ clean₂ e₁ e₂ (by simpa [Simple.text] using same)
    exact ⟨rfl, rest⟩
  case pseudo.pseudo p₁ p₂ =>
    obtain ⟨name₁, argument₁, l₁⟩ := p₁
    obtain ⟨name₂, argument₂, l₂⟩ := p₂
    obtain ⟨word₁, none₁⟩ := Bool.and_eq_true_iff.1 clean₁
    obtain ⟨word₂, none₂⟩ := Bool.and_eq_true_iff.1 clean₂
    obtain rfl := Option.isNone_iff_eq_none.1 none₁
    obtain rfl := Option.isNone_iff_eq_none.1 none₂
    exact pseudo_cancel word₁ word₂ inner e₁ e₂ same

end Conditions

/-! ## Compounds, rows and lists

The conditions are any that can be told apart, so that the same lemmas serve every depth. -/

/-- Good conditions are clean and can be told from what follows. -/
structure Cancels (G : Simple → Prop) : Prop where
  clean : ∀ s, G s → s.isClean = true
  cancel : ∀ s₁ s₂ r₁ r₂, G s₁ → G s₂ → GoesOnWith conditionEnds r₁ → GoesOnWith conditionEnds r₂ →
    s₁.text.toList ++ r₁ = s₂.text.toList ++ r₂ → s₁.canonical = s₂.canonical ∧ r₁ = r₂

theorem Simple.text_of_isSecondary {s : Simple} (h : s.isSecondary = true) :
    ∃ c t, s.text.toList = c :: t ∧ c ∈ secondarySigns := by
  have sign : ∃ c, s.sign? = some c ∧ c ∈ secondarySigns := by
    cases s with
    | universal | type | parent => cases h
    | _ => exact ⟨_, rfl, by decide⟩
  obtain ⟨c, sign, mem⟩ := sign
  obtain ⟨t, eq⟩ := text_of_sign? sign
  exact ⟨c, t, eq, mem⟩

/-- The rest of a compound goes on with a sign or ends it. -/
theorem goesOnWith_conditions {c : List Simple} {r : List Char} (h : ∀ s ∈ c, s.isSecondary = true)
    (e : GoesOnWith compoundEnds r) :
    GoesOnWith conditionEnds ((textOfCompound c).toList ++ r) := by
  cases c with
  | nil => exact e.of_subset (List.subset_append_right _ _)
  | cons s c =>
    obtain ⟨sign, t, eq, mem⟩ := Simple.text_of_isSecondary (h s List.mem_cons_self)
    rw [textOfCompound, String.toList_append, eq]
    exact goesOnWith_cons (List.mem_append_left _ mem)

/-- A compound is over where no other condition begins. -/
theorem not_goesOnWith_condition {s : Simple} {c : List Simple} {r : List Char}
    (h : s.isSecondary = true) :
    ¬GoesOnWith compoundEnds ((textOfCompound (s :: c)).toList ++ r) := by
  obtain ⟨sign, t, eq, mem⟩ := Simple.text_of_isSecondary h
  have apart : secondarySigns.all (!compoundEnds.contains ·) = true := by decide
  intro e
  have ends := e sign (by rw [textOfCompound, String.toList_append, eq]; rfl)
  simpa [ends] using List.all_eq_true.1 apart sign mem

section Levels

variable {G : Simple → Prop} (sep : Cancels G) {r₁ r₂ : List Char}

include sep

/-- Conditions behind the first, one by one. -/
theorem conditions_cancel {c₁ c₂ : List Simple} (good₁ : ∀ s ∈ c₁, G s) (good₂ : ∀ s ∈ c₂, G s)
    (later₁ : ∀ s ∈ c₁, s.isSecondary = true) (later₂ : ∀ s ∈ c₂, s.isSecondary = true)
    (e₁ : GoesOnWith compoundEnds r₁) (e₂ : GoesOnWith compoundEnds r₂)
    (same : (textOfCompound c₁).toList ++ r₁ = (textOfCompound c₂).toList ++ r₂) :
    c₁.map Simple.canonical = c₂.map Simple.canonical ∧ r₁ = r₂ := by
  induction c₁ generalizing c₂ with
  | nil =>
    cases c₂ with
    | nil => exact ⟨rfl, same⟩
    | cons s₂ c₂ =>
      obtain rfl : r₁ = _ := same
      exact absurd e₁ (not_goesOnWith_condition (later₂ s₂ List.mem_cons_self))
  | cons s₁ c₁ ih =>
    cases c₂ with
    | nil =>
      obtain rfl : r₂ = _ := same.symm
      exact absurd e₂ (not_goesOnWith_condition (later₁ s₁ List.mem_cons_self))
    | cons s₂ c₂ =>
      rw [List.forall_mem_cons] at good₁ good₂ later₁ later₂
      simp only [textOfCompound, String.toList_append, List.append_assoc] at same
      obtain ⟨first, rest⟩ := sep.cancel s₁ s₂ _ _ good₁.1 good₂.1
        (goesOnWith_conditions later₁.2 e₁) (goesOnWith_conditions later₂.2 e₂) same
      obtain ⟨others, rest⟩ := ih good₁.2 good₂.2 later₁.2 later₂.2 rest
      exact ⟨by rw [List.map_cons, List.map_cons, first, others], rest⟩

/-- Compounds that are written alike have the same canonical form. -/
theorem compound_cancel {c₁ c₂ : Compound} (h₁ : c₁.IsCleanOver G) (h₂ : c₂.IsCleanOver G)
    (e₁ : GoesOnWith compoundEnds r₁) (e₂ : GoesOnWith compoundEnds r₂)
    (same : (textOfCompound c₁).toList ++ r₁ = (textOfCompound c₂).toList ++ r₂) :
    c₁.map Simple.canonical = c₂.map Simple.canonical ∧ r₁ = r₂ := by
  obtain ⟨ne₁, first₁, good₁⟩ := h₁
  obtain ⟨ne₂, first₂, good₂⟩ := h₂
  obtain ⟨s₁, c₁, rfl⟩ := List.exists_cons_of_ne_nil ne₁
  obtain ⟨s₂, c₂, rfl⟩ := List.exists_cons_of_ne_nil ne₂
  have later₁ := List.all_eq_true.1 first₁
  have later₂ := List.all_eq_true.1 first₂
  rw [List.forall_mem_cons] at good₁ good₂
  simp only [textOfCompound, String.toList_append, List.append_assoc] at same
  obtain ⟨head, rest⟩ := sep.cancel s₁ s₂ _ _ good₁.1 good₂.1 (goesOnWith_conditions later₁ e₁)
    (goesOnWith_conditions later₂ e₂) same
  obtain ⟨others, rest⟩ := conditions_cancel sep good₁.2 good₂.2 later₁ later₂ e₁ e₂ rest
  exact ⟨by rw [List.map_cons, List.map_cons, head, others], rest⟩

/-- A compound does not begin like a combinator. -/
theorem compound_ne_combinator {c : Compound} (h : c.IsCleanOver G) (k : Combinator) :
    (textOfCompound c).toList ++ r₁ ≠ k.text.toList ++ r₂ := by
  obtain ⟨s, c, rfl⟩ := List.exists_cons_of_ne_nil h.ne_nil
  have clean := sep.clean s (h.conditions s List.mem_cons_self)
  obtain ⟨d, t, eq, begins⟩ : ∃ d t, s.text.toList = d :: t ∧
      (opensElement d = true ∨ s.sign? = some d) := by
    cases sign : s.sign? with
    | none =>
      obtain ⟨d, t, eq, opens⟩ := Simple.text_of_sign?_eq_none clean sign
      exact ⟨d, t, eq, .inl opens⟩
    | some d =>
      obtain ⟨t, eq⟩ := Simple.text_of_sign? sign
      exact ⟨d, t, eq, .inr rfl⟩
  have sign : ∃ e, k.text.toList = [e] ∧ e ∈ ['>', '+', '~'] := by
    cases k <;> exact ⟨_, rfl, by decide⟩
  obtain ⟨e, combinator, mem⟩ := sign
  intro same
  rw [textOfCompound, String.toList_append, eq, combinator] at same
  obtain ⟨rfl, -⟩ := List.cons.inj same
  rcases begins with opens | sign
  · have closed : ['>', '+', '~'].all (!opensElement ·) = true := by decide
    simpa [opens] using List.all_eq_true.1 closed d mem
  · cases s <;> cases sign <;> revert mem <;> decide

theorem item_cancel {i₁ i₂ : Item} (h₁ : ∀ c, i₁ = .compound c → Compound.IsCleanOver G c)
    (h₂ : ∀ c, i₂ = .compound c → Compound.IsCleanOver G c) (e₁ : GoesOnWith compoundEnds r₁)
    (e₂ : GoesOnWith compoundEnds r₂) (same : i₁.text.toList ++ r₁ = i₂.text.toList ++ r₂) :
    i₁.canonical = i₂.canonical ∧ r₁ = r₂ := by
  cases i₁ with
  | compound c₁ =>
    cases i₂ with
    | compound c₂ =>
      obtain ⟨conditions, rest⟩ := compound_cancel sep (h₁ c₁ rfl) (h₂ c₂ rfl) e₁ e₂ same
      exact ⟨congrArg Item.compound conditions, rest⟩
    | combinator k₂ => exact absurd same (compound_ne_combinator sep (h₁ c₁ rfl) k₂)
  | combinator k₁ =>
    cases i₂ with
    | compound c₂ => exact absurd same.symm (compound_ne_combinator sep (h₂ c₂ rfl) k₁)
    | combinator k₂ => cases k₁ <;> cases k₂ <;> simp_all [Item.text, Combinator.text]

omit sep in
theorem goesOnWith_items (items : List Item) {r : List Char} (e : GoesOnWith rowEnds r) :
    GoesOnWith compoundEnds ((textOfItemsTail items).toList ++ r) := by
  cases items with
  | nil => exact e.of_subset (List.subset_cons_self _ _)
  | cons i items =>
    rw [textOfItemsTail]
    simp only [String.toList_append, List.append_assoc]
    exact goesOnWith_cons List.mem_cons_self

omit sep in
/-- A row is over where no space follows. -/
theorem not_goesOnWith_item {i : Item} {items : List Item} {r : List Char} :
    ¬GoesOnWith rowEnds ((textOfItemsTail (i :: items)).toList ++ r) := by
  intro e
  have space := e ' ' (by simp [textOfItemsTail])
  revert space
  decide

/-- Rows that are written alike have the same canonical form, item by item. -/
theorem items_cancel {row₁ row₂ : List Item}
    (h₁ : ∀ c, .compound c ∈ row₁ → Compound.IsCleanOver G c)
    (h₂ : ∀ c, .compound c ∈ row₂ → Compound.IsCleanOver G c) (e₁ : GoesOnWith rowEnds r₁)
    (e₂ : GoesOnWith rowEnds r₂)
    (same : (textOfItemsTail row₁).toList ++ r₁ = (textOfItemsTail row₂).toList ++ r₂) :
    row₁.map Item.canonical = row₂.map Item.canonical ∧ r₁ = r₂ := by
  induction row₁ generalizing row₂ with
  | nil =>
    cases row₂ with
    | nil => exact ⟨rfl, same⟩
    | cons i₂ row₂ =>
      obtain rfl : r₁ = _ := same
      exact absurd e₁ not_goesOnWith_item
  | cons i₁ row₁ ih =>
    cases row₂ with
    | nil =>
      obtain rfl : r₂ = _ := same.symm
      exact absurd e₂ not_goesOnWith_item
    | cons i₂ row₂ =>
      simp only [textOfItemsTail, String.toList_append, List.append_assoc] at same
      obtain ⟨first, rest⟩ := item_cancel sep (fun c eq => h₁ c (eq ▸ List.mem_cons_self))
        (fun c eq => h₂ c (eq ▸ List.mem_cons_self)) (goesOnWith_items row₁ e₁)
        (goesOnWith_items row₂ e₂)
        (List.append_cancel_left same)
      obtain ⟨others, rest⟩ := ih (fun c hc => h₁ c (List.mem_cons_of_mem _ hc))
        (fun c hc => h₂ c (List.mem_cons_of_mem _ hc)) rest
      exact ⟨by rw [List.map_cons, List.map_cons, first, others], rest⟩

/-- And complex selectors, where the line break is not part of the text that is compared. -/
theorem complex_cancel {c₁ c₂ : Complex} (ne₁ : c₁.items ≠ []) (ne₂ : c₂.items ≠ [])
    (h₁ : ∀ d, .compound d ∈ c₁.items → Compound.IsCleanOver G d)
    (h₂ : ∀ d, .compound d ∈ c₂.items → Compound.IsCleanOver G d) (e₁ : GoesOnWith rowEnds r₁)
    (e₂ : GoesOnWith rowEnds r₂) (same : c₁.text.toList ++ r₁ = c₂.text.toList ++ r₂) :
    c₁.canonical = c₂.canonical ∧ r₁ = r₂ := by
  obtain ⟨row₁, break₁⟩ := c₁
  obtain ⟨row₂, break₂⟩ := c₂
  obtain ⟨i₁, row₁, rfl⟩ := List.exists_cons_of_ne_nil ne₁
  obtain ⟨i₂, row₂, rfl⟩ := List.exists_cons_of_ne_nil ne₂
  simp only [Complex.text, String.toList_append, List.append_assoc] at same
  obtain ⟨first, rest⟩ := item_cancel sep (fun c eq => h₁ c (eq ▸ List.mem_cons_self))
    (fun c eq => h₂ c (eq ▸ List.mem_cons_self)) (goesOnWith_items row₁ e₁)
    (goesOnWith_items row₂ e₂) same
  obtain ⟨others, rest⟩ := items_cancel sep (fun c hc => h₁ c (List.mem_cons_of_mem _ hc))
    (fun c hc => h₂ c (List.mem_cons_of_mem _ hc)) e₁ e₂ rest
  refine ⟨?_, rest⟩
  rw [Complex.canonical_eq, Complex.canonical_eq, List.map_cons, List.map_cons, first, others]

omit sep in
/-- The remaining choices, each behind its separator. -/
theorem toList_textOfListTail_cons (c : Complex) (l : List Complex) :
    (textOfListTail (c :: l)).toList = ',' :: (if c.lineBreak then '\n' else ' ') ::
      (c.text.toList ++ (textOfListTail l).toList) := by
  obtain ⟨items, _ | _⟩ := c <;> simp [textOfListTail]

omit sep in
theorem goesOnWith_choices (l : List Complex) {r : List Char} (e : GoesOnWith listEnds r) :
    GoesOnWith rowEnds ((textOfListTail l).toList ++ r) := by
  cases l with
  | nil => exact e.of_subset (List.subset_cons_self _ _)
  | cons c l =>
    rw [toList_textOfListTail_cons]
    exact goesOnWith_cons List.mem_cons_self

omit sep in
/-- A list is over where no comma follows. -/
theorem not_goesOnWith_choice {c : Complex} {l : List Complex} {r : List Char} :
    ¬GoesOnWith listEnds ((textOfListTail (c :: l)).toList ++ r) := by
  intro e
  have comma := e ',' (by rw [toList_textOfListTail_cons]; rfl)
  revert comma
  decide

/-- Choices that are written alike have the same canonical forms, one by one. -/
theorem choices_cancel {l₁ l₂ : List Complex} (rows₁ : ∀ c ∈ l₁, c.items ≠ [])
    (rows₂ : ∀ c ∈ l₂, c.items ≠ [])
    (h₁ : ∀ c ∈ l₁, ∀ d, .compound d ∈ c.items → Compound.IsCleanOver G d)
    (h₂ : ∀ c ∈ l₂, ∀ d, .compound d ∈ c.items → Compound.IsCleanOver G d)
    (e₁ : GoesOnWith listEnds r₁) (e₂ : GoesOnWith listEnds r₂)
    (same : (textOfListTail l₁).toList ++ r₁ = (textOfListTail l₂).toList ++ r₂) :
    l₁.map Complex.canonical = l₂.map Complex.canonical ∧ r₁ = r₂ := by
  induction l₁ generalizing l₂ with
  | nil =>
    cases l₂ with
    | nil => exact ⟨rfl, same⟩
    | cons c₂ l₂ =>
      obtain rfl : r₁ = _ := same
      exact absurd e₁ not_goesOnWith_choice
  | cons c₁ l₁ ih =>
    cases l₂ with
    | nil =>
      obtain rfl : r₂ = _ := same.symm
      exact absurd e₂ not_goesOnWith_choice
    | cons c₂ l₂ =>
      rw [List.forall_mem_cons] at rows₁ rows₂ h₁ h₂
      simp only [toList_textOfListTail_cons, List.cons_append, List.append_assoc] at same
      obtain ⟨-, separated⟩ := List.cons.inj same
      obtain ⟨-, choices⟩ := List.cons.inj separated
      obtain ⟨first, rest⟩ := complex_cancel sep rows₁.1 rows₂.1 h₁.1 h₂.1
        (goesOnWith_choices l₁ e₁) (goesOnWith_choices l₂ e₂) choices
      obtain ⟨others, rest⟩ := ih rows₁.2 rows₂.2 h₁.2 h₂.2 rest
      exact ⟨by rw [List.map_cons, List.map_cons, first, others], rest⟩

/-- **A list can be told from what follows**, if its conditions can. -/
theorem list_cancel {l₁ l₂ : SelectorList} (h₁ : l₁.IsCleanOver G) (h₂ : l₂.IsCleanOver G)
    (e₁ : GoesOnWith listEnds r₁) (e₂ : GoesOnWith listEnds r₂)
    (same : (textOfList l₁).toList ++ r₁ = (textOfList l₂).toList ++ r₂) :
    l₁.map Complex.canonical = l₂.map Complex.canonical ∧ r₁ = r₂ := by
  obtain ⟨ne₁, rows₁, compounds₁⟩ := h₁
  obtain ⟨ne₂, rows₂, compounds₂⟩ := h₂
  obtain ⟨c₁, l₁, rfl⟩ := List.exists_cons_of_ne_nil ne₁
  obtain ⟨c₂, l₂, rfl⟩ := List.exists_cons_of_ne_nil ne₂
  rw [List.forall_mem_cons] at rows₁ rows₂ compounds₁ compounds₂
  simp only [textOfList, String.toList_append, List.append_assoc] at same
  obtain ⟨first, rest⟩ := complex_cancel sep rows₁.1 rows₂.1 compounds₁.1 compounds₂.1
    (goesOnWith_choices l₁ e₁) (goesOnWith_choices l₂ e₂) same
  obtain ⟨others, rest⟩ :=
    choices_cancel sep rows₁.2 rows₂.2 compounds₁.2 compounds₂.2 e₁ e₂ rest
  exact ⟨by rw [List.map_cons, List.map_cons, first, others], rest⟩

end Levels

/-! ## Every depth -/

/-- The condition is clean and so is its argument, which nests less deep than `n`. -/
def Simple.IsCleanBelow (n : ℕ) (s : Simple) : Prop :=
  s.isClean = true ∧ ∀ l, s.argument? = some l → SelectorList.IsClean l ∧ nestingOfList l < n

/-- A clean list of depth at most `n` is clean over the conditions whose arguments nest less
deep. -/
theorem SelectorList.IsClean.isCleanOver {l : SelectorList} {n : ℕ} (h : l.IsClean)
    (le : nestingOfList l ≤ n) : l.IsCleanOver (Simple.IsCleanBelow n) := by
  obtain ⟨ne_nil, rows⟩ := SelectorList.isWhole_iff.1 h.whole
  refine ⟨ne_nil, fun c hc => (Complex.isWhole_iff.1 (rows c hc)).1, fun c hc d hd => ?_⟩
  have whole := Compound.isWhole_iff.1 ((Complex.isWhole_iff.1 (rows c hc)).2 d hd)
  refine ⟨whole.1,
    h.first d (mem_compoundsOfList.2 ⟨c, hc, mem_compoundsOfItems.2 ⟨d, hd, .inl rfl⟩⟩),
    fun s hs => ⟨h.names s (mem_simples.2 ⟨c, hc, d, hd, s, hs, .inl rfl⟩), fun l' arg => ⟨?_, ?_⟩⟩⟩
  · refine ⟨Simple.isWhole_iff.1 (whole.2 s hs) l' arg, fun x hx => ?_, fun e he => ?_⟩
    · exact h.names x (mem_simples.2 ⟨c, hc, d, hd, s, hs, .inr ⟨l', arg, hx⟩⟩)
    · rw [← Simple.innerCompounds_eq arg] at he
      exact h.first e
        (mem_compoundsOfList.2 ⟨c, hc, mem_compoundsOfItems.2 ⟨d, hd, .inr ⟨s, hs, he⟩⟩⟩)
  · exact (nestingOfList_argument_lt hc hd hs arg).trans_le le

/-- Clean conditions are told apart by their texts at every depth, by induction on the depth. -/
theorem cancels_isCleanBelow (n : ℕ) : Cancels (Simple.IsCleanBelow n) := by
  induction n using Nat.strong_induction_on with
  | _ n ih =>
    refine ⟨fun s h => h.1, fun s₁ s₂ r₁ r₂ h₁ h₂ => simple_cancel h₁.1 h₂.1 ?_⟩
    intro l₁ l₂ t₁ t₂ arg₁ arg₂
    obtain ⟨clean₁, lt₁⟩ := h₁.2 l₁ arg₁
    obtain ⟨clean₂, lt₂⟩ := h₂.2 l₂ arg₂
    obtain ⟨rest₁, rest₂⟩ : GoesOnWith listEnds (')' :: t₁) ∧ GoesOnWith listEnds (')' :: t₂) :=
      ⟨goesOnWith_cons List.mem_cons_self, goesOnWith_cons List.mem_cons_self⟩
    intro same
    obtain ⟨lists, rest⟩ := list_cancel (ih _ (max_lt lt₁ lt₂))
      (clean₁.isCleanOver (le_max_left _ _)) (clean₂.isCleanOver (le_max_right _ _))
      rest₁ rest₂ same
    exact ⟨lists, (List.cons.inj rest).2⟩

/-- **A clean list is determined by its text**, up to what equivalence forgets. -/
theorem text_injective {l₁ l₂ : SelectorList} (h₁ : l₁.IsClean) (h₂ : l₂.IsClean)
    (same : l₁.text = l₂.text) : (l₁ == l₂) = true := by
  have ended : GoesOnWith listEnds [] := nofun
  have texts : (textOfList l₁).toList ++ [] = (textOfList l₂).toList ++ [] := by
    rw [List.append_nil, List.append_nil]
    exact congrArg String.toList same
  exact SelectorList.beq_iff.2
    (list_cancel (cancels_isCleanBelow _) (h₁.isCleanOver (le_max_left _ _))
    (h₂.isCleanOver (le_max_right _ _)) ended ended texts).1

/-- `ns|a[b|="] "] > :not(&-c, *)`, with a line break before the first choice or not. -/
def brokenBefore (lineBreak : Bool) : SelectorList :=
  [⟨[.compound
    [.type ⟨"a", some (.named "ns")⟩, .attr ⟨⟨"b", none⟩, some .dashMatch, some "] ", none⟩],
    .combinator .child,
    .compound [.pseudo (.around "not"
      [⟨[.compound [.parent (some "-c")]], lineBreak⟩, ⟨[.compound [.universal none]], false⟩])]],
    lineBreak⟩]

theorem isClean_brokenBefore (lineBreak : Bool) : (brokenBefore lineBreak).IsClean := by
  cases lineBreak <;> exact ⟨by decide, by decide, by decide⟩

/-- No text has a line break before the first choice, and no equivalence sees one. -/
theorem text_injective_brokenBefore :
    (brokenBefore true).IsClean ∧ (brokenBefore false).IsClean ∧
      (brokenBefore true).text = (brokenBefore false).text ∧
      (brokenBefore true == brokenBefore false) = true :=
  ⟨isClean_brokenBefore true, isClean_brokenBefore false, rfl,
    text_injective (isClean_brokenBefore true) (isClean_brokenBefore false) rfl⟩

end SelectorAlgebra
