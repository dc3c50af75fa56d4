import Mathlib
import SelectorAlgebra.Diagnostics.Bogus
import SelectorAlgebra.Proofs.SoundSelectors

/-!
# Proofs/BogusLevels — three ways to be bogus, each inside the next

    useless  →  bogus beyond a leading combinator  →  bogus

The gap between the last two is exact: a selector is in it if it is one combinator before a selector
that is not bogus.  So whatever is in the gap begins with a combinator, and a warning never says
that a selector is only good for nesting without saying that it will be omitted.

* `bogus_levels` — all of this.

The three say the same of arguments.  What they say of rows is read off `IsValidRow`, which allows
some combinators before a closed row: none for the last one, one for the second.
-/

namespace SelectorAlgebra

/-! ## Rows behind at most one combinator -/

section Rows

variable {G : Simple → Prop} {row rest : List Item}

theorem not_isValidRow_combinator (k : Combinator) : ¬ IsValidRow G 0 (.combinator k :: rest) := by
  rw [isValidRow_zero]
  rintro ⟨closed, -⟩
  exact absurd (closed.head (.combinator k) rfl) Bool.false_ne_true

/-- A row that is valid behind one combinator is valid, or is one combinator before a valid row. -/
theorem isValidRow_one : IsValidRow G 1 row ↔
    IsValidRow G 0 row ∨ ∃ k rest, row = .combinator k :: rest ∧ IsValidRow G 0 rest := by
  constructor
  · rintro ⟨lead, body, rfl, short, shape⟩
    rcases lead with _ | ⟨k, _ | ⟨k', lead⟩⟩
    · exact .inl (isValidRow_zero.2 shape)
    · exact .inr ⟨k, body, rfl, isValidRow_zero.2 shape⟩
    · simp at short
  · rintro (valid | ⟨k, rest, rfl, valid⟩)
    · exact valid.mono (Nat.zero_le 1)
    · exact ⟨[k], rest, rfl, le_rfl, isValidRow_zero.1 valid⟩

/-- Behind at most one leading combinator, none is repeated. -/
theorem hasRepeatedCombinator_of_isValidRow (h : IsValidRow G 1 row) :
    hasRepeatedCombinator row = false := by
  rw [hasRepeatedCombinator_eq_false_iff]
  rcases isValidRow_one.1 h with valid | ⟨k, rest, rfl, valid⟩
  · exact (isValidRow_zero.1 valid).1.beside
  · obtain ⟨closed, -⟩ := isValidRow_zero.1 valid
    exact closed.beside.cons fun item hitem => .inr (closed.head item hitem)

end Rows

/-! ## The levels -/

namespace Complex

variable {c : Complex}

/-- The narrow level allows no leading combinator. -/
theorem isBogus_iff : c.isBogus = false ↔ IsValidRow (·.hasBogusArgument = false) 0 c.items :=
  isValidRow_arguments_iff.symm

theorem isBogusBeyondLeading_iff :
    c.isBogusBeyondLeading = false ↔ IsValidRow (·.hasBogusArgument = false) 1 c.items :=
  isValidRow_arguments_iff.symm

/-- The levels are nested: what is bogus beyond the start is bogus. -/
theorem isBogus_of_isBogusBeyondLeading (h : c.isBogusBeyondLeading = true) : c.isBogus = true := by
  contrapose h
  rw [Bool.not_eq_true, isBogus_iff] at h
  rw [Bool.not_eq_true, isBogusBeyondLeading_iff]
  exact h.mono (Nat.zero_le 1)

/-- What is useless is bogus beyond the start. -/
theorem isBogusBeyondLeading_of_isUseless (h : c.isUseless = true) :
    c.isBogusBeyondLeading = true := by
  contrapose h
  rw [Bool.not_eq_true, isBogusBeyondLeading] at h
  have arguments := (Bool.or_eq_false_iff.1 h).2
  rw [Bool.not_eq_true, isUseless, arguments, Bool.or_false]
  exact hasRepeatedCombinator_of_isValidRow (isValidRow_arguments_iff.2 h)

/-- **The gap between the last two levels**: one combinator before a selector that is not bogus. -/
theorem bogus_only_by_leading_iff : (c.isBogus = true ∧ c.isBogusBeyondLeading = false) ↔
    ∃ k rest, c.items = .combinator k :: rest ∧ IsValidRow (·.hasBogusArgument = false) 0 rest := by
  rw [← Bool.not_eq_false, isBogus_iff, isBogusBeyondLeading_iff, isValidRow_one]
  constructor
  · rintro ⟨bogus, valid | gap⟩
    · exact absurd valid bogus
    · exact gap
  · rintro ⟨k, rest, items, valid⟩
    refine ⟨?_, .inr ⟨k, rest, items, valid⟩⟩
    rw [items]
    exact not_isValidRow_combinator k

theorem leadingCombinators_of_isValidRow {G : Simple → Prop} {k : Combinator} {rest : List Item}
    (items : c.items = .combinator k :: rest) (h : IsValidRow G 0 rest) :
    c.leadingCombinators = [k] := by
  have start := takeWhile_isCombinator_lead (isValidRow_zero.1 h).1.head [k]
  rw [List.map_singleton, List.singleton_append] at start
  rw [leadingCombinators, items, start]
  rfl

/-- The gap, told by what stands where: one combinator, something behind it, and that is not
bogus. -/
theorem bogus_only_by_leading_iff_tail : (c.isBogus = true ∧ c.isBogusBeyondLeading = false) ↔
    c.leadingCombinators.length = 1 ∧ 1 < c.items.length ∧
      isBogus ⟨c.items.tail, c.lineBreak⟩ = false := by
  rw [bogus_only_by_leading_iff, isBogus_iff]
  constructor
  · rintro ⟨k, rest, items, valid⟩
    have filled := List.length_pos_iff.2 (isValidRow_zero.1 valid).2
    rw [leadingCombinators_of_isValidRow items valid, items]
    exact ⟨rfl, Nat.succ_lt_succ filled, valid⟩
  · rintro ⟨one, -, valid⟩
    rcases items : c.items with _ | ⟨d | k, rest⟩
    · simp [leadingCombinators, items] at one
    · simp [leadingCombinators, items, Item.isCombinator] at one
    · rw [items] at valid
      exact ⟨k, rest, rfl, valid⟩

end Complex

/-! ## The warnings -/

/-- How every warning about a bogus selector ends. -/
def futureSentence : String := "\nThis will be an error in a future release."

/-- The sentence that a selector will be dropped. -/
def omissionSentence : String := " It will be omitted from the generated CSS."

/-- The message that a selector is only good for nesting, with a sentence added to it. -/
def nestingMessage (text sentence : String) : String :=
  "The selector \"" ++ text ++ "\" is " ++
    "only valid for nesting and shouldn't\nhave children other than style rules." ++ sentence ++
    futureSentence

section Texts

variable {a b s t u : String}

theorem append_split (h : u = s ++ t) (ending : String) :
    a ++ u ++ ending = a ++ s ++ t ++ ending := by
  rw [h, String.append_assoc, String.append_assoc, String.append_assoc, String.append_assoc]

/-- Texts are different if they differ right before a common ending. -/
theorem append_ne_append (ne : s ≠ t) (length : s.toList.length = t.toList.length)
    (ending : String) :
    a ++ s ++ ending ≠ b ++ t ++ ending := by
  intro same
  have chars : (a.toList ++ s.toList) ++ ending.toList
      = (b.toList ++ t.toList) ++ ending.toList := by
    simpa only [String.toList_append] using congrArg String.toList same
  exact ne (String.toList_inj.1 (List.append_inj' (List.append_cancel_right chars) length).2)

end Texts

namespace Complex

variable {c : Complex}

/-- A bogus selector that does not begin with a combinator is bogus beyond that. -/
theorem isBogusBeyondLeading_of_leadingCombinators (h : c.isBogus = true)
    (start : c.leadingCombinators = []) : c.isBogusBeyondLeading = true := by
  by_contra within
  rw [Bool.not_eq_true] at within
  obtain ⟨k, rest, items, valid⟩ := bogus_only_by_leading_iff.1 ⟨h, within⟩
  rw [leadingCombinators_of_isValidRow items valid] at start
  cases start

/-- Without a leading combinator the warning is the one about nesting, with the omission. -/
theorem bogusMessage_eq_nestingMessage (h : c.isBogus = true) (useful : c.isUseless = false)
    (start : c.leadingCombinators = []) :
    c.bogusMessage = nestingMessage (Text.trim c.text) omissionSentence := by
  have beyond := isBogusBeyondLeading_of_leadingCombinators h start
  simp only [bogusMessage, useful, start, beyond]
  rfl

/-- Whatever is said of a bogus selector, the last word before the common ending is CSS. -/
theorem exists_bogusMessage_eq (h : c.isBogus = true) :
    ∃ start, c.bogusMessage = start ++ "CSS." ++ futureSentence := by
  have invalid : "invalid CSS." = "invalid " ++ "CSS." := rfl
  have omitted : omissionSentence = " It will be omitted from the generated " ++ "CSS." := rfl
  cases useless : c.isUseless with
  | true =>
    have message : c.bogusMessage = "The selector \"" ++ Text.trim c.text ++ "\" is " ++
        "invalid CSS." ++ omissionSentence ++ futureSentence := by
      simp only [bogusMessage, useless]
      rfl
    exact ⟨_, message.trans (append_split omitted futureSentence)⟩
  | false =>
    cases start : c.leadingCombinators with
    | cons k lead =>
      have message : c.bogusMessage = "The selector \"" ++ Text.trim c.text ++ "\" is " ++
          "invalid CSS." ++ futureSentence := by
        simp only [bogusMessage, useless, start]
        rfl
      exact ⟨_, message.trans (append_split invalid futureSentence)⟩
    | nil =>
      have message := bogusMessage_eq_nestingMessage h useless start
      exact ⟨_, message.trans (append_split omitted futureSentence)⟩

/-- No warning is the bare sentence about nesting. -/
theorem bogusMessage_ne_nestingMessage (h : c.isBogus = true) (text : String) :
    c.bogusMessage ≠ nestingMessage text "" := by
  have rules : "only valid for nesting and shouldn't\nhave children other than style rules."
      = "only valid for nesting and shouldn't\nhave children other than style ru" ++ "les." := by
        simp
  have bare : nestingMessage text "" = _ :=
    (congrArg (· ++ futureSentence) String.append_empty).trans (append_split rules futureSentence)
  obtain ⟨start, message⟩ := exists_bogusMessage_eq h
  have apart : "CSS." ≠ "les." := by decide
  rw [message, bare]
  exact append_ne_append apart (by simp) futureSentence

end Complex

/-- **Three ways to be bogus, each inside the next, with an exact gap between the last two.**  So no
warning says that a selector is only good for nesting and leaves out that it will be omitted. -/
theorem bogus_levels (c : Complex) (l : SelectorList) (span : Span) :
    (c.isUseless = true → c.isBogusBeyondLeading = true) ∧
    (c.isBogusBeyondLeading = true → c.isBogus = true) ∧
    ((c.isBogus = true ∧ c.isBogusBeyondLeading = false) ↔
      c.leadingCombinators.length = 1 ∧ 1 < c.items.length ∧
        Complex.isBogus ⟨c.items.tail, c.lineBreak⟩ = false) ∧
    (∀ w ∈ l.bogusWarnings span, ∀ text, w.message ≠ nestingMessage text "") ∧
    ∀ d ∈ l, d.isBogus = true → d.isUseless = false → d.leadingCombinators = [] →
      ⟨nestingMessage (Text.trim d.text) omissionSentence, some span, true⟩
      ∈ l.bogusWarnings span := by
  refine ⟨Complex.isBogusBeyondLeading_of_isUseless, Complex.isBogus_of_isBogusBeyondLeading,
    Complex.bogus_only_by_leading_iff_tail, fun w hw text => ?_, fun d hd bogus useful start => ?_⟩
  · obtain ⟨d, hd, rfl⟩ := List.mem_map.1 hw
    exact d.bogusMessage_ne_nestingMessage (List.mem_filter.1 hd).2 text
  · refine List.mem_map.2 ⟨d, List.mem_filter.2 ⟨hd, bogus⟩, ?_⟩
    rw [d.bogusMessage_eq_nestingMessage bogus useful start]

/-- `.a > ~ .b` is useless and so on all levels, `> .a` stands in the gap, and the warning about
`.a >` says that it will be omitted. -/
theorem bogus_levels_child : ∃ e c d : Complex,
    e = ⟨[.compound [.className "a"], .combinator .child, .combinator .followingSibling,
      .compound [.className "b"]], false⟩ ∧
    c = ⟨[.combinator .child, .compound [.className "a"]], false⟩ ∧
    d = ⟨[.compound [.className "a"], .combinator .child], false⟩ ∧
    e.isUseless = true ∧ e.isBogusBeyondLeading = true ∧ e.isBogus = true ∧
    (c.isBogus = true ∧ c.isBogusBeyondLeading = false) ∧ c.leadingCombinators.length = 1 ∧
    d.isBogus = true ∧ d.isUseless = false ∧ d.leadingCombinators = [] ∧
    ⟨nestingMessage (Text.trim d.text) omissionSentence, some default, true⟩ ∈
      SelectorList.bogusWarnings [d] default := by
  refine ⟨_, _, _, rfl, rfl, rfl, rfl, ?_, ?_, ⟨rfl, rfl⟩, ?_, rfl, rfl, rfl, ?_⟩
  · exact (bogus_levels _ [] default).1 rfl
  · exact (bogus_levels _ [] default).2.1 rfl
  · exact ((bogus_levels _ [] default).2.2.1.1 ⟨rfl, rfl⟩).1
  · exact (bogus_levels default _ default).2.2.2.2 _ List.mem_cons_self rfl rfl rfl

end SelectorAlgebra
