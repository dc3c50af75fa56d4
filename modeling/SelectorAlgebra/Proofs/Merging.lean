import Mathlib
import SelectorAlgebra.Extension.Basic
import SelectorAlgebra.Proofs.Operation

/-!
# Proofs/Merging — which rules a merged extension remembers

* `mandatoryRules_merge_iff` — merging two extensions keeps the mandatory rules of both, in
  order, unless one of them is forgetful and gives way.  A sequence of mandatory rules merged one
  after the other comes back whole exactly when it has at most two rules, or one of its first two
  stands inside media queries.

An extension of several rules counts as optional.  Outside media queries it is therefore idle, and
an idle extension gives way to the other one in the next merge: `isForgetful` singles these out.
Once some rule of an extension stands inside media queries, the extension is never idle again.
-/

namespace SelectorAlgebra.Extension

/-- The rules that have to find their target, in the order they were merged. -/
def mandatoryRules (e : Extension) : List ExtendRule := e.rules.filter (!·.optional)

/-- An extension that merging made out of rules. -/
inductive IsBuilt : Extension → Prop where
  | rule (r : ExtendRule) : IsBuilt (.rule r)
  | merge {left right m : Extension} (hl : IsBuilt left) (hr : IsBuilt right)
      (h : left.merge right = .ok m) : IsBuilt m

/-- Whether several rules ask for the extension and it still gives way in the next merge. -/
def isForgetful (e : Extension) : Bool := e.isMerged && e.isIdle

variable {left right m e : Extension} {r first : ExtendRule} {rest : List ExtendRule}

/-! ## One merge -/

/-- All that merging can do: keep one side and let the other, which is idle, go; or keep both. -/
theorem merge_cases (h : left.merge right = .ok m) :
    (right.isIdle = true ∧ m = left) ∨
      (right.isIdle = false ∧ left.isIdle = true ∧ m = right) ∨
      (right.isIdle = false ∧ left.isIdle = false ∧ m = .merged left right) := by
  unfold Extension.merge at h
  split at h
  · cases h
  split at h
  · cases h
  split at h
  · rename_i idle
    exact .inl ⟨idle, (Except.ok.inj h).symm⟩
  rename_i busy
  rw [Bool.not_eq_true] at busy
  split at h
  · rename_i idle
    exact .inr (.inl ⟨busy, idle, (Except.ok.inj h).symm⟩)
  · rename_i busy'
    rw [Bool.not_eq_true] at busy'
    exact .inr (.inr ⟨busy, busy', (Except.ok.inj h).symm⟩)

/-- What a merge that succeeds has checked. -/
theorem alike_of_merge (h : left.merge right = .ok m) :
    (left.extender == right.extender) = true ∧ (left.target == right.target) = true ∧
      left.mediaConflict right = false := by
  unfold Extension.merge at h
  split at h
  · cases h
  rename_i same
  rw [Bool.not_eq_true, Bool.not_eq_false', Bool.and_eq_true] at same
  split at h
  · cases h
  · rename_i free
    exact ⟨same.1, same.2, by simpa using free⟩

/-- What has passed the checks is merged. -/
theorem exists_merge_of_alike (extender : (left.extender == right.extender) = true)
    (target : (left.target == right.target) = true) (free : left.mediaConflict right = false) :
    ∃ m, left.merge right = .ok m := by
  unfold Extension.merge
  rw [extender, target, free]
  split
  · contradiction
  split
  · contradiction
  split
  · exact ⟨_, rfl⟩
  split
  · exact ⟨_, rfl⟩
  · exact ⟨_, rfl⟩

/-- A merged extension is one of the pair of its right side. -/
theorem pair_of_merge (h : left.merge right = .ok m) :
    (m.extender == right.extender) = true ∧ (m.target == right.target) = true := by
  obtain ⟨extender, target, -⟩ := alike_of_merge h
  rcases merge_cases h with ⟨-, rfl⟩ | ⟨-, -, rfl⟩ | ⟨-, -, rfl⟩
  · exact ⟨extender, target⟩
  · exact ⟨BEq.rfl, BEq.rfl⟩
  · exact ⟨extender, target⟩

theorem mandatoryRules_merged (left right : Extension) :
    (merged left right).mandatoryRules = left.mandatoryRules ++ right.mandatoryRules :=
  List.filter_append _ _

theorem mandatoryRules_rule_of_optional (h : r.optional = true) : (rule r).mandatoryRules = [] := by
  simp [mandatoryRules, rules, h]

theorem isIdle_merged : (merged left right).isIdle = true ↔
    left.asRule.media = none ∧ right.asRule.media = none := by
  simp [isIdle, asRule]

/-- An extension outside media queries that is not idle is a single mandatory rule. -/
theorem exists_rule_of_not_isIdle (busy : e.isIdle = false) (media : e.asRule.media = none) :
    ∃ r, e = .rule r ∧ r.optional = false := by
  cases e with
  | rule r =>
    rw [isIdle, media, Option.isNone_none, Bool.and_true] at busy
    exact ⟨r, rfl, busy⟩
  | merged left right =>
    have idle : (merged left right).isIdle = true := by simpa [isIdle, asRule] using media
    rw [idle] at busy
    cases busy

/-- No side of a merge is idle. -/
theorem IsBuilt.not_isIdle (h : IsBuilt e) : ∀ left right, e = .merged left right →
    left.isIdle = false ∧ right.isIdle = false := by
  induction h with
  | rule r =>
    intro left right same
    cases same
  | merge _ _ h ihl ihr =>
    intro left right same
    rcases merge_cases h with ⟨-, rfl⟩ | ⟨-, -, rfl⟩ | ⟨busy, busy', rfl⟩
    · exact ihl left right same
    · exact ihr left right same
    · cases same
      exact ⟨busy', busy⟩

/-- A forgetful extension has something to forget. -/
theorem IsBuilt.mandatoryRules_ne_nil (built : IsBuilt e) (h : e.isForgetful = true) :
    e.mandatoryRules ≠ [] := by
  cases e with
  | rule r => cases h
  | merged left right =>
    have idle : (merged left right).isIdle = true := h
    obtain ⟨a, rfl, mandatory⟩ :=
      exists_rule_of_not_isIdle (built.not_isIdle left right rfl).1 (isIdle_merged.1 idle).1
    simp [mandatoryRules, rules, mandatory]

/-- An idle extension that is not forgetful has nothing to forget. -/
theorem mandatoryRules_of_isIdle (idle : e.isIdle = true) (h : e.isForgetful = false) :
    e.mandatoryRules = [] := by
  cases e with
  | rule r =>
    have optional : r.optional = true := by
      rw [isIdle, Bool.and_eq_true] at idle
      exact idle.1
    exact mandatoryRules_rule_of_optional optional
  | merged left right =>
    rw [isForgetful, idle] at h
    cases h

theorem IsBuilt.mandatoryRules_eq_nil_iff (built : IsBuilt e) (idle : e.isIdle = true) :
    e.mandatoryRules = [] ↔ e.isForgetful = false := by
  constructor
  · intro empty
    by_contra h
    exact built.mandatoryRules_ne_nil (Bool.eq_true_of_not_eq_false h) empty
  · exact mandatoryRules_of_isIdle idle

theorem isForgetful_of_not_isIdle (busy : e.isIdle = false) : e.isForgetful = false := by
  rw [isForgetful, busy, Bool.and_false]

/-- **A merge keeps the mandatory rules of both sides**, unless the right side is forgetful, or the
left one is and the right one does not give way first. -/
theorem IsBuilt.mandatoryRules_merge (hl : IsBuilt left) (hr : IsBuilt right)
    (h : left.merge right = .ok m) :
    m.mandatoryRules = left.mandatoryRules ++ right.mandatoryRules ↔
      right.isForgetful = false ∧ (left.isForgetful = true → right.isIdle = true) := by
  rcases merge_cases h with ⟨idle, rfl⟩ | ⟨busy, idle, rfl⟩ | ⟨busy, busy', rfl⟩
  · rw [List.self_eq_append_right, hr.mandatoryRules_eq_nil_iff idle]
    simp [idle]
  · rw [List.self_eq_append_left, hl.mandatoryRules_eq_nil_iff idle]
    simp [isForgetful_of_not_isIdle busy, busy]
  · simp [mandatoryRules_merged, isForgetful_of_not_isIdle busy, isForgetful_of_not_isIdle busy']

/-! ## A sequence of rules -/

/-- The extension of a sequence of rules, merged one after the other. -/
def mergeAll (first : ExtendRule) (rest : List ExtendRule) : Except Failure Extension :=
  rest.foldlM (fun e r => e.merge (.rule r)) (.rule first)

theorem isIdle_rule_of_mandatory (h : r.optional = false) : (rule r).isIdle = false := by
  simp [isIdle, asRule, h]

/-- A mandatory rule takes the place of an idle extension and joins any other. -/
theorem merge_rule_eq (mandatory : r.optional = false) (h : e.merge (.rule r) = .ok m) :
    m = if e.isIdle then .rule r else .merged e (.rule r) := by
  have busy := isIdle_rule_of_mandatory mandatory
  rcases merge_cases h with ⟨idle, -⟩ | ⟨-, idle, rfl⟩ | ⟨-, busy', rfl⟩
  · rw [busy] at idle
    cases idle
  · rw [idle, if_pos rfl]
  · rw [busy', if_neg Bool.false_ne_true]

/-- Inside media queries every further rule is remembered. -/
theorem rules_foldlM_of_media : ∀ {rest : List ExtendRule} {e : Extension},
    (∀ r ∈ rest, r.optional = false) → e.asRule.media.isSome = true →
    rest.foldlM (fun e r => e.merge (.rule r)) e = .ok m → m.rules = e.rules ++ rest
  | [], e, _, _, h => by
    obtain rfl : e = m := Except.ok.inj h
    exact (List.append_nil _).symm
  | r :: rest, e, mandatory, media, h => by
    rw [List.forall_mem_cons] at mandatory
    obtain ⟨next, hnext, h⟩ := exists_of_bind_ok h
    have busy : e.isIdle = false := by
      rw [isIdle, ← Option.not_isSome, media, Bool.not_true, Bool.and_false]
    obtain rfl : next = .merged e (.rule r) := by
      rw [merge_rule_eq mandatory.1 hnext, busy, if_neg Bool.false_ne_true]
    have media' : (merged e (rule r)).asRule.media.isSome = true := by
      rw [asRule, Option.isSome_or, media, Bool.true_or]
    rw [rules_foldlM_of_media mandatory.2 media' h, rules, rules, List.append_assoc,
      List.singleton_append]

theorem length_rules_foldlM_le : ∀ {rest : List ExtendRule} {e : Extension},
    (∀ r ∈ rest, r.optional = false) → rest.foldlM (fun e r => e.merge (.rule r)) e = .ok m →
    m.rules.length ≤ e.rules.length + rest.length
  | [], e, _, h => by
    obtain rfl : e = m := Except.ok.inj h
    exact Nat.le_add_right _ _
  | r :: rest, e, mandatory, h => by
    rw [List.forall_mem_cons] at mandatory
    obtain ⟨next, hnext, h⟩ := exists_of_bind_ok h
    have grown : next.rules.length ≤ e.rules.length + 1 := by
      rw [merge_rule_eq mandatory.1 hnext]
      split <;> simp [rules]
    have after := length_rules_foldlM_le mandatory.2 h
    rw [List.length_cons]
    omega

/-- **A sequence of mandatory rules comes back whole** exactly if it has at most two rules, or one
of its first two stands inside media queries. -/
theorem rules_mergeAll (mandatory : ∀ r ∈ first :: rest, r.optional = false)
    (h : mergeAll first rest = .ok m) :
    m.rules = first :: rest ↔
      rest.length ≤ 1 ∨ ∃ r ∈ (first :: rest).take 2, r.media.isSome = true := by
  rw [List.forall_mem_cons] at mandatory
  obtain ⟨mandatory, others⟩ := mandatory
  cases rest with
  | nil =>
    obtain rfl : rule first = m := Except.ok.inj h
    simp [rules]
  | cons second rest =>
    rw [List.forall_mem_cons] at others
    obtain ⟨pair, hpair, h⟩ := exists_of_bind_ok h
    obtain rfl : pair = .merged (.rule first) (.rule second) := by
      rw [merge_rule_eq others.1 hpair, isIdle_rule_of_mandatory mandatory,
        if_neg Bool.false_ne_true]
    by_cases media : first.media.isSome = true ∨ second.media.isSome = true
    · have inside : (merged (rule first) (rule second)).asRule.media.isSome = true := by
        rw [asRule, Option.isSome_or, Bool.or_eq_true]
        exact media
      rw [rules_foldlM_of_media others.2 inside h]
      simp [rules, media]
    · rw [not_or, Option.not_isSome_iff_eq_none, Option.not_isSome_iff_eq_none] at media
      have idle : (merged (rule first) (rule second)).isIdle = true := isIdle_merged.2 media
      cases rest with
      | nil =>
        obtain rfl : merged (rule first) (rule second) = m := Except.ok.inj h
        simp [rules]
      | cons third rest =>
        -- the pair is idle, so the third rule takes its place
        rw [List.forall_mem_cons] at others
        obtain ⟨next, hnext, h⟩ := exists_of_bind_ok h
        obtain rfl : next = .rule third := by
          rw [merge_rule_eq others.2.1 hnext, idle, if_pos rfl]
        have short := length_rules_foldlM_le others.2.2 h
        have lost : m.rules ≠ first :: second :: third :: rest := by
          intro whole
          rw [whole] at short
          simp only [rules, List.length_cons, List.length_nil] at short
          omega
        simp [lost, media]

/-! ## What merging remembers -/

/-- **What a merge remembers of mandatory rules**: those of both sides, unless one of them is
forgetful and gives way; and of a sequence of them all, exactly if it has at most two, or one of its
first two stands inside media queries. -/
theorem mandatoryRules_merge_iff (left right m : Extension) (first : ExtendRule)
    (rest : List ExtendRule) :
    (IsBuilt left → IsBuilt right → left.merge right = .ok m →
      (m.mandatoryRules = left.mandatoryRules ++ right.mandatoryRules ↔
        right.isForgetful = false ∧ (left.isForgetful = true → right.isIdle = true))) ∧
    ((∀ r ∈ first :: rest, r.optional = false) → mergeAll first rest = .ok m →
      (m.rules = first :: rest ↔
        rest.length ≤ 1 ∨ ∃ r ∈ (first :: rest).take 2, r.media.isSome = true)) :=
  ⟨fun hl hr h => hl.mandatoryRules_merge hr h, fun mandatory h => rules_mergeAll mandatory h⟩

/-- Three rules that `.a` extends `.b`, the first of them inside media queries: all are
remembered. -/
theorem mandatoryRules_merge_iff_media :
    let asked := fun (line : ℕ) (media : Option MediaContext) =>
      ExtendRule.written (.ofCompound [.className "a"]) default (.className "b")
        ⟨"sheet", line, line, line, 1⟩ media false
    let first := asked 1 (some ["print"])
    let pair := merged (.rule first) (.rule (asked 2 none))
    let whole := merged pair (.rule (asked 3 none))
    (rule first).merge (.rule (asked 2 none)) = .ok pair ∧
      pair.merge (.rule (asked 3 none)) = .ok whole ∧
      whole.mandatoryRules = pair.mandatoryRules ++ [asked 3 none] ∧
      mergeAll first [asked 2 none, asked 3 none] = .ok whole ∧
      whole.rules = [first, asked 2 none, asked 3 none] := by
  intro asked first pair whole
  have hpair : (rule first).merge (.rule (asked 2 none)) = .ok pair := by cbv
  have hwhole : pair.merge (.rule (asked 3 none)) = .ok whole := by cbv
  have hall : mergeAll first [asked 2 none, asked 3 none] = .ok whole := by cbv
  have remembered := mandatoryRules_merge_iff pair (.rule (asked 3 none)) whole first
    [asked 2 none, asked 3 none]
  refine ⟨hpair, hwhole, ?_, hall, ?_⟩
  · exact (remembered.1 (.merge (.rule _) (.rule _) hpair) (.rule _) hwhole).2
      ⟨rfl, fun h => absurd h Bool.false_ne_true⟩
  · exact (remembered.2 (by simp [first, asked, ExtendRule.written]) hall).2
      (.inr ⟨first, List.mem_cons_self, rfl⟩)

/-- Three rules that `.a` extends `.b`, none inside media queries: the first two are forgotten. -/
theorem mandatoryRules_merge_forgets :
    let asked := fun line : ℕ =>
      ExtendRule.written (.ofCompound [.className "a"]) default (.className "b")
        ⟨"sheet", line, line, line, 1⟩ none false
    let pair := merged (.rule (asked 1)) (.rule (asked 2))
    (rule (asked 1)).merge (.rule (asked 2)) = .ok pair ∧
      pair.merge (.rule (asked 3)) = .ok (.rule (asked 3)) ∧
      (rule (asked 3)).mandatoryRules ≠ pair.mandatoryRules ++ (rule (asked 3)).mandatoryRules ∧
      mergeAll (asked 1) [asked 2, asked 3] = .ok (.rule (asked 3)) ∧
      (rule (asked 3)).rules ≠ [asked 1, asked 2, asked 3] := by
  intro asked pair
  refine ⟨by cbv, by cbv, fun same => ?_, by cbv, fun same => ?_⟩
  · have lengths : 1 = 3 := congrArg List.length same
    cases lengths
  · have lengths : 1 = 3 := congrArg List.length same
    cases lengths

end SelectorAlgebra.Extension
