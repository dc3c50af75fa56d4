import Mathlib
import SelectorAlgebra.Proofs.UnifiedConditions
import SelectorAlgebra.Proofs.WovenCompounds

/-!
# Proofs/RootStarts — rows that begin with `:root`

A compound with `:root` is above no compound that does not ask for the root
(`covers_eq_false_of_isRoot`), and that is all that the ends of two rows could want of it.  So they
are merged as if the roots were not there (`mergeTrailing_roots`), and what is known of rows
without a root carries over.

What is left of a row once its end is merged is behind the root, or there is nothing left.  Nothing
is left of a row that is tied by combinators to what stands behind it (`eq_nil_of_mergeTrailing`),
and such a row makes **one group** with the compound that it is tied to (`isOneGroup_concat_iff`).
-/

namespace SelectorAlgebra

/-! ## Conditions that do not ask for the root -/

/-- The condition does not ask for the root: it is neither `:root` nor `:is(:root)`. -/
def Simple.IsRootless (s : Simple) : Prop :=
  ∀ p : Pseudo, p.isRoot = true → (Simple.pseudo p).impliedBy s = false

/-- No condition asks for the root. -/
def Compound.IsRootless (c : Compound) : Prop := ∀ s ∈ c, s.IsRootless

section Rootless

variable {s : Simple} {p : Pseudo} {c c₁ c₂ r : Compound} {sup : ItemsRelation}
  {parents : List Item}

/-- A compound is a root when one of its pseudos is `:root`. -/
theorem Compound.isRoot_iff : Compound.isRoot c = true ↔ ∃ p, .pseudo p ∈ c ∧ p.isRoot = true := by
  rw [Compound.isRoot, List.any_eq_true]
  constructor
  · rintro ⟨s, hs, root⟩
    cases s with
    | pseudo p => exact ⟨p, hs, root⟩
    | _ => cases root
  · rintro ⟨p, hp, root⟩
    exact ⟨.pseudo p, hp, root⟩

theorem beq_eq_false_of_isRoot (root : p.isRoot = true)
    (other : s.pseudo?.any Pseudo.isRoot = false) :
    (Simple.pseudo p == s) = false := by
  refine Bool.eq_false_iff.2 fun same => ?_
  have alike := Simple.congr_of_beq (f := fun s => s.pseudo?.any Pseudo.isRoot)
    (fun s => by cases s <;> simp [Simple.pseudo?]) same
  rw [other] at alike
  exact Bool.false_ne_true (alike.symm.trans root)

/-- Without an argument, not being `:root` is enough. -/
theorem Simple.isRootless_of_argument? (plain : s.argument? = none)
    (other : s.pseudo?.any Pseudo.isRoot = false) : s.IsRootless := fun p root => by
  rw [Simple.impliedBy_eq_beq _ plain, beq_eq_false_of_isRoot root other]

theorem Simple.isRootless_of_isUniversalOrType (h : s.isUniversalOrType = true) : s.IsRootless := by
  cases s with
  | universal ns => exact isRootless_of_argument? rfl rfl
  | type name => exact isRootless_of_argument? rfl rfl
  | _ => cases h

/-- Unification makes up no condition that asks for the root. -/
theorem unifyKeeps_isRootless : UnifyKeeps Compound.IsRootless :=
  fun _ _ _ h₁ h₂ => forall_mem_unify (fun _ => Simple.isRootless_of_isUniversalOrType) h₁ h₂

theorem Simple.impliedBy_of_beq {t : Simple} (h : (s == t) = true) : s.impliedBy t = true := by
  unfold impliedBy
  rw [h, Bool.true_or]

/-- A compound without such conditions has no `:root`. -/
theorem Compound.IsRootless.isRoot_eq_false (h : Compound.IsRootless c) :
    Compound.isRoot c = false := by
  refine Bool.eq_false_iff.2 fun root => ?_
  obtain ⟨p, hp, root⟩ := Compound.isRoot_iff.1 root
  have unimplied := h _ hp p root
  rw [Simple.impliedBy_of_beq BEq.rfl] at unimplied
  cases unimplied

/-- `:root` has no special meaning for its argument. -/
theorem Pseudo.kind_of_isRoot (h : p.isRoot = true) : p.kind = .other := by
  rw [Pseudo.isRoot, Bool.and_eq_true] at h
  rw [Pseudo.kind, eq_of_beq h.2]
  rfl

/-- **`:root` is above nothing that does not ask for the root.** -/
theorem covers_eq_false_of_isRoot (hr : Compound.isRoot r = true) (hc : Compound.IsRootless c) :
    covers sup r c parents = false := by
  obtain ⟨p, hp, root⟩ := Compound.isRoot_iff.1 hr
  have unmet : (Simple.pseudo p).metBehind sup c parents = false := by
    have apart : (Simple.pseudo p).metBy c = false :=
      List.any_eq_false.2 fun s hs => Bool.eq_false_iff.1 (hc s hs p root)
    cases hl : p.selector with
    | none => simp only [Simple.metBehind, hl, apart]
    | some l => simp only [Simple.metBehind, hl, Pseudo.metBy, Pseudo.kind_of_isRoot root, apart]
  rw [covers, Bool.and_eq_false_iff]
  exact .inl (List.all_eq_false.2 ⟨_, hp, Bool.eq_false_iff.1 unmet⟩)

end Rootless

/-! ## The ends of two rows behind their roots -/

/-- Nothing, or a compound with `:root`. -/
def IsRootStart (start : List Item) : Prop :=
  start = [] ∨ ∃ r, start = [.compound r] ∧ Compound.isRoot r = true

/-- The same step for rows that have `start₁` and `start₂` before them, so behind them
when read from the end. -/
def TrailingStep.behind (start₁ start₂ : List Item) : TrailingStep → TrailingStep
  | .finished => .finished
  | .refused => .refused
  | .last choice rest₁ rest₂ => .last choice (rest₁ ++ start₁) (rest₂ ++ start₂)
  | .next choice rest₁ rest₂ => .next choice (rest₁ ++ start₁) (rest₂ ++ start₂)

section Roots

variable {start start₁ start₂ row row₁ row₂ rest₁ rest₂ : List Item} {c : Compound} {k : Combinator}

theorem IsRootStart.reverse (h : IsRootStart start) : start.reverse = start := by
  rcases h with rfl | ⟨r, rfl, -⟩ <;> rfl

/-- A root before a row does not change the combinators at its end. -/
theorem IsRootStart.endCombinators_append (hs : IsRootStart start)
    (h : IsOpenRow Simple.IsRootless row.reverse) :
    endCombinators (row ++ start) = endCombinators row := by
  rcases row with _ | ⟨c | k, row⟩
  · rcases hs with rfl | ⟨r, rfl, -⟩ <;> rfl
  · rfl
  · rcases reverse_cases h with ⟨-, closed⟩ | ⟨k', c, rest, eq, -, -⟩
    · exact absurd closed (not_isClosedRow_reverse_cons k row)
    · obtain rfl := (List.cons.inj eq).2
      rfl

/-- A root is not implied by what does not ask for one. -/
theorem IsRootStart.dropImplied_append (hs : IsRootStart start) (hc : Compound.IsRootless c) :
    dropImplied c k (row ++ start) = dropImplied c k row ++ start := by
  rcases row with _ | ⟨c' | k', row⟩
  · rcases hs with rfl | ⟨r, rfl, root⟩
    · rfl
    · have below : Compound.isSuperselector r c = false := covers_eq_false_of_isRoot root hc
      rw [List.nil_append, dropImplied, below, Bool.and_false]
      rfl
  · rw [List.cons_append, dropImplied, dropImplied]
    split <;> rfl
  · rfl

/-- **A step at the ends of two rows does not touch their roots.** -/
theorem trailingStep_roots (hs₁ : IsRootStart start₁) (hs₂ : IsRootStart start₂)
    (h₁ : IsOpenRow Simple.IsRootless row₁.reverse)
    (h₂ : IsOpenRow Simple.IsRootless row₂.reverse) :
    trailingStep (row₁ ++ start₁) (row₂ ++ start₂)
      = (trailingStep row₁ row₂).behind start₁ start₂ := by
  have ends₁ := hs₁.endCombinators_append h₁
  have ends₂ := hs₂.endCombinators_append h₂
  rcases reverse_cases h₁ with ⟨end₁, -⟩ | ⟨k₁, c₁, rest₁, rfl, -, hc₁⟩ <;>
    rcases reverse_cases h₂ with ⟨end₂, -⟩ | ⟨k₂, c₂, rest₂, rfl, -, hc₂⟩
  · rw [trailingStep, ends₁, ends₂, end₁, end₂, trailingStep, end₁, end₂]
    rfl
  · rw [trailingStep, ends₁, end₁, trailingStep, end₁]
    exact congrArg (TrailingStep.next _ · _) (hs₁.dropImplied_append hc₂)
  · rw [trailingStep, ends₂, end₂, trailingStep, end₂]
    exact congrArg (TrailingStep.next _ _ ·) (hs₂.dropImplied_append hc₁)
  · rw [List.cons_append, List.cons_append, List.cons_append, List.cons_append, trailingStep_pairs,
      trailingStep_pairs]
    cases mergePair c₁ k₁ c₂ k₂ with
    | none => rfl
    | some m => simp only [Option.elim_some, TrailingStep.behind, List.append_assoc]

/-- Merging the ends of two rows leaves the roots before them, step by step. -/
theorem mergeTrailingOnto_roots (hs₁ : IsRootStart start₁) (hs₂ : IsRootStart start₂)
    (found : List (List (List Item))) (h₁ : IsOpenRow Simple.IsRootless row₁.reverse)
    (h₂ : IsOpenRow Simple.IsRootless row₂.reverse) :
    mergeTrailingOnto found (row₁ ++ start₁) (row₂ ++ start₂)
      = (mergeTrailingOnto found row₁ row₂).map fun split =>
        (split.1, split.2.1 ++ start₁, split.2.2 ++ start₂) := by
  -- Along the run: a step behind the roots is the same step, and leaves rows that are open again.
  induction found, row₁, row₂ using mergeTrailingOnto.induct with
  | case1 found row₁ row₂ step
  | case2 found row₁ row₂ step
  | case3 found row₁ row₂ choice rest₁ rest₂ step =>
    have step' := trailingStep_roots hs₁ hs₂ h₁ h₂
    rw [step] at step'
    rw [mergeTrailingOnto, step', mergeTrailingOnto, step]
    rfl
  | case4 found row₁ row₂ choice rest₁ rest₂ step ih =>
    have step' := trailingStep_roots hs₁ hs₂ h₁ h₂
    rw [step] at step'
    obtain ⟨⟨-, open₁, open₂⟩, -⟩ : IsStep Simple.IsRootless row₁ row₂ (.next choice rest₁ rest₂) :=
      step ▸ isStep_trailingStep (fun _ => Simple.isRootless_of_isUniversalOrType) h₁ h₂
    rw [mergeTrailingOnto, step', mergeTrailingOnto, step]
    exact ih open₁ open₂

/-- **What is found at the ends of two rows does not depend on their roots.** -/
theorem mergeTrailing_roots (hs₁ : IsRootStart start₁) (hs₂ : IsRootStart start₂)
    (h₁ : IsOpenRow Simple.IsRootless row₁) (h₂ : IsOpenRow Simple.IsRootless row₂) :
    mergeTrailing (start₁ ++ row₁) (start₂ ++ row₂)
      = (mergeTrailing row₁ row₂).map fun split =>
        (split.1, start₁ ++ split.2.1, start₂ ++ split.2.2) := by
  have run := mergeTrailingOnto_roots hs₁ hs₂ [] ((List.reverse_reverse row₁).symm ▸ h₁)
    ((List.reverse_reverse row₂).symm ▸ h₂)
  rw [mergeTrailing, List.reverse_append, List.reverse_append, hs₁.reverse, hs₂.reverse, run,
    mergeTrailing, Option.map_map, Option.map_map]
  congr 1
  funext split
  simp [hs₁.reverse, hs₂.reverse]

end Roots

/-! ## Rows that are tied to what stands behind them -/

/-- Read from its end, the row is made of combinators, each with a compound before it. -/
inductive IsPaired : List Item → Prop where
  | nil : IsPaired []
  | pair (k : Combinator) (c : Compound) {row : List Item} :
      IsPaired row → IsPaired (.combinator k :: .compound c :: row)

section Paired

variable {G : Simple → Prop} {row row₁ row₂ rest₁ rest₂ : List Item} {c : Compound} {k : Combinator}

/-- A row in which every compound is tied to the next cannot end in a compound. -/
theorem IsPaired.eq_nil (h : IsPaired row) (closed : IsClosedRow G row.reverse) : row = [] := by
  cases h with
  | nil => rfl
  | pair k c _ => exact absurd closed (not_isClosedRow_reverse_cons k _)

theorem isPaired_pair_iff : IsPaired (.combinator k :: .compound c :: row) ↔ IsPaired row := by
  refine ⟨fun h => ?_, .pair k c⟩
  cases h with
  | pair _ _ h => exact h

/-- Pairs may be put back at the end. -/
theorem isPaired_back {back : List Item} (hback : back = [] ∨ back = (pairItems c k).reverse)
    (h : IsPaired row) : IsPaired (back ++ row) := by
  rcases hback with rfl | rfl
  · exact h
  · exact .pair k c h

/-- A step leaves a tied row tied. -/
theorem isPaired_trailingStep (element : ∀ s, s.isUniversalOrType = true → G s)
    (h₁ : IsOpenRow G row₁.reverse) (h₂ : IsOpenRow G row₂.reverse) {choice : List (List Item)}
    (step : trailingStep row₁ row₂ = .next choice rest₁ rest₂) :
    (IsPaired row₁ → IsPaired rest₁) ∧ (IsPaired row₂ → IsPaired rest₂) := by
  rcases reverse_cases h₁ with ⟨end₁, closed₁⟩ | ⟨k₁, c₁, rest₁', rfl, -, hc₁⟩ <;>
    rcases reverse_cases h₂ with ⟨end₂, closed₂⟩ | ⟨k₂, c₂, rest₂', rfl, -, hc₂⟩
  · rw [trailingStep, end₁, end₂] at step
    cases step
  · rw [trailingStep, end₁] at step
    cases step
    refine ⟨fun paired => ?_, isPaired_pair_iff.1⟩
    rw [paired.eq_nil closed₁]
    exact .nil
  · rw [trailingStep, end₂] at step
    cases step
    refine ⟨isPaired_pair_iff.1, fun paired => ?_⟩
    rw [paired.eq_nil closed₂]
    exact .nil
  · rw [trailingStep_pairs] at step
    cases hm : mergePair c₁ k₁ c₂ k₂ with
    | none =>
      rw [hm] at step
      cases step
    | some m =>
      obtain ⟨-, back₁, back₂⟩ := mergePair_isTrailing element hc₁ hc₂ hm
      rw [hm] at step
      cases step
      exact ⟨fun paired => isPaired_back back₁ (isPaired_pair_iff.1 paired),
        fun paired => isPaired_back back₂ (isPaired_pair_iff.1 paired)⟩

/-- **Nothing is left of a tied row.** -/
theorem eq_nil_of_mergeTrailingOnto (element : ∀ s, s.isUniversalOrType = true → G s)
    {found choices : List (List (List Item))} (h₁ : IsOpenRow G row₁.reverse)
    (h₂ : IsOpenRow G row₂.reverse)
    (h : mergeTrailingOnto found row₁ row₂ = some (choices, rest₁, rest₂)) :
    (IsPaired row₁ → rest₁ = []) ∧ (IsPaired row₂ → rest₂ = []) := by
  -- Tied rows stay tied, and where the run stops the rows are closed, which no tied row is.
  induction found, row₁, row₂ using mergeTrailingOnto.induct with
  | case1 found row₁ row₂ step =>
    obtain ⟨closed₁, closed₂⟩ : IsStep G row₁ row₂ .finished :=
      step ▸ isStep_trailingStep element h₁ h₂
    rw [mergeTrailingOnto, step] at h
    cases h
    exact ⟨fun paired => paired.eq_nil closed₁, fun paired => paired.eq_nil closed₂⟩
  | case2 found row₁ row₂ step =>
    rw [mergeTrailingOnto, step] at h
    cases h
  | case3 found row₁ row₂ choice rest₁' rest₂' step =>
    have impossible : IsStep G row₁ row₂ (.last choice rest₁' rest₂') :=
      step ▸ isStep_trailingStep element h₁ h₂
    exact impossible.elim
  | case4 found row₁ row₂ choice rest₁' rest₂' step ih =>
    obtain ⟨⟨-, open₁, open₂⟩, -⟩ : IsStep G row₁ row₂ (.next choice rest₁' rest₂') :=
      step ▸ isStep_trailingStep element h₁ h₂
    obtain ⟨paired₁, paired₂⟩ := isPaired_trailingStep element h₁ h₂ step
    rw [mergeTrailingOnto, step] at h
    obtain ⟨none₁, none₂⟩ := ih open₁ open₂ h
    exact ⟨fun paired => none₁ (paired₁ paired), fun paired => none₂ (paired₂ paired)⟩

/-- A row of pairs is used up by merging its end. -/
theorem eq_nil_of_mergeTrailing (element : ∀ s, s.isUniversalOrType = true → G s)
    {choices : List (List (List Item))} (h₁ : IsOpenRow G row₁) (h₂ : IsOpenRow G row₂)
    (h : mergeTrailing row₁ row₂ = some (choices, rest₁, rest₂)) :
    (IsPaired row₁.reverse → rest₁ = []) ∧ (IsPaired row₂.reverse → rest₂ = []) := by
  obtain ⟨⟨choices, rest₁', rest₂'⟩, found, eq⟩ := Option.map_eq_some_iff.1 h
  cases eq
  obtain ⟨none₁, none₂⟩ := eq_nil_of_mergeTrailingOnto element
    ((List.reverse_reverse row₁).symm ▸ h₁) ((List.reverse_reverse row₂).symm ▸ h₂) found
  exact ⟨fun paired => List.reverse_eq_nil_iff.2 (none₁ paired),
    fun paired => List.reverse_eq_nil_iff.2 (none₂ paired)⟩

/-- One of two items is a combinator. -/
def Item.Tied (a b : Item) : Prop := a.isCombinator = true ∨ b.isCombinator = true

instance Item.decidableTied : DecidableRel Item.Tied := fun a b =>
  inferInstanceAs (Decidable (a.isCombinator = true ∨ b.isCombinator = true))

/-- No two compounds stand side by side. -/
def IsOneGroup (row : List Item) : Prop := row.IsChain Item.Tied

instance decidableIsOneGroup (row : List Item) : Decidable (IsOneGroup row) :=
  inferInstanceAs (Decidable (row.IsChain Item.Tied))

/-- **A row is one group exactly if all before its last compound is tied to it.** -/
theorem isOneGroup_concat_iff (h : IsOpenRow G row) :
    IsOneGroup (row ++ [.compound c]) ↔ IsPaired row.reverse := by
  -- A compound and its combinator come off the end together, so the induction is on the length.
  induction len : row.length using Nat.strong_induction_on generalizing row c with
  | _ n ih =>
    rcases h.cases_last with rfl | ⟨init, d, rfl, hinit, -⟩ | ⟨init, d, k, rfl, hinit, -⟩
    · exact iff_of_true (.singleton _) .nil
    · refine iff_of_false (fun one => ?_) fun paired => ?_
      · rw [IsOneGroup, List.append_assoc, List.isChain_append] at one
        have neighbours := (List.isChain_cons_cons.1 one.2.1).1
        rcases neighbours with joined | joined <;> cases joined
      · rw [List.reverse_concat] at paired
        cases paired
    · have shorter : init.length < n := by
        rw [← len, List.length_append]
        exact Nat.lt_add_of_pos_right (Nat.succ_pos _)
      have earlier := ih init.length shorter hinit rfl (c := d)
      have back : (init ++ [Item.compound d, .combinator k]).reverse =
          .combinator k :: .compound d :: init.reverse := by simp
      have split : init ++ [Item.compound d, Item.combinator k] ++ [Item.compound c] =
          (init ++ [Item.compound d]) ++ [Item.combinator k, Item.compound c] := by simp
      rw [back, isPaired_pair_iff, ← earlier, IsOneGroup, IsOneGroup, split, List.isChain_append]
      constructor
      · exact fun one => one.1
      · intro one
        refine ⟨one, List.isChain_pair.2 (.inl rfl), fun a ha b hb => .inr ?_⟩
        obtain rfl := Option.some.inj hb
        rfl

end Paired

end SelectorAlgebra
