import SelectorAlgebra.Proofs.PlainCompound
import SelectorAlgebra.Proofs.RowShapes

/-!
# Proofs/TrailingShapes — what two open rows end in

Before two rows of parents are interleaved, the compounds that combinators bind to the element are
taken off their ends and merged.  For open rows, whatever is found there is a row that ends in a
combinator (`IsTrailing`), and what is left of the two is closed (`isSplit_mergeTrailing`): nothing
is found exactly if both rows are closed themselves.

Merging unifies compounds, and the only conditions that unifying brings in are element names
(`Simple.mem_unify`); so a property of conditions that element names have is kept.
-/

namespace SelectorAlgebra

/-! ## The conditions of a unified compound -/

section Unify

variable {s t : Simple} {c found : Compound} {ns : Option Namespace} {p : Pseudo}

/-- Element conditions unify to an element condition. -/
theorem isUniversalOrType_of_unifyElement {s₁ s₂ : Simple}
    (h : Simple.unifyElement s₁ s₂ = some t) : t.isUniversalOrType = true := by
  simp only [Simple.unifyElement, Option.bind_eq_bind, Option.bind_eq_some_iff] at h
  obtain ⟨_, _, _, _, _, _, name, _, h⟩ := h
  cases name <;> cases h <;> rfl

/-- Unifying with `*` makes up at most an element condition. -/
theorem mem_unifyUniversal (h : unifyUniversal ns c = some found) (mem : t ∈ found) :
    t ∈ c ∨ t.isUniversalOrType = true := by
  unfold unifyUniversal at h
  split at h
  · cases h
    exact .inr (List.mem_singleton.1 mem ▸ rfl)
  · rename_i first rest
    split at h
    · obtain ⟨u, hu, rfl⟩ := Option.map_eq_some_iff.1 h
      rcases List.mem_cons.1 mem with rfl | mem
      · exact .inr (isUniversalOrType_of_unifyElement hu)
      · exact .inl (List.mem_cons_of_mem _ mem)
    split at h
    · cases h
    split at h
    · cases h
      exact .inl mem
    · cases h
      rcases List.mem_cons.1 mem with rfl | mem
      · exact .inr rfl
      · exact .inl mem

theorem mem_unifyType {name : QualifiedName} (h : unifyType name c = some found) (mem : t ∈ found) :
    t ∈ c ∨ t.isUniversalOrType = true := by
  unfold unifyType at h
  split at h
  · split at h
    · obtain ⟨u, hu, rfl⟩ := Option.map_eq_some_iff.1 h
      rcases List.mem_cons.1 mem with rfl | mem
      · exact .inr (isUniversalOrType_of_unifyElement hu)
      · exact .inl (List.mem_cons_of_mem _ mem)
    · cases h
      rcases List.mem_cons.1 mem with rfl | mem
      · exact .inr rfl
      · exact .inl mem
  · cases h
    exact .inr (List.mem_singleton.1 mem ▸ rfl)

theorem mem_insertPseudo (h : insertPseudo p c = some found) (mem : t ∈ found) :
    t = .pseudo p ∨ t ∈ c := by
  unfold insertPseudo at h
  split at h
  · cases h
    exact .inr mem
  split at h
  · split at h
    · cases h
    · cases h
      obtain ⟨u, hu, mem⟩ := List.mem_flatMap.1 mem
      split at mem
      · rcases List.mem_cons.1 mem with rfl | mem
        · exact .inl rfl
        · exact .inr (List.mem_singleton.1 mem ▸ hu)
      · exact .inr (List.mem_singleton.1 mem ▸ hu)
  · cases h
    exact (List.mem_append.1 mem).symm.imp_left List.mem_singleton.1

theorem mem_unifyHost (h : unifyHost p c = some found) (mem : t ∈ found) :
    t = .pseudo p ∨ t ∈ c := by
  unfold unifyHost at h
  split at h
  · exact mem_insertPseudo h mem
  · cases h

/-- The special cases make up at most an element condition. -/
theorem mem_unifyWithLone (h : unifyWithLone s c = some (some found)) (mem : t ∈ found) :
    t = s ∨ t ∈ c ∨ t.isUniversalOrType = true := by
  unfold unifyWithLone at h
  split at h
  · rcases mem_unifyUniversal (Option.some.inj h) mem with mem | element
    · exact .inl (List.mem_singleton.1 mem)
    · exact .inr (.inr element)
  · split at h
    · rcases mem_unifyHost (Option.some.inj h) mem with rfl | mem
      · exact .inr (.inl List.mem_cons_self)
      · exact .inl (List.mem_singleton.1 mem)
    · cases h
  · cases h

/-- The general case makes up at most an element condition. -/
theorem mem_unifyOrdinary (h : unifyOrdinary s c = some found) (mem : t ∈ found) :
    t = s ∨ t ∈ c ∨ t.isUniversalOrType = true := by
  unfold unifyOrdinary at h
  split at h
  · rename_i result hresult
    subst h
    exact mem_unifyWithLone hresult mem
  · cases h
    exact (List.mem_cons.1 (insertBeforePseudos_adds.only mem)).imp_right .inl

/-- The only conditions that unifying brings in are element names. -/
theorem Simple.mem_unify (h : s.unify c = some found) (mem : t ∈ found) :
    t = s ∨ t ∈ c ∨ t.isUniversalOrType = true := by
  unfold Simple.unify at h
  split at h
  · exact .inr (mem_unifyUniversal h mem)
  · exact .inr (mem_unifyType h mem)
  · split at h
    · cases h
    · exact mem_unifyOrdinary h mem
  · split at h
    · exact (mem_unifyHost h mem).imp_right .inl
    · split at h
      · rename_i result hresult
        subst h
        exact mem_unifyWithLone hresult mem
      · exact (mem_insertPseudo h mem).imp_right .inl
  · exact mem_unifyOrdinary h mem

/-- Unifying keeps a property of all conditions, if every element name has it. -/
theorem forall_mem_unify {G : Simple → Prop} (element : ∀ s, s.isUniversalOrType = true → G s)
    {c₁ c₂ : Compound} (h₁ : ∀ s ∈ c₁, G s) (h₂ : ∀ s ∈ c₂, G s)
    (h : Compound.unify c₁ c₂ = some found) : ∀ s ∈ found, G s := by
  induction c₁ generalizing c₂ with
  | nil =>
    obtain rfl : c₂ = found := Option.some.inj h
    exact h₂
  | cons s c₁ ih =>
    rw [List.forall_mem_cons] at h₁
    rw [Compound.unify, List.foldlM_cons, Option.bind_eq_bind, Option.bind_eq_some_iff] at h
    obtain ⟨next, hnext, h⟩ := h
    refine ih h₁.2 (fun t mem => ?_) h
    rcases Simple.mem_unify hnext mem with rfl | mem | name
    · exact h₁.1
    · exact h₂ t mem
    · exact element t name

end Unify

/-! ## Trailing combinators -/

section Trailing

variable {G : Simple → Prop} {row row₁ row₂ rest₁ rest₂ : List Item} {c c₁ c₂ : Compound}
  {k k₁ k₂ : Combinator} {choice : List (List Item)}

/-- An open row that ends in a combinator. -/
structure IsJoinedRow (G : Simple → Prop) (row : List Item) : Prop extends IsOpenRow G row where
  joined : ∃ init k, row = init ++ [.combinator k]

/-- Alternatives for what stands before an element that is bound to it by combinators. -/
structure IsTrailing (G : Simple → Prop) (choice : List (List Item)) : Prop where
  filled : choice ≠ []
  joined : ∀ option ∈ choice, IsJoinedRow G option

/-- A row that ends in a combinator does not end in a compound. -/
theorem IsJoinedRow.not_isClosedRow (h : IsJoinedRow G row) : ¬ IsClosedRow G row := by
  obtain ⟨init, k, rfl⟩ := h.joined
  exact fun closed => absurd (closed.last (.combinator k) (by simp)) Bool.false_ne_true

/-- What stands before does not change the end. -/
theorem IsJoinedRow.append_left (h : IsJoinedRow G row) (h' : IsOpenRow G row₁) :
    IsJoinedRow G (row₁ ++ row) := by
  obtain ⟨init, k, rfl⟩ := h.joined
  exact ⟨h'.append h.toIsOpenRow, row₁ ++ init, k, (List.append_assoc ..).symm⟩

theorem isJoinedRow_pair (h : ∀ s ∈ c, G s) (k : Combinator) : IsJoinedRow G (pairItems c k) :=
  ⟨(isClosedRow_compound h).concat_combinator (by simp) k, [.compound c], k, rfl⟩

theorem isTrailing_pair (h : ∀ s ∈ c, G s) (k : Combinator) : IsTrailing G [pairItems c k] :=
  ⟨by simp, by simpa using isJoinedRow_pair h k⟩

/-- Alternatives that end in a combinator, with the unified pair if there is one. -/
theorem isTrailing_cons_unified (element : ∀ s, s.isUniversalOrType = true → G s)
    (h₁ : ∀ s ∈ c₁, G s) (h₂ : ∀ s ∈ c₂, G s) (k : Combinator) {first : List Item}
    {options : List (List Item)} (h : ∀ option ∈ first :: options, IsJoinedRow G option) :
    IsTrailing G (first :: options ++ ((Compound.unify c₁ c₂).map (pairItems · k)).toList) := by
  refine ⟨by simp, fun option mem => ?_⟩
  rcases List.mem_append.1 mem with mem | mem
  · exact h option mem
  · rw [Option.mem_toList, Option.map_eq_some_iff] at mem
    obtain ⟨c, hc, rfl⟩ := mem
    exact isJoinedRow_pair (forall_mem_unify element h₁ h₂ hc) k

theorem isTrailing_mergeFollowing (element : ∀ s, s.isUniversalOrType = true → G s)
    (h₁ : ∀ s ∈ c₁, G s) (h₂ : ∀ s ∈ c₂, G s) : IsTrailing G (mergeFollowing c₁ c₂) := by
  have pair₁ := isJoinedRow_pair h₁ .followingSibling
  have pair₂ := isJoinedRow_pair h₂ .followingSibling
  unfold mergeFollowing
  split
  · exact isTrailing_pair h₂ _
  split
  · exact isTrailing_pair h₁ _
  · refine isTrailing_cons_unified element h₁ h₂ _ ?_
    rw [List.forall_mem_cons, List.forall_mem_singleton]
    exact ⟨pair₂.append_left pair₁.toIsOpenRow, pair₁.append_left pair₂.toIsOpenRow⟩

theorem isTrailing_mergeFollowingNext (element : ∀ s, s.isUniversalOrType = true → G s)
    (h₁ : ∀ s ∈ c₁, G s) (h₂ : ∀ s ∈ c₂, G s) : IsTrailing G (mergeFollowingNext c₁ c₂) := by
  unfold mergeFollowingNext
  split
  · exact isTrailing_pair h₂ _
  · refine isTrailing_cons_unified element h₁ h₂ _ ?_
    rw [List.forall_mem_singleton]
    exact (isJoinedRow_pair h₂ _).append_left (isJoinedRow_pair h₁ _).toIsOpenRow

/-- The alternatives for two pairs are trailing, and what is put back are the pairs. -/
theorem mergePair_isTrailing (element : ∀ s, s.isUniversalOrType = true → G s)
    (h₁ : ∀ s ∈ c₁, G s) (h₂ : ∀ s ∈ c₂, G s) {m : PairMerge} (h : mergePair c₁ k₁ c₂ k₂ = some m) :
    IsTrailing G m.choice ∧ (m.back₁ = [] ∨ m.back₁ = (pairItems c₁ k₁).reverse) ∧
      (m.back₂ = [] ∨ m.back₂ = (pairItems c₂ k₂).reverse) := by
  unfold mergePair at h
  split at h
  · cases h
    exact ⟨isTrailing_mergeFollowing element h₁ h₂, .inl rfl, .inl rfl⟩
  · cases h
    exact ⟨isTrailing_mergeFollowingNext element h₁ h₂, .inl rfl, .inl rfl⟩
  · cases h
    exact ⟨isTrailing_mergeFollowingNext element h₂ h₁, .inl rfl, .inl rfl⟩
  · cases h
    exact ⟨isTrailing_pair h₂ _, .inr rfl, .inl rfl⟩
  · cases h
    exact ⟨isTrailing_pair h₂ _, .inr rfl, .inl rfl⟩
  · cases h
    exact ⟨isTrailing_pair h₁ _, .inl rfl, .inr rfl⟩
  · cases h
    exact ⟨isTrailing_pair h₁ _, .inl rfl, .inr rfl⟩
  all_goals
    obtain ⟨c, hc, rfl⟩ := Option.map_eq_some_iff.1 h
    exact ⟨isTrailing_pair (forall_mem_unify element h₁ h₂ hc) _, .inl rfl, .inl rfl⟩

/-- An open row, read from its end: it is closed, or a compound and a combinator stand there. -/
theorem reverse_cases (h : IsOpenRow G row.reverse) :
    (endCombinators row = [] ∧ IsClosedRow G row.reverse) ∨
      ∃ k c rest, row = .combinator k :: .compound c :: rest ∧ IsOpenRow G rest.reverse ∧
        ∀ s ∈ c, G s := by
  rcases h.cases_last with empty | ⟨init, c, hrow, hinit, hc⟩ | ⟨init, c, k, hrow, hinit, hc⟩
  · rw [List.reverse_eq_nil_iff] at empty
    subst empty
    exact .inl ⟨rfl, isClosedRow_nil⟩
  · have closed := hinit.concat hc
    rw [← hrow] at closed
    obtain rfl : row = .compound c :: init.reverse := by simpa using congrArg List.reverse hrow
    exact .inl ⟨rfl, closed⟩
  · obtain rfl : row = .combinator k :: .compound c :: init.reverse := by
      simpa using congrArg List.reverse hrow
    exact .inr ⟨k, c, init.reverse, rfl, by simpa using hinit, hc⟩

/-- Dropping an implied compound leaves an open row. -/
theorem isOpenRow_dropImplied (h : IsOpenRow G row.reverse) (c : Compound) (k : Combinator) :
    IsOpenRow G (dropImplied c k row).reverse := by
  unfold dropImplied
  split
  · split
    · exact h.of_prefix (by simp)
    · exact h
  · exact h

theorem isOpenRow_back {back rest : List Item} (hback : back = [] ∨ back = (pairItems c k).reverse)
    (hc : ∀ s ∈ c, G s) (h : IsOpenRow G rest.reverse) : IsOpenRow G (back ++ rest).reverse := by
  rcases hback with rfl | rfl
  · exact h
  · rw [List.reverse_append, List.reverse_reverse]
    exact h.append (isJoinedRow_pair hc k).toIsOpenRow

theorem not_isClosedRow_reverse_cons (k : Combinator) (rest : List Item) :
    ¬ IsClosedRow G (.combinator k :: rest).reverse :=
  fun closed => absurd (closed.last (.combinator k) (by simp)) Bool.false_ne_true

/-- What a look at the ends of two open rows, read from there, may lead to. -/
def IsStep (G : Simple → Prop) (row₁ row₂ : List Item) : TrailingStep → Prop
  | .finished => IsClosedRow G row₁.reverse ∧ IsClosedRow G row₂.reverse
  | .refused => True
  | .last _ _ _ => False
  | .next choice rest₁ rest₂ =>
    (IsTrailing G choice ∧ IsOpenRow G rest₁.reverse ∧ IsOpenRow G rest₂.reverse) ∧
      ¬ (IsClosedRow G row₁.reverse ∧ IsClosedRow G row₂.reverse)

/-- Two rows that both end in a pair take the step of the pairs. -/
theorem trailingStep_pairs (c₁ c₂ : Compound) (k₁ k₂ : Combinator) (rest₁ rest₂ : List Item) :
    trailingStep (.combinator k₁ :: .compound c₁ :: rest₁) (.combinator k₂ :: .compound c₂ :: rest₂)
      = (mergePair c₁ k₁ c₂ k₂).elim .refused
        fun m => .next m.choice (m.back₁ ++ rest₁) (m.back₂ ++ rest₂) := by
  have ends : ∀ k c rest, endCombinators (.combinator k :: .compound c :: rest) = [k] :=
    fun _ _ _ => rfl
  have before : ∀ k c rest,
      beforeCombinators (.combinator k :: .compound c :: rest) = .compound c :: rest :=
    fun _ _ _ => rfl
  cases hm : mergePair c₁ k₁ c₂ k₂ with
  | none => simp only [trailingStep, ends, before, hm, Option.elim_none]
  | some m => simp only [trailingStep, ends, before, hm, Option.elim_some]

/-- Every step is of the shape that `IsStep` describes. -/
theorem isStep_trailingStep (element : ∀ s, s.isUniversalOrType = true → G s)
    (h₁ : IsOpenRow G row₁.reverse) (h₂ : IsOpenRow G row₂.reverse) :
    IsStep G row₁ row₂ (trailingStep row₁ row₂) := by
  rcases reverse_cases h₁ with ⟨end₁, closed₁⟩ | ⟨k₁, c₁, rest₁, rfl, hrest₁, hc₁⟩ <;>
    rcases reverse_cases h₂ with ⟨end₂, closed₂⟩ | ⟨k₂, c₂, rest₂, rfl, hrest₂, hc₂⟩
  · rw [trailingStep, end₁, end₂]
    exact ⟨closed₁, closed₂⟩
  · rw [trailingStep, end₁]
    exact ⟨⟨isTrailing_pair hc₂ k₂, isOpenRow_dropImplied h₁ c₂ k₂, hrest₂⟩,
      fun closed => not_isClosedRow_reverse_cons _ _ closed.2⟩
  · rw [trailingStep, end₂]
    exact ⟨⟨isTrailing_pair hc₁ k₁, hrest₁, isOpenRow_dropImplied h₂ c₁ k₁⟩,
      fun closed => not_isClosedRow_reverse_cons _ _ closed.1⟩
  · rw [trailingStep_pairs]
    cases hm : mergePair c₁ k₁ c₂ k₂ with
    | none => trivial
    | some m =>
      obtain ⟨choice, back₁, back₂⟩ := mergePair_isTrailing element hc₁ hc₂ hm
      exact ⟨⟨choice, isOpenRow_back back₁ hc₁ hrest₁, isOpenRow_back back₂ hc₂ hrest₂⟩,
        fun closed => not_isClosedRow_reverse_cons _ _ closed.1⟩

/-- What is found at the ends of two open rows: trailing choices, and closed rows before them; there
are none exactly if the rows are closed themselves. -/
structure IsSplit (G : Simple → Prop) (row₁ row₂ : List Item) (choices : List (List (List Item)))
    (rest₁ rest₂ : List Item) : Prop where
  closed₁ : IsClosedRow G rest₁
  closed₂ : IsClosedRow G rest₂
  trailing : ∀ choice ∈ choices, IsTrailing G choice
  none_iff : choices = [] ↔ IsClosedRow G row₁ ∧ IsClosedRow G row₂
  whole : choices = [] → rest₁ = row₁ ∧ rest₂ = row₂

/-- The steps together split the rows; the induction follows the recursion. -/
theorem exists_isSplit_of_mergeTrailingOnto (element : ∀ s, s.isUniversalOrType = true → G s)
    {found choices : List (List (List Item))} (h₁ : IsOpenRow G row₁.reverse)
    (h₂ : IsOpenRow G row₂.reverse)
    (h : mergeTrailingOnto found row₁ row₂ = some (choices, rest₁, rest₂)) :
    ∃ added, choices = added ++ found ∧
      IsSplit G row₁.reverse row₂.reverse added rest₁.reverse rest₂.reverse := by
  induction found, row₁, row₂ using mergeTrailingOnto.induct with
  | case1 found row₁ row₂ step =>
    obtain ⟨closed₁, closed₂⟩ : IsStep G row₁ row₂ .finished :=
      step ▸ isStep_trailingStep element h₁ h₂
    rw [mergeTrailingOnto, step] at h
    obtain ⟨rfl, rfl, rfl⟩ : found = choices ∧ row₁ = rest₁ ∧ row₂ = rest₂ := by simpa using h
    exact ⟨[], rfl, closed₁, closed₂, nofun, ⟨fun _ => ⟨closed₁, closed₂⟩, fun _ => rfl⟩,
      fun _ => ⟨rfl, rfl⟩⟩
  | case2 found row₁ row₂ step =>
    rw [mergeTrailingOnto, step] at h
    cases h
  | case3 found row₁ row₂ choice rest₁' rest₂' step =>
    have impossible : IsStep G row₁ row₂ (.last choice rest₁' rest₂') :=
      step ▸ isStep_trailingStep element h₁ h₂
    exact impossible.elim
  | case4 found row₁ row₂ choice rest₁' rest₂' step ih =>
    have next : IsStep G row₁ row₂ (.next choice rest₁' rest₂') :=
      step ▸ isStep_trailingStep element h₁ h₂
    obtain ⟨⟨trailing, open₁, open₂⟩, notClosed⟩ := next
    rw [mergeTrailingOnto, step] at h
    obtain ⟨added, rfl, split⟩ := ih open₁ open₂ h
    refine ⟨added ++ [choice], by simp, split.closed₁, split.closed₂, ?_, ?_, ?_⟩
    · rw [List.forall_mem_append, List.forall_mem_singleton]
      exact ⟨split.trailing, trailing⟩
    · exact ⟨fun empty => absurd empty (by simp), fun closed => absurd closed notClosed⟩
    · exact fun empty => absurd empty (by simp)

/-- The run that starts with nothing found. -/
theorem isSplit_mergeTrailing (element : ∀ s, s.isUniversalOrType = true → G s)
    {choices : List (List (List Item))} (h₁ : IsOpenRow G row₁) (h₂ : IsOpenRow G row₂)
    (h : mergeTrailing row₁ row₂ = some (choices, rest₁, rest₂)) :
    IsSplit G row₁ row₂ choices rest₁ rest₂ := by
  obtain ⟨⟨choices, rest₁', rest₂'⟩, found, eq⟩ := Option.map_eq_some_iff.1 h
  cases eq
  obtain ⟨added, hadded, split⟩ := exists_isSplit_of_mergeTrailingOnto element
    ((List.reverse_reverse row₁).symm ▸ h₁) ((List.reverse_reverse row₂).symm ▸ h₂) found
  rw [List.append_nil] at hadded
  subst hadded
  rwa [List.reverse_reverse, List.reverse_reverse] at split

end Trailing

end SelectorAlgebra
