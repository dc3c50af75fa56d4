import Mathlib.Data.List.Chain
import SelectorAlgebra.Unification.Weave
import SelectorAlgebra.Validity

/-!
# Proofs/RowShapes — rows in which combinators stand behind compounds

An **open** row is one in which every combinator stands right behind a compound; it may end in a
combinator, as the parents of an element do.  A **closed** row is an open one that does not.  Both
carry a property `G` that all conditions of the row have.

* `IsOpenRow.append` — open rows may be put behind one another, whatever they end in;
* `isValidRow_iff` — a row is valid if it is a closed row with something in it, behind no more
  combinators than are allowed;
* `isClosedRow_of_mem_groupItems` — the groups of a closed row are closed.
-/

namespace SelectorAlgebra

variable {G : Simple → Prop} {row row' : List Item}

/-- A single compound is a row of one compound. -/
theorem Complex.singleCompound?_eq_some_iff {c : Complex} {d : Compound} :
    c.singleCompound? = some d ↔ c.items = [.compound d] := by
  unfold singleCompound?
  split
  · rename_i items
    simp [items]
  · rename_i other
    exact iff_of_false (Option.some_ne_none d).symm (other d)

theorem mem_filterMap_compound? {c : Compound} :
    c ∈ row.filterMap Item.compound? ↔ .compound c ∈ row := by
  rw [List.mem_filterMap]
  constructor
  · rintro ⟨item, hitem, eq⟩
    cases item with
    | compound d => exact Option.some.inj eq ▸ hitem
    | combinator k => cases eq
  · exact fun hc => ⟨_, hc, rfl⟩

/-- Two items may stand side by side. -/
def Item.Beside (a b : Item) : Prop := a.isCompound = true ∨ b.isCompound = true

/-- Every combinator stands right behind a compound, and all conditions have the property. -/
structure IsOpenRow (G : Simple → Prop) (row : List Item) : Prop where
  beside : row.IsChain Item.Beside
  head : ∀ item ∈ row.head?, item.isCompound = true
  conditions : ∀ c, .compound c ∈ row → ∀ s ∈ c, G s

/-- An open row that does not end in a combinator. -/
structure IsClosedRow (G : Simple → Prop) (row : List Item) : Prop extends IsOpenRow G row where
  last : ∀ item ∈ row.getLast?, item.isCompound = true

/-- A weaker property of conditions. -/
theorem IsOpenRow.mono {G' : Simple → Prop} (h : IsOpenRow G row) (imp : ∀ s, G s → G' s) :
    IsOpenRow G' row :=
  ⟨h.beside, h.head, fun c hc s hs => imp s (h.conditions c hc s hs)⟩

/-- The shape of a closed row does not hang on its conditions. -/
theorem IsClosedRow.of_conditions {G' : Simple → Prop} (h : IsClosedRow G row)
    (conditions : ∀ c, .compound c ∈ row → ∀ s ∈ c, G' s) : IsClosedRow G' row :=
  ⟨⟨h.beside, h.head, conditions⟩, h.last⟩

theorem IsClosedRow.mono {G' : Simple → Prop} (h : IsClosedRow G row) (imp : ∀ s, G s → G' s) :
    IsClosedRow G' row :=
  h.of_conditions fun c hc s hs => imp s (h.conditions c hc s hs)

theorem isOpenRow_nil : IsOpenRow G [] := ⟨.nil, nofun, nofun⟩

theorem isClosedRow_nil : IsClosedRow G [] := ⟨isOpenRow_nil, nofun⟩

/-- One compound is a closed row. -/
theorem isClosedRow_compound {c : Compound} (h : ∀ s ∈ c, G s) : IsClosedRow G [.compound c] := by
  refine ⟨⟨.singleton _, ?_, fun d hd => ?_⟩, ?_⟩
  · rintro _ ⟨⟩
    rfl
  · obtain rfl := Item.compound.inj (List.mem_singleton.1 hd)
    exact h
  · rintro _ ⟨⟩
    rfl

/-- Open rows follow one another, since each ends where the next may begin. -/
theorem IsOpenRow.append (h : IsOpenRow G row) (h' : IsOpenRow G row') :
    IsOpenRow G (row ++ row') := by
  refine ⟨h.beside.append h'.beside fun _ _ item hitem => .inr (h'.head item hitem),
    fun item hitem => ?_,
    fun c hc => ?_⟩
  · rw [List.head?_append, Option.mem_def, Option.or_eq_some_iff] at hitem
    rcases hitem with hitem | ⟨-, hitem⟩
    · exact h.head item hitem
    · exact h'.head item hitem
  · exact (List.mem_append.1 hc).elim (h.conditions c) (h'.conditions c)

theorem IsClosedRow.append (h : IsClosedRow G row) (h' : IsClosedRow G row') :
    IsClosedRow G (row ++ row') := by
  refine ⟨h.toIsOpenRow.append h'.toIsOpenRow, fun item hitem => ?_⟩
  rw [List.getLast?_append, Option.mem_def, Option.or_eq_some_iff] at hitem
  rcases hitem with hitem | ⟨-, hitem⟩
  · exact h'.last item hitem
  · exact h.last item hitem

/-- Closed rows, any number of them. -/
theorem isClosedRow_flatten {rows : List (List Item)} (h : ∀ row ∈ rows, IsClosedRow G row) :
    IsClosedRow G rows.flatten := by
  induction rows with
  | nil => exact isClosedRow_nil
  | cons row rows ih =>
    rw [List.forall_mem_cons] at h
    exact h.1.append (ih h.2)

/-- The beginning of an open row is open. -/
theorem IsOpenRow.of_prefix (h : IsOpenRow G row') (sub : row <+: row') : IsOpenRow G row := by
  obtain ⟨rest, rfl⟩ := sub
  refine ⟨(List.isChain_append.1 h.beside).1, fun item hitem => h.head item ?_,
    fun c hc => h.conditions c (List.mem_append_left _ hc)⟩
  rw [List.head?_append, Option.mem_def.1 hitem]
  rfl

/-- An open row is closed by a compound. -/
theorem IsOpenRow.concat (h : IsOpenRow G row) {c : Compound} (hc : ∀ s ∈ c, G s) :
    IsClosedRow G (row ++ [.compound c]) := by
  refine ⟨h.append (isClosedRow_compound hc).toIsOpenRow, fun item hitem => ?_⟩
  rw [List.getLast?_concat, Option.mem_some_iff] at hitem
  rw [← hitem]
  rfl

/-- A closed row with something in it may be followed by a combinator. -/
theorem IsClosedRow.concat_combinator (h : IsClosedRow G row) (filled : row ≠ []) (k : Combinator) :
    IsOpenRow G (row ++ [.combinator k]) := by
  refine ⟨h.beside.append (.singleton _) fun item hitem _ _ => .inl (h.last item hitem),
    fun item hitem => ?_,
    fun c hc => h.conditions c (by simpa using hc)⟩
  rw [List.head?_append_of_ne_nil _ filled] at hitem
  exact h.head item hitem

/-- An open row has nothing in it, is closed by a compound, or has a combinator behind that. -/
theorem IsOpenRow.cases_last (h : IsOpenRow G row) : row = [] ∨
    (∃ init c, row = init ++ [.compound c] ∧ IsOpenRow G init ∧ ∀ s ∈ c, G s) ∨
    ∃ init c k, row = init ++ [.compound c, .combinator k] ∧ IsOpenRow G init ∧ ∀ s ∈ c, G s := by
  rcases List.eq_nil_or_concat row with rfl | ⟨init, last, rfl⟩
  · exact .inl rfl
  rw [List.concat_eq_append] at h ⊢
  rcases last with c | k
  · exact .inr (.inl ⟨init, c, rfl, h.of_prefix (List.prefix_append _ _), h.conditions c (by simp)⟩)
  rcases List.eq_nil_or_concat init with rfl | ⟨init, before, rfl⟩
  · exact absurd (h.head (.combinator k) rfl) Bool.false_ne_true
  rw [List.concat_eq_append, List.append_assoc] at h ⊢
  rcases before with c | k'
  · exact .inr (.inr ⟨init, c, k, rfl, h.of_prefix (List.prefix_append _ _),
      h.conditions c (by simp)⟩)
  · have beside : List.IsChain Item.Beside [.combinator k', .combinator k] :=
      List.IsChain.infix h.beside ⟨init, [], List.append_nil _⟩
    rw [List.isChain_pair] at beside
    rcases beside with h | h <;> cases h

/-- A closed row with something in it ends in a compound, and is open before that. -/
theorem IsClosedRow.exists_concat (h : IsClosedRow G row) (filled : row ≠ []) :
    ∃ init c, row = init ++ [.compound c] ∧ IsOpenRow G init ∧ ∀ s ∈ c, G s := by
  rcases h.cases_last with rfl | closed | ⟨init, c, k, rfl, -⟩
  · exact absurd rfl filled
  · exact closed
  · exact absurd (h.last (.combinator k) (by simp)) Bool.false_ne_true

/-! ## Valid rows -/

/-- The executable test for repeated combinators, as a chain. -/
theorem hasRepeatedCombinator_eq_false_iff : ∀ row : List Item,
    hasRepeatedCombinator row = false ↔ row.IsChain Item.Beside
  | [] => by simp [hasRepeatedCombinator]
  | [.compound _] | [.combinator _] => by simp [hasRepeatedCombinator]
  | .compound c :: item :: row => by
    rw [List.isChain_cons_cons, ← hasRepeatedCombinator_eq_false_iff (item :: row)]
    simp [hasRepeatedCombinator, Item.Beside, Item.isCompound]
  | .combinator k :: .compound c :: row => by
    rw [List.isChain_cons_cons, ← hasRepeatedCombinator_eq_false_iff (.compound c :: row)]
    simp [hasRepeatedCombinator, Item.Beside, Item.isCompound]
  | .combinator k :: .combinator k' :: row => by
    simp [hasRepeatedCombinator, Item.Beside, Item.isCompound]

/-- At most `n` combinators, and a closed row with something in it behind them. -/
def IsValidRow (G : Simple → Prop) (n : ℕ) (row : List Item) : Prop :=
  ∃ (lead : List Combinator) (body : List Item),
    row = lead.map .combinator ++ body ∧ lead.length ≤ n ∧
    IsClosedRow G body ∧ body ≠ []

/-- Leading combinators are what stands before the first compound. -/
theorem takeWhile_isCombinator_lead {body : List Item}
    (head : ∀ item ∈ body.head?, item.isCompound = true) (lead : List Combinator) :
    (lead.map Item.combinator ++ body).takeWhile Item.isCombinator = lead.map Item.combinator := by
  have stop : body.takeWhile Item.isCombinator = [] := by
    rcases body with _ | ⟨c | k, body⟩
    · rfl
    · rfl
    · exact absurd (head (.combinator k) rfl) Bool.false_ne_true
  rw [List.takeWhile_append_of_pos, stop, List.append_nil]
  intro item hitem
  obtain ⟨k, -, rfl⟩ := List.mem_map.1 hitem
  rfl

theorem dropWhile_isCombinator_lead {body : List Item}
    (head : ∀ item ∈ body.head?, item.isCompound = true) (lead : List Combinator) :
    (lead.map Item.combinator ++ body).dropWhile Item.isCombinator = body := by
  have whole := List.takeWhile_append_dropWhile (p := Item.isCombinator)
    (l := lead.map Item.combinator ++ body)
  rw [takeWhile_isCombinator_lead head] at whole
  exact List.append_cancel_left whole

theorem map_combinator_takeWhile (row : List Item) :
    (startCombinators row).map Item.combinator = row.takeWhile Item.isCombinator := by
  induction row with
  | nil => rfl
  | cons item row ih =>
    rcases item with c | k
    · rfl
    · exact congrArg (Item.combinator k :: ·) ih

/-- Behind them a compound follows. -/
theorem head_dropWhile_isCombinator (row : List Item) :
    ∀ item ∈ (row.dropWhile Item.isCombinator).head?, item.isCompound = true := by
  induction row with
  | nil => nofun
  | cons item row ih =>
    rcases item with c | k
    · rintro _ ⟨⟩
      rfl
    · exact ih

/-- **A row is valid if nothing is out of place in it and all conditions have the property.** -/
theorem isValidRow_iff {n : ℕ} : IsValidRow G n row ↔
    isMisplaced n row = false ∧ ∀ c, .compound c ∈ row → ∀ s ∈ c, G s := by
  constructor
  · rintro ⟨lead, body, rfl, short, closed, filled⟩
    refine ⟨?_, fun c hc => closed.conditions c (by simpa using hc)⟩
    have rest := (hasRepeatedCombinator_eq_false_iff body).2 closed.beside
    have start := takeWhile_isCombinator_lead closed.head lead
    obtain ⟨init, c, rfl, -⟩ := closed.exists_concat filled
    simp [isMisplaced, start, rest, short, Item.isCombinator]
  · rintro ⟨placed, conditions⟩
    have whole := List.takeWhile_append_dropWhile (p := Item.isCombinator) (l := row)
    have behind : row.drop (row.takeWhile Item.isCombinator).length
      = row.dropWhile Item.isCombinator := by
      nth_rewrite 2 [← whole]
      exact List.drop_left
    simp only [isMisplaced, behind, Bool.or_eq_false_iff, beq_eq_false_iff_ne,
      decide_eq_false_iff_not, Nat.not_lt] at placed
    obtain ⟨⟨⟨longer, short⟩, last⟩, rest⟩ := placed
    have filled : row.dropWhile Item.isCombinator ≠ [] := by
      intro empty
      rw [empty, List.append_nil] at whole
      exact longer (congrArg List.length whole)
    rw [← map_combinator_takeWhile] at whole short
    refine ⟨startCombinators row, row.dropWhile Item.isCombinator, whole.symm, by simpa using short,
      ⟨⟨(hasRepeatedCombinator_eq_false_iff _).1 rest, head_dropWhile_isCombinator row, fun c hc =>
        conditions c ((List.dropWhile_suffix _).subset hc)⟩, fun item hitem => ?_⟩, filled⟩
    have hlast : row.getLast? = item := by
      rw [← whole, List.getLast?_append, Option.mem_def.1 hitem]
      rfl
    rw [hlast] at last
    cases item with
    | compound c => rfl
    | combinator k => cases last

/-- Without leading combinators, valid rows are the closed ones that are not empty. -/
theorem isValidRow_zero :
    IsValidRow G 0 row ↔ IsClosedRow G row ∧ row ≠ [] := by
  constructor
  · rintro ⟨lead, body, rfl, short, shape⟩
    rw [List.length_eq_zero_iff.1 (Nat.le_zero.1 short)]
    exact shape
  · exact fun shape => ⟨[], row, rfl, le_rfl, shape⟩

theorem isValidRow_compound {c : Compound} (h : ∀ s ∈ c, G s) :
    IsValidRow G 0 [.compound c] :=
  isValidRow_zero.2 ⟨isClosedRow_compound h, by simp⟩

/-- Allowing more leading combinators. -/
theorem IsValidRow.mono {n m : ℕ} (h : IsValidRow G n row) (le : n ≤ m) :
    IsValidRow G m row := by
  obtain ⟨lead, body, eq, short, shape⟩ := h
  exact ⟨lead, body, eq, short.trans le, shape⟩

/-! ## Groups -/

/-- What the groups of a row are: nothing is lost, none is empty, and the cuts are between
compounds. -/
structure IsGrouping (row : List Item) (groups : List (List Item)) : Prop where
  flatten : groups.flatten = row
  filled : ∀ group ∈ groups, group ≠ []
  tails : ∀ group ∈ groups.tail, ∀ item ∈ group.head?, item.isCompound = true
  inits : ∀ group ∈ groups.dropLast, ∀ item ∈ group.getLast?, item.isCompound = true

/-- The groups of a row make it up, and each is held together by combinators. -/
theorem isGrouping_groupItems (row : List Item) : IsGrouping row (groupItems row) := by
  induction row with
  | nil => exact ⟨rfl, nofun, nofun, nofun⟩
  | cons item row ih =>
    rw [groupItems, List.foldr_cons, ← groupItems]
    rcases hgroups : groupItems row with _ | ⟨_ | ⟨next, group⟩, groups⟩
    · have flat : [] = row := by simpa [hgroups] using ih.flatten
      rw [← flat]
      exact ⟨rfl, by simp [consGroup], nofun, nofun⟩
    · exact absurd rfl (ih.filled [] (by simp [hgroups]))
    · rw [hgroups] at ih
      have flatten : next :: (group ++ groups.flatten) = row := ih.flatten
      rw [consGroup]
      split
      · refine ⟨congrArg (item :: ·) flatten, ?_, ih.tails, ?_⟩
        · rw [List.forall_mem_cons]
          exact ⟨by simp, (List.forall_mem_cons.1 ih.filled).2⟩
        · cases groups with
          | nil => nofun
          | cons => simpa using ih.inits
      · rename_i apart
        simp only [Bool.or_eq_true, not_or, Bool.not_eq_true] at apart
        have compound : ∀ item : Item, item.isCombinator = false → item.isCompound = true := by
          rintro (_ | _) h
          · rfl
          · cases h
        refine ⟨congrArg (item :: ·) flatten, ?_, ?_, ?_⟩
        · rw [List.forall_mem_cons]
          exact ⟨by simp, ih.filled⟩
        · rw [List.tail_cons, List.forall_mem_cons]
          exact ⟨by simpa using compound next apart.2, ih.tails⟩
        · rw [List.dropLast_cons_cons, List.forall_mem_cons]
          exact ⟨by simpa using compound item apart.1, ih.inits⟩

/-- **The groups of a closed row are closed.** -/
theorem isClosedRow_of_mem_groupItems (h : IsClosedRow G row) {group : List Item}
    (mem : group ∈ groupItems row) : IsClosedRow G group ∧ group ≠ [] := by
  have grouping := isGrouping_groupItems row
  have part : group <:+: row := grouping.flatten ▸ List.infix_of_mem_flatten mem
  have beside := List.IsChain.infix h.beside part
  refine ⟨⟨⟨beside, fun item hitem => ?_, fun c hc => h.conditions c (part.subset hc)⟩,
    fun item hitem => ?_⟩, grouping.filled group mem⟩
  · rcases hgroups : groupItems row with _ | ⟨first, groups⟩
    · simp [hgroups] at mem
    rw [hgroups] at mem grouping
    rcases List.mem_cons.1 mem with rfl | mem
    · refine h.head item ?_
      rw [← grouping.flatten, List.flatten_cons, List.head?_append, Option.mem_def.1 hitem]
      rfl
    · exact grouping.tails group mem item hitem
  · rcases List.eq_nil_or_concat (groupItems row) with empty | ⟨groups, last, hgroups⟩
    · simp [empty] at mem
    rw [hgroups, List.concat_eq_append] at mem grouping
    rcases List.mem_append.1 mem with mem | mem
    · exact grouping.inits group (by simpa using mem) item hitem
    · obtain rfl := List.mem_singleton.1 mem
      refine h.last item ?_
      rw [← grouping.flatten, List.flatten_append, List.flatten_singleton, List.getLast?_append,
        Option.mem_def.1 hitem]
      rfl

end SelectorAlgebra
