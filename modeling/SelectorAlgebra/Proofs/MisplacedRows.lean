import Mathlib
import SelectorAlgebra.Proofs.Reflexivity
import SelectorAlgebra.Proofs.RowShapes
import SelectorAlgebra.Proofs.WholeSelectors

/-!
# Proofs/MisplacedRows — what selectors with misplaced combinators are above and below

A row that begins or ends with a combinator, or repeats one, is meant to be above nothing and
below nothing.  It is above nothing.  Below, a check is missing: repeated combinators are
looked for in front of the last compound, back to the place found before it, and not in what
was passed over on the way there.

    .a .b   is above   .x > > .a .b

* `isSuperselector_misplaced` — all that holds of such selectors, and which selectors they can be
  below: all but the misplaced ones, single compounds, and two compounds around a combinator.

`Walked` is the walk as a relation, with a constructor for its last step and one for every other
step (`walk_iff_walked`).  What a walk that says yes cannot have met is read off it by induction,
and the walk past a stranger and two combinators is put together from it (`walk_strayStart`).
-/

namespace SelectorAlgebra

/-! ## Misplaced combinators -/

theorem not_isCombinator_of_isCompound {place : Option Item}
    (h : place.any Item.isCompound = true) :
    ¬ place.any Item.isCombinator = true := by
  rcases place with _ | _ | _ <;> simp_all [Item.isCompound, Item.isCombinator]

/-- A row is in place when it begins and ends with a compound and repeats no combinator. -/
theorem isMisplaced_eq_false_iff {row : List Item} : isMisplaced 0 row = false ↔
    row.head?.any Item.isCompound = true ∧ row.getLast?.any Item.isCompound = true ∧
      hasRepeatedCombinator row = false := by
  rcases row with _ | ⟨c | k, row⟩
  · simp [isMisplaced]
  · have ends : (Item.compound c :: row).getLast?.any Item.isCombinator
        = !(Item.compound c :: row).getLast?.any Item.isCompound := by
      rw [List.getLast?_cons]
      cases (row.getLast?.getD (.compound c)) <;> rfl
    simp [isMisplaced, Item.isCombinator, Item.isCompound, ends]
  · simp [isMisplaced, List.takeWhile_cons, Item.isCombinator, Item.isCompound]

/-! ## The walk as a relation -/

/-- The items of a joint: its combinator, if it has one. -/
def Joint.items : Joint → List Item
  | none => []
  | some k => [.combinator k]

/-- The upper row is walked along the lower one. -/
inductive Walked (cover : Compound → Compound → List Item → Bool) :
    List Item → List Item → Prop where
  /-- The last compound takes the last one. -/
  | last {c d : Compound} {row : List Item}
      (covered : coversLast cover c (.compound d :: row) = true) :
      Walked cover [.compound c] (.compound d :: row)
  /-- Another compound takes the first place there is, and the walk goes on behind the two
  joints. -/
  | step {c d : Compound} {j j' : Joint} {upper row rest : List Item}
      (found : firstAccepted (cover c) [] (.compound d :: row) = some (j'.items ++ rest))
      (span : spans j [j'] = true) (tied : j.isSome = true → upper.length = 1 → row.length ≤ 2)
      (further : Walked cover upper rest) :
      Walked cover (.compound c :: (j.items ++ upper)) (.compound d :: row)

section Walked

variable {cover : Compound → Compound → List Item → Bool} {upper lower : List Item}

/-- Rows that were walked begin with compounds. -/
theorem Walked.exists_cons (h : Walked cover upper lower) :
    (∃ c row, upper = .compound c :: row) ∧ ∃ d row, lower = .compound d :: row := by
  cases h with
  | last _ => exact ⟨⟨_, _, rfl⟩, _, _, rfl⟩
  | step _ _ _ _ => exact ⟨⟨_, _, rfl⟩, _, _, rfl⟩

/-- The place found is a compound, and what is left is all that stands after it. -/
theorem exists_of_firstAccepted_some {accept : Compound → List Item → Bool} :
    ∀ {lower parents rest : List Item}, firstAccepted accept parents lower = some rest →
      ∃ skipped e, lower = skipped ++ .compound e :: rest
  | [], _, _, h => by cases h
  | [_], _, _, h => by cases h
  | item :: next :: lower, parents, rest, h => by
    rw [firstAccepted] at h
    split at h
    · rename_i accepted
      cases item with
      | compound e => exact ⟨[], e, by rw [← Option.some.inj h]; rfl⟩
      | combinator k => cases accepted
    · obtain ⟨skipped, e, hrow⟩ := exists_of_firstAccepted_some h
      exact ⟨item :: skipped, e, by rw [hrow]; rfl⟩

theorem Joint.length_items_le {j j' : Joint} (span : spans j [j'] = true) :
    j.items.length ≤ j'.items.length := by
  rcases j with _ | _ | _ | _ <;> rcases j' with _ | _ | _ | _ <;>
    first | exact Nat.zero_le _ | exact Nat.le_refl _ | cases span

/-- The check that the upper row is not longer than the lower one never decides anything. -/
theorem Walked.length_le (h : Walked cover upper lower) : upper.length ≤ lower.length := by
  induction h with
  | last _ => simp
  | step found span _ _ ih =>
    obtain ⟨skipped, e, hrow⟩ := exists_of_firstAccepted_some found
    have joints := Joint.length_items_le span
    have len := congrArg List.length hrow
    simp only [List.length_cons, List.length_append] at len ⊢
    omega

theorem exists_compound_cons (filled : lower = [] → False)
    (starts : ∀ k row, lower = .combinator k :: row → False) :
    ∃ d row, lower = .compound d :: row := by
  rcases lower with _ | ⟨d | k, row⟩
  · exact absurd rfl filled
  · exact ⟨d, row, rfl⟩
  · exact absurd rfl (starts k row)

/-- What the walk accepts has a derivation; the induction follows the walk. -/
theorem walked_of_walk (yes : walk cover upper lower = true) : Walked cover upper lower := by
  fun_induction walk cover upper lower with
  | case1 | case2 | case3 | case4 | case6 | case8 | case9 | case12 => cases yes
  | case5 c lower filled starts =>
    obtain ⟨d, row, rfl⟩ := exists_compound_cons filled starts
    exact .last yes
  | case7 c k upper lower filled starts _ k' rest found ih =>
    obtain ⟨d, row, rfl⟩ := exists_compound_cons filled starts
    simp only [Bool.and_eq_true, allows_eq_spans] at yes
    refine @Walked.step cover c d (some k) (some k') upper row rest found yes.1.1 (fun _ one => ?_)
      (ih yes.2)
    exact Nat.le_of_lt_succ (by simpa [one] using yes.1.2)
  | case10 c c' upper lower filled starts _ k' rest found ih =>
    obtain ⟨d, row, rfl⟩ := exists_compound_cons filled starts
    rw [Bool.and_eq_true, isChild_eq_spans] at yes
    exact @Walked.step cover c d none (some k') (.compound c' :: upper) row rest found yes.1
      (fun never => by cases never) (ih yes.2)
  | case11 c c' upper lower filled starts _ rest _ found ih =>
    obtain ⟨d, row, rfl⟩ := exists_compound_cons filled starts
    exact @Walked.step cover c d none none (.compound c' :: upper) row rest found rfl
      (fun never => by cases never) (ih yes)

/-- Every derivation is accepted. -/
theorem walk_of_walked (h : Walked cover upper lower) : walk cover upper lower = true := by
  induction h with
  | last covered => exact covered
  | @step c d j j' upper row rest found span tied further ih =>
    have room := (Walked.step found span tied further).length_le
    obtain ⟨⟨c', upper', rfl⟩, d', rest', rfl⟩ := further.exists_cons
    simp only [List.length_cons, List.length_append] at room
    rcases j with _ | k
    · have enough : ¬ row.length + 1 < upper'.length + 2 := by
        simp only [Joint.items] at room; omega
      rcases j' with _ | k'
      · simp only [Joint.items, List.nil_append] at found ⊢
        simp only [walk, List.length_cons, enough, if_false, found, ih]
      · simp only [Joint.items, List.nil_append, List.singleton_append] at found ⊢
        simp only [walk, List.length_cons, enough, if_false, found, isChild_eq_spans, span, ih,
          Bool.true_and]
    · have enough : ¬ row.length + 1 < upper'.length + 1 + 2 := by
        simp only [Joint.items, List.length_singleton] at room; omega
      rcases j' with _ | k'
      · cases k <;> cases span
      · simp only [Joint.items, List.singleton_append] at found ⊢
        have loose : (upper'.length + 1 == 1 && decide (3 < row.length + 1)) = false := by
          have short := tied rfl
          rw [List.length_cons] at short
          simp only [Bool.and_eq_false_iff, beq_eq_false_iff_ne, decide_eq_false_iff_not]
          omega
        simp only [walk, List.length_cons, enough, if_false, found, allows_eq_spans,
          span, loose, ih, Bool.true_and, Bool.not_false]

theorem walk_iff_walked : walk cover upper lower = true ↔ Walked cover upper lower :=
  ⟨walked_of_walk, walk_of_walked⟩

/-! ## What a walk cannot have met -/

/-- A joint before a compound repeats nothing. -/
theorem hasRepeatedCombinator_joint (j : Joint) (c : Compound) (row : List Item) :
    hasRepeatedCombinator (j.items ++ .compound c :: row) = hasRepeatedCombinator row := by
  cases j <;> rfl

theorem hasRepeatedCombinator_concat (row : List Item) (c : Compound) :
    hasRepeatedCombinator (row ++ [.compound c]) = hasRepeatedCombinator row := by
  induction row with
  | nil => rfl
  | cons item row ih =>
    rcases item with d | k
    · exact ih
    · rcases row with _ | ⟨d | k', row⟩
      · rfl
      · exact ih
      · rfl

/-- An upper row that is walked repeats no combinator. -/
theorem Walked.hasRepeatedCombinator_upper (h : Walked cover upper lower) :
    hasRepeatedCombinator upper = false := by
  induction h with
  | last _ => rfl
  | @step c _ j _ _ _ _ _ _ _ further ih =>
    obtain ⟨⟨c', upper', rfl⟩, -⟩ := further.exists_cons
    exact (hasRepeatedCombinator_joint j c' upper').trans ih

/-- A single compound is only walked along rows that repeat no combinator. -/
theorem Walked.hasRepeatedCombinator_of_length (h : Walked cover upper lower)
    (one : upper.length = 1) : hasRepeatedCombinator lower = false := by
  cases h with
  | @last c d row covered =>
    unfold coversLast at covered
    split at covered
    · rename_i e hlast
      obtain ⟨init, hinit⟩ := List.getLast?_eq_some_iff.1 hlast
      rw [hinit, List.dropLast_concat, Bool.and_eq_true, Bool.not_eq_true'] at covered
      rw [hinit, hasRepeatedCombinator_concat, covered.1]
    · cases covered
  | step _ _ _ further =>
    obtain ⟨⟨c', upper', rfl⟩, -⟩ := further.exists_cons
    simp at one

/-- **From the place of the last compound but one on, the lower row repeats no combinator.** -/
theorem Walked.exists_single_end (h : Walked cover upper lower) (long : upper.length ≠ 1) :
    ∃ before e after, lower = before ++ .compound e :: after ∧ after ≠ [] ∧
      hasRepeatedCombinator after = false := by
  induction h with
  | last _ => exact absurd rfl long
  | @step c d j j' upper row rest found _ _ further ih =>
    obtain ⟨skipped, e, hrow⟩ := exists_of_firstAccepted_some found
    by_cases one : upper.length = 1
    · -- the last compound is the next one
      have single := further.hasRepeatedCombinator_of_length one
      obtain ⟨-, d', rest', rfl⟩ := further.exists_cons
      exact ⟨skipped, e, _, hrow, by simp, (hasRepeatedCombinator_joint j' d' rest').trans single⟩
    · obtain ⟨before, e', after, rfl, filled, single⟩ := ih one
      exact ⟨skipped ++ .compound e :: (j'.items ++ before), e', after, by simp [hrow], filled,
        single⟩

/-- Two compounds around a combinator are only walked along rows of at most three items. -/
theorem Walked.length_le_of_tied {c c' : Compound} {k : Combinator}
    (h : Walked cover [.compound c, .combinator k, .compound c'] lower) : lower.length ≤ 3 := by
  generalize hu : [Item.compound c, .combinator k, .compound c'] = upper at h
  cases h with
  | last _ => cases hu
  | @step _ d j _ upper row _ _ _ tied further =>
    obtain ⟨⟨e, upper', rfl⟩, -⟩ := further.exists_cons
    rcases j with _ | k'
    · cases hu
    · obtain rfl : [] = upper' := (List.cons.inj (List.cons.inj (List.cons.inj hu).2).2).2
      exact Nat.succ_le_succ (tied rfl rfl)

end Walked

/-! ## Selectors with misplaced combinators -/

/-- Whether a row is one compound, or two around a combinator. -/
def isShortRow : List Item → Bool
  | [.compound _] => true
  | [.compound _, .combinator _, .compound _] => true
  | _ => false

/-- A row of at most three items that begins and ends with a compound repeats no combinator. -/
theorem hasRepeatedCombinator_of_length_le {row : List Item} (len : row.length ≤ 3)
    (head : row.head?.any Item.isCompound = true) (last : row.getLast?.any Item.isCompound = true) :
    hasRepeatedCombinator row = false := by
  rcases row with _ | ⟨c | k, _ | ⟨_ | _, _ | ⟨_ | _, _ | ⟨_, row⟩⟩⟩⟩ <;>
    simp_all [Item.isCompound, hasRepeatedCombinator] <;> omega

section Selectors

variable {c d : Complex}

theorem walked_of_isSuperselector (yes : d.isSuperselector c = true) :
    d.items.getLast?.any Item.isCompound = true ∧ c.items.getLast?.any Item.isCompound = true ∧
      Walked (covers itemsSuperselector) d.items c.items := by
  rw [Complex.isSuperselector, itemsSuperselector_eq, rowCovers, Bool.and_eq_true,
    Bool.and_eq_true] at yes
  exact ⟨yes.1.1, yes.1.2, walked_of_walk yes.2⟩

/-- A selector below another begins and ends with a compound. -/
theorem compound_ends_of_isSuperselector (yes : d.isSuperselector c = true) :
    c.items.head?.any Item.isCompound = true ∧ c.items.getLast?.any Item.isCompound = true := by
  obtain ⟨-, last, walked⟩ := walked_of_isSuperselector yes
  obtain ⟨-, e, row, hrow⟩ := walked.exists_cons
  exact ⟨by rw [hrow]; rfl, last⟩

/-- **A selector with a misplaced combinator is above nothing.** -/
theorem isMisplaced_of_isSuperselector (yes : d.isSuperselector c = true) :
    isMisplaced 0 d.items = false := by
  obtain ⟨last, -, walked⟩ := walked_of_isSuperselector yes
  obtain ⟨⟨e, row, hrow⟩, -⟩ := walked.exists_cons
  exact isMisplaced_eq_false_iff.2 ⟨by rw [hrow]; rfl, last, walked.hasRepeatedCombinator_upper⟩

/-- What a short selector is above has no misplaced combinator. -/
theorem isMisplaced_of_isShortRow (short : isShortRow d.items = true)
    (yes : d.isSuperselector c = true) : isMisplaced 0 c.items = false := by
  obtain ⟨head, last⟩ := compound_ends_of_isSuperselector yes
  obtain ⟨-, -, walked⟩ := walked_of_isSuperselector yes
  refine isMisplaced_eq_false_iff.2 ⟨head, last, ?_⟩
  unfold isShortRow at short
  split at short
  · rename_i hd
    exact walked.hasRepeatedCombinator_of_length (by rw [hd]; rfl)
  · rename_i hd
    rw [hd] at walked
    exact hasRepeatedCombinator_of_length_le walked.length_le_of_tied head last
  · cases short

/-- A selector with a misplaced combinator that is below another one ends in a row of at least two
items without misplaced combinators. -/
theorem exists_end_of_isSuperselector (yes : d.isSuperselector c = true)
    (misplaced : isMisplaced 0 c.items = true) :
    ∃ before row, c.items = before ++ row ∧ 2 ≤ row.length ∧ isMisplaced 0 row = false := by
  obtain ⟨head, last⟩ := compound_ends_of_isSuperselector yes
  obtain ⟨-, -, walked⟩ := walked_of_isSuperselector yes
  have long : d.items.length ≠ 1 := by
    intro one
    rw [isMisplaced_eq_false_iff.2
      ⟨head, last, walked.hasRepeatedCombinator_of_length one⟩] at misplaced
    cases misplaced
  obtain ⟨before, e', after, hitems, filled, single⟩ := walked.exists_single_end long
  refine ⟨before, .compound e' :: after, hitems, ?_, isMisplaced_eq_false_iff.2 ⟨rfl, ?_, single⟩⟩
  · have := List.length_pos_of_ne_nil filled
    rw [List.length_cons]
    omega
  · rwa [hitems, List.getLast?_append_of_ne_nil _ (by simp)] at last

end Selectors

/-! ## A stranger and two combinators before a selector -/

/-- The items that can be put before a selector unnoticed: a pseudo-element and two combinators. -/
def strayStart (name : String) : List Item :=
  [.compound [.pseudo (.ofElement name)], .combinator .child, .combinator .child]

/-- A condition is only implied by one that is or has it, at some depth. -/
theorem Simple.exists_mem_simples_of_impliedBy {s t : Simple} (whole : t.isWhole = true)
    (h : s.impliedBy t = true) : ∃ t' ∈ t.simples, (s == t') = true := by
  unfold impliedBy at h
  rcases Bool.or_eq_true_iff.1 h with same | inside
  · exact ⟨t, mem_simples.2 (.inl rfl), same⟩
  · split at inside
    · rename_i p
      split at inside
      · rename_i l hl
        rw [Bool.and_eq_true] at inside
        -- the argument has a choice, and that one has the condition
        obtain ⟨filled, -⟩ := SelectorList.isWhole_iff.1 (Simple.isWhole_iff.1 whole l hl)
        obtain ⟨c, hc⟩ := List.exists_mem_of_ne_nil l filled
        have required := List.all_eq_true.1 inside.2 c hc
        split at required
        · rename_i d hd
          obtain ⟨t', ht', same⟩ := List.contains_iff_exists_mem_beq.1 required
          have stands : Item.compound d ∈ c.items := by
            rw [Complex.singleCompound?_eq_some_iff.1 hd]
            exact List.mem_singleton_self _
          exact ⟨t', mem_simples.2 (.inr ⟨l, hl,
            SelectorAlgebra.mem_simples.2 ⟨c, hc, d, stands, t', ht', .inl rfl⟩⟩), same⟩
        · cases required
      · cases inside
    · cases inside

/-- Some pseudo-element is not met by a compound. -/
theorem exists_unmet_element {e : Compound} (whole : Compound.isWhole e = true) :
    ∃ name, (Simple.pseudo (.ofElement name)).metBy e = false := by
  have infinite : (Set.range fun name => Simple.pseudo (.ofElement name)).Infinite :=
    Set.infinite_range_of_injective fun name name' h => by
      injection h with h
      exact congrArg (·.name) h
  obtain ⟨s, ⟨name, rfl⟩, unmet⟩ := infinite.exists_notMem_finite
    (List.finite_toSet ((e.flatMap Simple.simples).map Simple.canonical))
  refine ⟨name, Bool.eq_false_iff.2 fun met => unmet ?_⟩
  obtain ⟨t, ht, implied⟩ := List.any_eq_true.1 met
  obtain ⟨t', ht', same⟩ :=
    Simple.exists_mem_simples_of_impliedBy ((Compound.isWhole_iff.1 whole).2 t ht) implied
  have form : t'.canonical = .pseudo (.ofElement name) := (Simple.beq_iff.1 same).symm
  exact List.mem_map.2 ⟨t', List.mem_flatMap.2 ⟨t, ht, ht'⟩, form⟩

section Stray

variable {sup : ItemsRelation} {e : Compound} {name : String}

theorem covers_unmet_element (unmet : (Simple.pseudo (.ofElement name)).metBy e = false)
    (parents : List Item) : covers sup e [.pseudo (.ofElement name)] parents = false := by
  have element : (Simple.pseudo (.ofElement name)).isPlainPseudoElement = true := rfl
  simp [covers, unmet, element]

/-- **The stranger and the combinators are passed over.** -/
theorem walk_strayStart {u : Link} {links : List Link}
    (unmet : (Simple.pseudo (.ofElement name)).metBy e = false)
    (own : ∀ parents, covers sup e e parents = true)
    (others : ∀ l ∈ u :: links, ∀ parents, covers sup l.compound l.compound parents = true)
    (loose : links = [] → u.joint = none) :
    walk (covers sup) (rowOf e (u :: links)) (strayStart name ++ rowOf e (u :: links)) = true := by
  have row : rowOf e (u :: links) = .compound e :: (u.joint.items ++ rowOf u.compound links) := by
    obtain ⟨_ | k, c⟩ := u <;> rfl
  have found : firstAccepted (covers sup e) [] (strayStart name ++ rowOf e (u :: links))
      = some (u.joint.items ++ rowOf u.compound links) := by
    have place := @firstAccepted_cons_of_accept (covers sup e) (strayStart name) e u links (own _)
    have links_eq : linksRow u links = u.joint.items ++ rowOf u.compound links := by
      obtain ⟨_ | k, c⟩ := u <;> rfl
    rw [links_eq] at place
    rw [← place, row]
    simp [strayStart, firstAccepted, Item.compound?, covers_unmet_element unmet]
  rw [List.forall_mem_cons] at others
  have further := walked_of_walk (walk_self others.1 others.2)
  nth_rewrite 1 [row]
  refine walk_of_walked (.step found (spans_self u.joint) (fun tied one => ?_) further)
  have empty : links = [] := by
    rw [← List.isEmpty_iff, ← length_rowOf_beq_one u.compound, one]
    rfl
  rw [loose empty] at tied
  cases tied

end Stray

theorem hasRepeatedCombinator_strayStart (name : String) (row : List Item) :
    hasRepeatedCombinator (strayStart name ++ row) = true := rfl

/-- The stranger and the combinators leave a whole selector whole. -/
theorem isWhole_strayStart {d : Complex} (name : String) (whole : d.isWhole = true) :
    (⟨strayStart name ++ d.items, false⟩ : Complex).isWhole = true := by
  refine Complex.isWhole_iff.2 ⟨by simp [strayStart], fun f hf => ?_⟩
  rcases List.mem_append.1 hf with stray | own
  · obtain rfl : f = [.pseudo (.ofElement name)] := by simpa [strayStart] using stray
    rfl
  · exact (Complex.isWhole_iff.1 whole).2 f own

/-- A regular selector that is not short is above a selector with repeated combinators. -/
theorem exists_misplaced_below {d : Complex} (whole : d.isWhole = true)
    (regular : d.hasRegularArguments = true) (placed : isMisplaced 0 d.items = false)
    (long : isShortRow d.items = false) :
    ∃ c : Complex, c.isWhole = true ∧ isMisplaced 0 c.items = true ∧
      d.isSuperselector c = true := by
  obtain ⟨e, links, hrow⟩ := exists_rowOf placed
  have stands : ∀ f, f = e ∨ (∃ l ∈ links, f = l.compound) → Item.compound f ∈ d.items :=
    fun f hf => by
    rw [hrow]
    exact mem_rowOf.2 hf
  obtain ⟨name, unmet⟩ :=
    exists_unmet_element ((Complex.isWhole_iff.1 whole).2 e (stands e (.inl rfl)))
  refine ⟨⟨strayStart name ++ d.items, false⟩, isWhole_strayStart name whole, ?_, ?_⟩
  · rw [← Bool.not_eq_false]
    intro proper
    have single := (isMisplaced_eq_false_iff.1 proper).2.2
    rw [hasRepeatedCombinator_strayStart] at single
    cases single
  · have last := (isMisplaced_eq_false_iff.1 placed).2.1
    have walked : walk (covers itemsSuperselector) d.items (strayStart name ++ d.items) = true := by
      rw [hrow] at long ⊢
      rcases links with _ | ⟨u, links⟩
      · cases long
      · refine walk_strayStart unmet
          (fun parents => d.covers_itself regular (stands e (.inl rfl)) parents)
          (fun l hl parents => d.covers_itself regular (stands _ (.inr ⟨l, hl, rfl⟩)) parents) ?_
        rintro rfl
        obtain ⟨_ | k, f⟩ := u
        · rfl
        · cases long
    have filled : d.items ≠ [] := (Complex.isWhole_iff.1 whole).1
    rw [Complex.isSuperselector, itemsSuperselector_eq, rowCovers,
      List.getLast?_append_of_ne_nil _ filled, last, walked]
    rfl

/-- **Which selectors with misplaced combinators are related to which others**: they are above
nothing, and below nothing if they begin or end with a combinator.  If one is below a selector, that
one is neither misplaced itself nor short, and at least two compounds stand behind the last repeated
combinator.  Every regular selector that is neither misplaced nor short is above one of them. -/
theorem isSuperselector_misplaced (d : Complex) :
    (∀ c : Complex, isMisplaced 0 c.items = true → c.isSuperselector d = false) ∧
    (∀ c : Complex, c.items.head?.any Item.isCombinator = true ∨
      c.items.getLast?.any Item.isCombinator = true → d.isSuperselector c = false) ∧
    (∀ c : Complex, isMisplaced 0 c.items = true → d.isSuperselector c = true →
      isMisplaced 0 d.items = false ∧ isShortRow d.items = false ∧
        ∃ before row, c.items = before ++ row ∧ 2 ≤ row.length ∧ isMisplaced 0 row = false) ∧
    (d.isWhole = true → d.hasRegularArguments = true → isMisplaced 0 d.items = false →
      isShortRow d.items = false →
        ∃ c : Complex, c.isWhole = true ∧ isMisplaced 0 c.items = true ∧
          d.isSuperselector c = true) := by
  refine ⟨fun c misplaced => Bool.eq_false_iff.2 fun yes => ?_, fun c ends =>
    Bool.eq_false_iff.2 fun yes => ?_, fun c misplaced yes => ?_, exists_misplaced_below⟩
  · rw [isMisplaced_of_isSuperselector yes] at misplaced
    cases misplaced
  · obtain ⟨head, last⟩ := compound_ends_of_isSuperselector yes
    rcases ends with ends | ends
    · exact not_isCombinator_of_isCompound head ends
    · exact not_isCombinator_of_isCompound last ends
  · refine ⟨isMisplaced_of_isSuperselector yes, Bool.eq_false_iff.2 fun short => ?_,
      exists_end_of_isSuperselector yes misplaced⟩
    rw [isMisplaced_of_isShortRow short yes] at misplaced
    cases misplaced

/-- The selector `.a .b` is above `.x > > .a .b`. -/
theorem isSuperselector_misplaced_skipped : ∃ c d : Complex,
    c = ⟨[.compound [.className "x"], .combinator .child, .combinator .child,
      .compound [.className "a"], .compound [.className "b"]], false⟩ ∧
    d = ⟨[.compound [.className "a"], .compound [.className "b"]], false⟩ ∧
    hasRepeatedCombinator c.items = true ∧ isMisplaced 0 c.items = true ∧
      d.isSuperselector c = true :=
  ⟨_, _, rfl, rfl, rfl, rfl, by cbv⟩

end SelectorAlgebra
