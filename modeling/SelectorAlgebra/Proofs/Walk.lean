import Mathlib
import SelectorAlgebra.Proofs.Containment
import SelectorAlgebra.Proofs.Cover

/-!
# Proofs/Walk — one step of the walk along two chains

On rows without misplaced combinators the walk goes from link to link.  `walk_rowOf_cons` is
all that one step can do: the first compound of the upper chain finds its place, the joints
after the two places have to agree, and the walk goes on behind them.  The only look at more
than one joint is at the end: behind a combinator, the last compound of the upper chain takes
no more than the next one.
-/

namespace SelectorAlgebra

/-! ## Rows behind a link -/

/-- What stands in a row after a compound: a link and the links after it. -/
def linksRow : Link → List Link → List Item
  | ⟨none, d⟩, links => rowOf d links
  | ⟨some k, d⟩, links => .combinator k :: rowOf d links

theorem compoundAfter_cons (c : Compound) (l : Link) (links : List Link) :
    compoundAfter c (l :: links) = compoundAfter l.compound links := by
  rcases List.eq_nil_or_concat links with rfl | ⟨init, last, rfl⟩
  · rfl
  · rw [List.concat_eq_append, ← List.cons_append, compoundAfter_concat, compoundAfter_concat]

/-- A chain ends in its last compound. -/
theorem getLast?_rowOf : ∀ (c : Compound) (links : List Link),
    (rowOf c links).getLast? = some (.compound (compoundAfter c links))
  | _, [] => rfl
  | c, ⟨none, d⟩ :: links => by
    rw [compoundAfter_cons, rowOf, List.getLast?_cons, getLast?_rowOf d links]
    rfl
  | c, ⟨some k, d⟩ :: links => by
    rw [compoundAfter_cons, rowOf, List.getLast?_cons, List.getLast?_cons, getLast?_rowOf d links]
    rfl

/-- How many items a link takes in a row. -/
def Link.width : Link → ℕ
  | ⟨none, _⟩ => 1
  | ⟨some _, _⟩ => 2

theorem Link.one_le_width : ∀ l : Link, 1 ≤ l.width
  | ⟨none, _⟩ => Nat.le_refl 1
  | ⟨some _, _⟩ => Nat.le_succ 1

/-- A link takes one item, or two with its combinator. -/
theorem length_rowOf : ∀ (c : Compound) (links : List Link),
    (rowOf c links).length = (links.map Link.width).sum + 1
  | _, [] => rfl
  | _, ⟨none, d⟩ :: links => by
    simp only [rowOf, List.length_cons, length_rowOf d links, List.map_cons, List.sum_cons,
      Link.width]
    omega
  | _, ⟨some _, d⟩ :: links => by
    simp only [rowOf, List.length_cons, length_rowOf d links, List.map_cons, List.sum_cons,
      Link.width]
    omega

theorem length_rowOf_cons (c : Compound) (l : Link) (links : List Link) :
    (rowOf c (l :: links)).length = l.width + (rowOf l.compound links).length := by
  rw [length_rowOf, length_rowOf, List.map_cons, List.sum_cons, Nat.add_assoc]

theorem length_rowOf_pos (c : Compound) (links : List Link) : 0 < (rowOf c links).length := by
  rw [length_rowOf]
  exact Nat.succ_pos _

theorem length_rowOf_beq_one (c : Compound) :
    ∀ links : List Link, ((rowOf c links).length == 1) = links.isEmpty
  | [] => rfl
  | l :: links => by
    have wide := l.one_le_width
    have pos := length_rowOf_pos l.compound links
    rw [length_rowOf_cons]
    exact beq_eq_false_iff_ne.2 (by omega)

/-! ## The place found -/

section Found

variable {accept : Compound → List Item → Bool}

/-- The search stops at a compound that is accepted. -/
theorem firstAccepted_cons_of_accept {parents : List Item} {d : Compound} {l : Link}
    {links : List Link} (h : accept d parents = true) :
    firstAccepted accept parents (rowOf d (l :: links)) = some (linksRow l links) := by
  obtain ⟨joint, c⟩ := l
  obtain ⟨row, hrow⟩ := rowOf_eq_cons c links
  cases joint <;> simp [rowOf, hrow, linksRow, firstAccepted, Item.compound?, h]

/-- Otherwise it goes on behind the link. -/
theorem firstAccepted_cons_of_refuse {parents : List Item} {d : Compound} {l : Link}
    {links : List Link} (h : accept d parents = false) :
    ∃ parents', firstAccepted accept parents (rowOf d (l :: links))
      = firstAccepted accept parents' (rowOf l.compound links) := by
  obtain ⟨joint, c⟩ := l
  obtain ⟨row, hrow⟩ := rowOf_eq_cons c links
  cases joint with
  | none => exact ⟨_, by simp only [rowOf, hrow, firstAccepted, Item.compound?, Option.any, h]; rfl⟩
  | some k =>
    exact ⟨_, by simp only [rowOf, hrow, firstAccepted, Item.compound?, Option.any, h]; rfl⟩

/-- The place found is a compound that is accepted, with a link after it. -/
theorem exists_of_firstAccepted : ∀ {links : List Link} {d : Compound} {parents rest : List Item},
    firstAccepted accept parents (rowOf d links) = some rest →
      ∃ skipped l links', links = skipped ++ l :: links' ∧ rest = linksRow l links' ∧
        ∃ parents', accept (compoundAfter d skipped) parents' = true
  | [], _, _, _, h => by simp [rowOf, firstAccepted] at h
  | l :: links, d, parents, rest, h => by
    cases ha : accept d parents with
    | true =>
      rw [firstAccepted_cons_of_accept ha, Option.some.injEq] at h
      exact ⟨[], l, links, rfl, h.symm, parents, ha⟩
    | false =>
      obtain ⟨parents', hp⟩ := @firstAccepted_cons_of_refuse accept parents d l links ha
      rw [hp] at h
      obtain ⟨skipped, l', links', rfl, hr, acc⟩ := exists_of_firstAccepted h
      exact ⟨l :: skipped, l', links', rfl, hr, by rwa [compoundAfter_cons]⟩

end Found

/-! ## One step -/

section Step

variable {cover : Compound → Compound → List Item → Bool}

/-- A chain of one compound is compared with the last one. -/
theorem walk_rowOf_nil (c d : Compound) (lower : List Link) :
    walk cover (rowOf c []) (rowOf d lower) = coversLast cover c (rowOf d lower) := by
  obtain ⟨row, hrow⟩ := rowOf_eq_cons d lower
  rw [rowOf, hrow]
  rfl

/-- The combinators that one allows are the joints it spans. -/
theorem allows_eq_spans (k k' : Combinator) : k.allows k' = spans (some k) [some k'] := by
  cases k <;> cases k' <;> rfl

/-- Of the combinators only `>` leads to a descendant. -/
theorem isChild_eq_spans (k : Combinator) : (k == .child) = spans none [some k] := by
  cases k <;> rfl

theorem ite_lt_false (m n : ℕ) (b : Bool) :
    (if m < n then false else b) = (decide (n ≤ m) && b) := by
  by_cases h : m < n
  · rw [if_pos h, decide_eq_false (Nat.not_le.2 h), Bool.false_and]
  · rw [if_neg h, decide_eq_true (Nat.not_lt.1 h), Bool.true_and]

/-- **One step of the walk**, once the place for the first compound is found. -/
theorem walk_rowOf_cons {c d : Compound} {u l : Link} {upper lower links : List Link}
    (found : firstAccepted (cover c) [] (rowOf d lower) = some (linksRow l links)) :
    walk cover (rowOf c (u :: upper)) (rowOf d lower) =
      (decide ((rowOf c (u :: upper)).length ≤ (rowOf d lower).length) &&
        (spans u.joint [l.joint] &&
          !(u.joint.isSome && upper.isEmpty && decide (3 < (rowOf d lower).length)) &&
            walk cover (rowOf u.compound upper) (rowOf l.compound links))) := by
  obtain ⟨joint, c'⟩ := u
  obtain ⟨joint', d'⟩ := l
  obtain ⟨row, hrow⟩ := rowOf_eq_cons d lower
  rw [hrow] at found ⊢
  cases joint with
  | none =>
    obtain ⟨row', hrow'⟩ := rowOf_eq_cons c' upper
    simp only [rowOf, hrow', walk, ite_lt_false, found]
    refine congrArg (_ && ·) ?_
    rcases joint' with _ | k
    · obtain ⟨row'', hrow''⟩ := rowOf_eq_cons d' links
      rw [linksRow, hrow'']
      rfl
    · rw [linksRow, ← isChild_eq_spans, Option.isSome_none, Bool.false_and, Bool.false_and,
        Bool.not_false, Bool.and_true]
  | some k =>
    simp only [rowOf, walk, ite_lt_false, found]
    refine congrArg (_ && ·) ?_
    rcases joint' with _ | k'
    · obtain ⟨row'', hrow''⟩ := rowOf_eq_cons d' links
      have no : spans (some k) [none] = false := by cases k <;> rfl
      rw [linksRow, hrow'', no]
      rfl
    · rw [linksRow, length_rowOf_beq_one, ← allows_eq_spans]
      rfl

/-- Where nothing is accepted the walk ends. -/
theorem walk_rowOf_cons_of_none {c d : Compound} {u : Link} {upper lower : List Link}
    (missing : firstAccepted (cover c) [] (rowOf d lower) = none) :
    walk cover (rowOf c (u :: upper)) (rowOf d lower) = false := by
  obtain ⟨joint, c'⟩ := u
  obtain ⟨row, hrow⟩ := rowOf_eq_cons d lower
  obtain ⟨row', hrow'⟩ := rowOf_eq_cons c' upper
  rw [hrow] at missing ⊢
  cases joint <;> simp [rowOf, hrow', walk, missing]

/-- What a step of a walk that says yes has found. -/
theorem exists_of_walk {c d : Compound} {u : Link} {upper lower : List Link}
    (h : walk cover (rowOf c (u :: upper)) (rowOf d lower) = true) :
    ∃ skipped l links, lower = skipped ++ l :: links ∧
      (∃ parents, cover c (compoundAfter d skipped) parents = true) ∧
      spans u.joint [l.joint] = true ∧
      (u.joint.isSome = true → upper = [] → (rowOf d lower).length ≤ 3) ∧
      walk cover (rowOf u.compound upper) (rowOf l.compound links) = true := by
  cases found : firstAccepted (cover c) [] (rowOf d lower) with
  | none =>
    rw [walk_rowOf_cons_of_none found] at h
    cases h
  | some rest =>
    obtain ⟨skipped, l, links, rfl, rfl, acc⟩ := exists_of_firstAccepted found
    rw [walk_rowOf_cons found] at h
    simp only [Bool.and_eq_true, Bool.not_eq_true'] at h
    obtain ⟨-, ⟨span, last⟩, rest⟩ := h
    refine ⟨skipped, l, links, rfl, acc, span, fun hu hup => ?_, rest⟩
    subst hup
    simpa [hu] using last

theorem spans_self : ∀ j : Joint, spans j [j] = true
  | none => rfl
  | some .child => rfl
  | some .nextSibling => rfl
  | some .followingSibling => rfl

/-- Two chains that begin alike go on behind their first compounds. -/
theorem walk_same_head {c d : Compound} {u : Link} {upper lower : List Link}
    (acc : cover c c [] = true) (len : (rowOf u.compound upper).length ≤ (rowOf d lower).length)
    (last : upper = [] → lower = []) :
    walk cover (rowOf c (u :: upper)) (rowOf c (⟨u.joint, d⟩ :: lower))
      = walk cover (rowOf u.compound upper) (rowOf d lower) := by
  have width : (⟨u.joint, d⟩ : Link).width = u.width := by
    obtain ⟨joint, e⟩ := u
    cases joint <;> rfl
  have short : upper.isEmpty = true →
      ¬ 3 < (rowOf c (⟨u.joint, d⟩ :: lower)).length := by
    intro empty
    rw [last (List.isEmpty_iff.1 empty), length_rowOf_cons, width]
    obtain ⟨joint, e⟩ := u
    cases joint <;> simp [Link.width, rowOf]
  rw [walk_rowOf_cons (firstAccepted_cons_of_accept acc), spans_self, length_rowOf_cons,
    length_rowOf_cons, width, decide_eq_true (Nat.add_le_add_left len _)]
  cases he : upper.isEmpty with
  | false => simp
  | true =>
    have := short he
    rw [length_rowOf_cons, width] at this
    simp [this]

/-- The walk accepts a row against itself, if compounds cover themselves. -/
theorem walk_self {c : Compound} {links : List Link} (hc : ∀ parents, cover c c parents = true)
    (hl : ∀ l ∈ links, ∀ parents, cover l.compound l.compound parents = true) :
    walk cover (rowOf c links) (rowOf c links) = true := by
  induction links generalizing c with
  | nil =>
    rw [walk_rowOf_nil, coversLast, getLast?_rowOf]
    simp [rowOf, hasRepeatedCombinator, hc]
  | cons l links ih =>
    rw [List.forall_mem_cons] at hl
    rw [walk_same_head (hc []) (Nat.le_refl _) id]
    exact ih hl.1 hl.2

end Step

end SelectorAlgebra
