import Mathlib
import SelectorAlgebra.Proofs.MisplacedRows

/-!
# Proofs/ParentRows — comparing parents does not depend on their child

`parentSuperselector` puts a compound behind both rows that selectors are not expected to
mention, and compares the results.  Any compound without arguments would do, even one
that the rows do mention:

    parentSuperselector upper lower  =  itemsSuperselector (upper c) (lower c)

* `parentSuperselector_eq_itemsSuperselector` — for all rows, with combinators anywhere.

The engine is `firstAccepted_concat`: a search leaves the last item of the lower row out, so it
finds the same place whatever that item is.  So no compound of the upper row is ever held against
the child, and the walk takes the same steps until only the child is left on both sides
(`Walked.replace_last`).
-/

namespace SelectorAlgebra

/-! ## Searching a row whose last item is replaced -/

theorem firstAccepted_cons_concat (accept : Compound → List Item → Bool)
    (parents row : List Item) (item last : Item) :
    firstAccepted accept parents (item :: (row ++ [last]))
      = if item.compound?.any fun c => accept c parents then some (row ++ [last])
        else firstAccepted accept (parents ++ [item]) (row ++ [last]) := by
  cases row <;> rfl

/-- **A search finds the same place whatever the last item is.** -/
theorem firstAccepted_concat {accept : Compound → List Item → Bool} {parents row left : List Item}
    {last : Item} (h : firstAccepted accept parents (row ++ [last]) = some left) :
    ∃ rest, left = rest ++ [last] ∧
      ∀ last', firstAccepted accept parents (row ++ [last']) = some (rest ++ [last']) := by
  induction row generalizing parents with
  | nil => cases h
  | cons item row ih =>
    simp only [List.cons_append, firstAccepted_cons_concat] at h ⊢
    split at h
    · rename_i accepted
      exact ⟨row, (Option.some.inj h).symm, fun _ => if_pos accepted⟩
    · rename_i refused
      obtain ⟨rest, eq, found⟩ := ih h
      exact ⟨rest, eq, fun last' => (if_neg refused).trans (found last')⟩

/-- A row that ends in an item, cut in two with something behind the cut. -/
theorem exists_concat_of_append {α : Type} (before : List α) {rest row : List α} {last : α}
    (eq : row ++ [last] = before ++ rest) (filled : rest ≠ []) :
    ∃ init, row = before ++ init ∧ rest = init ++ [last] := by
  obtain ⟨init, last', rfl⟩ := (List.eq_nil_or_concat rest).resolve_left filled
  rw [List.concat_eq_append, ← List.append_assoc] at eq
  obtain ⟨rfl, same⟩ := List.append_inj' eq rfl
  rw [List.concat_eq_append, same]
  exact ⟨init, rfl, rfl⟩

/-! ## Walking with the child replaced -/

section Walk

variable {cover : Compound → Compound → List Item → Bool} {c c' : Compound}
  {upper lower : List Item}

/-- Covering the last compound looks at the compounds before it and at their combinators. -/
theorem coversLast_concat (e : Compound) :
    coversLast cover e (lower ++ [Item.compound c])
      = (!hasRepeatedCombinator lower && cover e c lower) := by
  rw [coversLast, List.getLast?_concat, List.dropLast_concat]

/-- The walk takes the same steps for every child that covers itself. -/
theorem Walked.replace_last (own : ∀ parents, cover c' c' parents = true)
    (h : Walked cover (upper ++ [Item.compound c]) (lower ++ [Item.compound c])) :
    Walked cover (upper ++ [Item.compound c']) (lower ++ [Item.compound c']) := by
  generalize hupper : upper ++ [Item.compound c] = above at h
  generalize hlower : lower ++ [Item.compound c] = below at h
  induction h generalizing upper lower with
  | @last e d row covered =>
    obtain ⟨rfl, -⟩ := List.append_inj' (hupper.trans (List.nil_append _).symm) rfl
    rw [← hlower, coversLast_concat, Bool.and_eq_true] at covered
    have ends : coversLast cover c' (lower ++ [Item.compound c']) = true := by
      rw [coversLast_concat, covered.1, own, Bool.and_true]
    rcases lower with _ | ⟨d' | k, lower⟩
    · exact .last ends
    · exact .last ends
    · cases hlower
  | @step e d j j' above row rest found span tied further ih =>
    obtain ⟨⟨_, _, filled⟩, _, _, filled'⟩ := further.exists_cons
    have long : row ≠ [] := by
      rintro rfl
      cases found
    -- the child is the last item of the four rows, behind whatever is cut off before it
    obtain ⟨above, rfl, rfl⟩ := exists_concat_of_append (.compound e :: j.items) hupper
      (filled ▸ List.cons_ne_nil _ _)
    obtain ⟨row, rfl, rfl⟩ := exists_concat_of_append [.compound d] hlower long
    rw [← List.cons_append] at found
    obtain ⟨left, eq, found'⟩ := firstAccepted_concat found
    obtain ⟨rest, rfl, rfl⟩ := exists_concat_of_append j'.items eq.symm
      (filled' ▸ List.cons_ne_nil _ _)
    have next := found' (.compound c')
    rw [List.append_assoc] at next
    have tied' : j.isSome = true → (above ++ [Item.compound c']).length = 1 →
        (row ++ [Item.compound c']).length ≤ 2 := by simpa using tied
    simpa using Walked.step next span tied' (ih rfl rfl)

/-- The walk gives the same answer for any two children that cover themselves. -/
theorem walk_concat_congr (own : ∀ parents, cover c c parents = true)
    (own' : ∀ parents, cover c' c' parents = true) (upper lower : List Item) :
    walk cover (upper ++ [Item.compound c]) (lower ++ [Item.compound c])
      = walk cover (upper ++ [Item.compound c']) (lower ++ [Item.compound c']) := by
  rw [Bool.eq_iff_iff, walk_iff_walked, walk_iff_walked]
  exact ⟨.replace_last own', .replace_last own⟩

end Walk

/-! ## Parents -/

theorem itemsSuperselector_concat (upper lower : List Item) (c d : Compound) :
    itemsSuperselector (upper ++ [Item.compound c]) (lower ++ [Item.compound d])
      = walk (covers itemsSuperselector) (upper ++ [Item.compound c])
        (lower ++ [Item.compound d]) := by
  simp [itemsSuperselector_eq, rowCovers, Item.isCompound]

/-- A compound without arguments covers itself, behind any items. -/
theorem covers_self_of_plain {sup : ItemsRelation} {c : Compound}
    (plain : ∀ s ∈ c, s.argument? = none) (parents : List Item) :
    covers sup c c parents = true := by
  refine covers_self (fun p l hp hl => ?_) parents
  have missing : p.selector = none := plain _ hp
  rw [missing] at hl
  cases hl

theorem not_isCombinator_head {row rest : List Item} {c e : Compound}
    (eq : row ++ [Item.compound c] = .compound e :: rest) :
    row.head?.any Item.isCombinator = false := by
  rcases row with _ | ⟨e' | k, row⟩
  · rfl
  · rfl
  · cases eq

/-- The checks that are made before the walk never decide anything. -/
theorem parentSuperselector_eq_unmentioned (upper lower : List Item) :
    parentSuperselector upper lower = itemsSuperselector (upper ++ [Item.compound unmentioned])
      (lower ++ [Item.compound unmentioned]) := by
  rw [parentSuperselector, itemsSuperselector_concat, Bool.and_eq_right_iff_imp]
  intro yes
  have walked := walked_of_walk yes
  have short : upper.length ≤ lower.length := by simpa using walked.length_le
  obtain ⟨⟨_, _, first⟩, _, _, first'⟩ := walked.exists_cons
  rw [not_isCombinator_head first, not_isCombinator_head first', decide_eq_true short]
  rfl

/-- **Comparing parents does not depend on their child**: it is comparing the rows with any compound
without arguments behind both, even one that they mention. -/
theorem parentSuperselector_eq_itemsSuperselector (upper lower : List Item) (c : Compound)
    (plain : ∀ s ∈ c, s.argument? = none) :
    parentSuperselector upper lower
      = itemsSuperselector (upper ++ [Item.compound c]) (lower ++ [Item.compound c]) := by
  have plain' : ∀ s ∈ unmentioned, s.argument? = none := by simp [unmentioned, Simple.argument?]
  rw [parentSuperselector_eq_unmentioned, itemsSuperselector_concat, itemsSuperselector_concat]
  exact walk_concat_congr (covers_self_of_plain plain') (covers_self_of_plain plain) upper lower

/-- The row `%<temp>` is above `.a %<temp> >` as parents of any child, although both mention the
compound that is put behind them: so it is with `%<temp>::before` behind them. -/
theorem parentSuperselector_eq_itemsSuperselector_mentioned :
    ∃ (upper lower : List Item) (c : Compound),
    upper = [.compound unmentioned] ∧
    lower = [.compound [.className "a"], .compound unmentioned, .combinator .child] ∧
    c = [.placeholder "<temp>", .pseudo (.written "before" true none none)] ∧
    parentSuperselector upper lower = true ∧ (∀ s ∈ c, s.argument? = none) ∧
    parentSuperselector upper lower
      = itemsSuperselector (upper ++ [Item.compound c]) (lower ++ [Item.compound c]) :=
  ⟨_, _, _, rfl, rfl, rfl, by decide +kernel, by simp [Simple.argument?],
    parentSuperselector_eq_itemsSuperselector _ _ _ (by simp [Simple.argument?])⟩

end SelectorAlgebra
