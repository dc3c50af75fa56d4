import Mathlib
import SelectorAlgebra.Superselector.Unfold

/-!
# Proofs/AlikeRows — rows that the walk cannot tell apart

Two rows are **alike** up to a relation between compounds if they have the same combinators at the
same places and related compounds at the others.  The walk only asks `cover` about compounds, so on
alike rows it gives the same answer as soon as `cover` does (`rowCovers_alike`).

* `itemsSuperselector_reordered` — the order of the conditions inside a compound makes no
  difference to what is above what.

Coverage reads the conditions of a compound only through `any` and `all`.  It hands the compound on
to the rows of an argument, with the items before it, so those are alike there too; everything
inside an argument stays as it is.
-/

namespace SelectorAlgebra

/-- Two compounds that are related, or twice the same combinator. -/
inductive Item.Alike (E : Compound → Compound → Prop) : Item → Item → Prop where
  | compound {c c' : Compound} (h : E c c') : Alike E (.compound c) (.compound c')
  | combinator (k : Combinator) : Alike E (.combinator k) (.combinator k)

/-- Rows that are alike item by item. -/
abbrev AlikeRows (E : Compound → Compound → Prop) : List Item → List Item → Prop :=
  List.Forall₂ (Item.Alike E)

/-! ## The walk on alike rows -/

section Walk

variable {E : Compound → Compound → Prop}
  {row row' parents parents' upper upper' lower lower' : List Item}

theorem Item.Alike.isCompound_eq {item item' : Item} (h : item.Alike E item') :
    item.isCompound = item'.isCompound := by
  cases h <;> rfl

theorem AlikeRows.concat {item item' : Item} (h : AlikeRows E row row') (hi : item.Alike E item') :
    AlikeRows E (row ++ [item]) (row' ++ [item']) := List.rel_append h (.cons hi .nil)

/-- Alike rows are both empty, or end in alike items. -/
theorem AlikeRows.cases_last (h : AlikeRows E row row') : (row = [] ∧ row' = []) ∨
    ∃ init item init' item', row = init ++ [item] ∧ row' = init' ++ [item'] ∧
      AlikeRows E init init' ∧
      item.Alike E item' := by
  have back := List.forall₂_reverse_iff.2 h
  generalize hr : row.reverse = r at back
  generalize hr' : row'.reverse = r' at back
  cases back with
  | nil => exact .inl ⟨List.reverse_eq_nil_iff.1 hr, List.reverse_eq_nil_iff.1 hr'⟩
  | cons hi rest =>
    exact .inr ⟨_, _, _, _, List.reverse_eq_cons_iff.1 hr, List.reverse_eq_cons_iff.1 hr',
      List.forall₂_reverse_iff.2 rest, hi⟩

/-- Repeated combinators stand at the same places. -/
theorem AlikeRows.hasRepeatedCombinator_eq (h : AlikeRows E row row') :
    hasRepeatedCombinator row = hasRepeatedCombinator row' := by
  induction h with
  | nil => rfl
  | cons hi rest ih =>
    cases hi with
    | compound _ => exact ih
    | combinator k =>
      cases rest with
      | nil => rfl
      | cons hi' _ =>
        cases hi' with
        | compound _ => exact ih
        | combinator k' => rfl

theorem AlikeRows.any_getLast?_eq (h : AlikeRows E row row') :
    row.getLast?.any Item.isCompound = row'.getLast?.any Item.isCompound := by
  obtain ⟨rfl, rfl⟩ | ⟨init, item, init', item', rfl, rfl, -, hi⟩ := h.cases_last
  · rfl
  · simp [hi.isCompound_eq]

/-- Alike rows are searched alike. -/
theorem firstAccepted_alike {accept accept' : Compound → List Item → Bool}
    (same : ∀ ⦃c c' parents parents'⦄, E c c' → AlikeRows E parents parents' →
      accept c parents = accept' c' parents')
    (hp : AlikeRows E parents parents') (hl : AlikeRows E lower lower') :
    Option.Rel (AlikeRows E) (firstAccepted accept parents lower)
      (firstAccepted accept' parents' lower') := by
  induction hl generalizing parents parents' with
  | nil => exact .none
  | @cons item item' _ _ hi rest ih =>
    cases rest with
    | nil => exact .none
    | cons hi' rest =>
      have here : (item.compound?.any fun c => accept c parents)
          = item'.compound?.any fun c => accept' c parents' := by
        cases hi with
        | compound h => exact same h hp
        | combinator k => rfl
      simp only [firstAccepted, here]
      split
      · exact .some (.cons hi' rest)
      · exact ih (hp.concat hi)

variable {cover cover' : Compound → Compound → List Item → Bool}
  (same : ∀ ⦃c₁ c₁' c₂ c₂' parents parents'⦄, E c₁ c₁' → E c₂ c₂' → AlikeRows E parents parents' →
    cover c₁ c₂ parents = cover' c₁' c₂' parents')

include same

theorem coversLast_alike {c c' : Compound} (hc : E c c') (hl : AlikeRows E lower lower') :
    coversLast cover c lower = coversLast cover' c' lower' := by
  obtain ⟨rfl, rfl⟩ | ⟨init, item, init', item', rfl, rfl, hinit, hi⟩ := hl.cases_last
  · rfl
  · cases hi with
    | compound hd => simp [coversLast, hinit.hasRepeatedCombinator_eq, same hc hd hinit]
    | combinator k => simp [coversLast]

/-- One step of the walk on alike rows, if it goes on alike behind the places found. -/
theorem walk_step_alike {c c' d d' : Compound} {item item' : Item} (hc : E c c') (hd : E d d')
    (hi : item.Alike E item') (hu : AlikeRows E upper upper') (hl : AlikeRows E lower lower')
    (behind : ∀ ⦃rest rest'⦄, AlikeRows E rest rest' →
      walk cover upper rest = walk cover' upper' rest')
    (further : ∀ ⦃rest rest'⦄, AlikeRows E rest rest' →
      walk cover (item :: upper) rest = walk cover' (item' :: upper') rest') :
    walk cover (.compound c :: item :: upper) (.compound d :: lower)
      = walk cover' (.compound c' :: item' :: upper') (.compound d' :: lower') := by
  have found : Option.Rel (AlikeRows E) (firstAccepted (cover c) [] (.compound d :: lower))
      (firstAccepted (cover' c') [] (.compound d' :: lower')) :=
    firstAccepted_alike (fun _ _ _ _ h hp => same hc h hp) .nil (.cons (.compound hd) hl)
  generalize hplace : firstAccepted (cover c) [] (.compound d :: lower) = place at found
  generalize hplace' : firstAccepted (cover' c') [] (.compound d' :: lower') = place' at found
  cases hi with
  | combinator k =>
    simp only [walk, List.length_cons, hu.length_eq, hl.length_eq, hplace, hplace']
    rcases found with ⟨_ | ⟨_ | k₂, rest⟩⟩ | _
    · rfl
    · rfl
    · simp only [behind rest]
    · rfl
  | compound he =>
    simp only [walk, List.length_cons, hu.length_eq, hl.length_eq, hplace, hplace']
    rcases found with ⟨_ | ⟨hd' | k₂, rest⟩⟩ | _
    · simp only [walk]
    · simp only [further (.cons (.compound hd') rest)]
    · simp only [further rest]
    · rfl

/-- **The walk gives the same answer on alike rows**, by induction along the walk. -/
theorem walk_alike (hu : AlikeRows E upper upper') (hl : AlikeRows E lower lower') :
    walk cover upper lower = walk cover' upper' lower' := by
  -- a step takes one or two items off the upper row
  induction hn : upper.length using Nat.strong_induction_on
    generalizing upper upper' lower lower' with | _ n ih
  rcases hl with _ | ⟨hd | k, hl⟩
  · simp only [walk]
  · rcases hu with _ | ⟨hc | k, _ | ⟨hi, hu⟩⟩
    · rfl
    · exact coversLast_alike same hc (.cons (.compound hd) hl)
    · simp only [List.length_cons] at hn
      exact walk_step_alike same hc hd hi hu hl (fun _ _ rest => ih _ (by omega) hu rest rfl)
        fun _ _ rest => ih _ (by simp; omega) (.cons hi hu) rest rfl
    · simp only [walk]
    · simp only [walk]
  · simp only [walk]

/-- **On alike rows the walk gives the same answer**, if coverage does on alike compounds. -/
theorem rowCovers_alike (hu : AlikeRows E upper upper') (hl : AlikeRows E lower lower') :
    rowCovers cover upper lower = rowCovers cover' upper' lower' := by
  rw [rowCovers, hu.any_getLast?_eq, hl.any_getLast?_eq, walk_alike same hu hl, rowCovers]

end Walk

/-! ## Reordered conditions -/

/-- The second row is the first one with the conditions of each compound in some other order. -/
abbrev Reordered : List Item → List Item → Prop := AlikeRows List.Perm

theorem Reordered.refl (row : List Item) : Reordered row row := by
  refine List.forall₂_same.2 fun item _ => ?_
  cases item with
  | compound c => exact .compound (.refl c)
  | combinator k => exact .combinator k

/-- Depth is a maximum over conditions, so their order does not matter. -/
theorem nestingOfCompound_perm {c c' : Compound} (h : c.Perm c') :
    nestingOfCompound c = nestingOfCompound c' := by
  induction h with
  | nil => rfl
  | cons s _ ih => rw [nestingOfCompound, ih, nestingOfCompound]
  | swap s t c => simp only [nestingOfCompound, Nat.max_left_comm]
  | trans _ _ ih ih' => exact ih.trans ih'

theorem Reordered.nesting_eq {row row' : List Item} (h : Reordered row row') :
    nestingOfItems row = nestingOfItems row' := by
  induction h with
  | nil => rfl
  | cons hi _ ih =>
    cases hi with
    | compound hc => rw [nestingOfItems, nestingOfItems, nestingOfCompound_perm hc, ih]
    | combinator k => exact ih

section Compounds

variable {sup : ItemsRelation} {c c' : Compound} {parents parents' : List Item}
  (same : ∀ ⦃upper lower lower'⦄, Reordered lower lower' → sup upper lower = sup upper lower')

/-- Whether some condition implies `s` does not depend on their order. -/
theorem Simple.metBy_perm (s : Simple) (h : c.Perm c') : s.metBy c = s.metBy c' := h.any_eq

theorem Compound.argumentsOf_perm (h : c.Perm c') (name : String) (element : Bool) :
    (c.argumentsOf name element).Perm (c'.argumentsOf name element) := h.filterMap _

include same

/-- The cases of a pseudo with an argument quantify over conditions and ask the relation. -/
theorem Pseudo.metBy_reordered (p : Pseudo) (l : SelectorList) (h : c.Perm c')
    (hp : Reordered parents parents') : p.metBy sup l c parents = p.metBy sup l c' parents' := by
  have itself : ∀ d : Complex, sup d.items (parents ++ [.compound c])
      = sup d.items (parents' ++ [.compound c']) := fun _ => same (hp.concat (.compound h))
  unfold metBy
  simp only [itself, (Compound.argumentsOf_perm h p.name _).any_eq, h.any_eq, Simple.metBy_perm _ h]

/-- The step at any condition, over a relation that ignores order one level down. -/
theorem Simple.metBehind_reordered (s : Simple) (h : c.Perm c') (hp : Reordered parents parents') :
    s.metBehind sup c parents = s.metBehind sup c' parents' := by
  unfold metBehind
  simp only [Pseudo.metBy_reordered same _ _ h hp, Simple.metBy_perm _ h]

/-- Covering quantifies over both compounds. -/
theorem covers_reordered {d d' : Compound} (hc : c.Perm c') (hd : d.Perm d')
    (hp : Reordered parents parents') : covers sup c d parents = covers sup c' d' parents' := by
  simp only [covers, hc.all_eq, hd.all_eq, Simple.metBehind_reordered same _ hd hp,
    Simple.metBy_perm _ hc]

end Compounds

/-- Every level of the relation ignores order, by induction on the level. -/
theorem superWithin_reordered (n : ℕ) {upper upper' lower lower' : List Item}
    (hu : Reordered upper upper') (hl : Reordered lower lower') :
    superWithin n upper lower = superWithin n upper' lower' := by
  induction n generalizing upper upper' lower lower' with
  | zero => rfl
  | succ n ih =>
    have inside : ∀ ⦃upper lower lower'⦄, Reordered lower lower' →
        superWithin n upper lower = superWithin n upper lower' :=
        fun upper _ _ h => ih (.refl upper) h
    exact rowCovers_alike (fun _ _ _ _ _ _ => covers_reordered inside) hu hl

/-- **The order of the conditions inside compounds makes no difference to what is above what.** -/
theorem itemsSuperselector_reordered {upper upper' lower lower' : List Item}
    (hu : Reordered upper upper') (hl : Reordered lower lower') :
    itemsSuperselector upper lower = itemsSuperselector upper' lower' := by
  rw [itemsSuperselector, hu.nesting_eq, hl.nesting_eq, superWithin_reordered _ hu hl,
    itemsSuperselector]

/-- The row `:is(.x .a).b .c` is above `.x .a.b > .c#d`, and so it is with the conditions of every
compound the other way round. -/
theorem itemsSuperselector_reordered_argument : ∃ s : Simple,
    s = .pseudo (.around "is" [⟨[.compound [.className "x"], .compound [.className "a"]], false⟩]) ∧
    itemsSuperselector [.compound [s, .className "b"], .compound [.className "c"]]
      [.compound [.className "x"], .compound [.className "a", .className "b"], .combinator .child,
        .compound [.className "c", .idName "d"]] = true ∧
    itemsSuperselector [.compound [.className "b", s], .compound [.className "c"]]
      [.compound [.className "x"], .compound [.className "b", .className "a"], .combinator .child,
        .compound [.idName "d", .className "c"]] = true := by
  refine ⟨_, rfl, by cbv, ?_⟩
  exact (itemsSuperselector_reordered
    (.cons (.compound (.swap _ _ _)) (.cons (.compound (.refl _)) .nil))
    (.cons (.compound (.refl _)) (.cons (.compound (.swap _ _ _)) (.cons (.combinator _)
      (.cons (.compound (.swap _ _ _)) .nil))))).trans (by cbv)

end SelectorAlgebra
