import SelectorAlgebra.Superselector.Basic

/-!
# Superselector/Unfold — the relation between rows calls itself on arguments

`itemsSuperselector` is defined through `superWithin`, which stops after a number of levels.  That
number is always enough, so the relation satisfies the equation it is meant by:

    itemsSuperselector = rowCovers (covers itemsSuperselector)

The engine is that `covers` asks its relation only about rows that together nest less deep than
the two compounds do (`covers_congr`).
-/

namespace SelectorAlgebra

/-- Two relations give the same answers for rows that together nest less than `bound` deep. -/
def AgreeBelow (bound : Nat) (sup sup' : ItemsRelation) : Prop :=
  ∀ upper lower, nestingOfItems upper + nestingOfItems lower < bound →
    sup upper lower = sup' upper lower

/-! ## Members and parts -/

theorem any_congr_mem {α : Type} {p q : α → Bool} : ∀ {l : List α},
    (∀ x ∈ l, p x = q x) → l.any p = l.any q
  | [], _ => rfl
  | x :: l, h => by
    rw [List.any_cons, List.any_cons, h x List.mem_cons_self,
      any_congr_mem fun y hy => h y (List.mem_cons_of_mem x hy)]

theorem all_congr_mem {α : Type} {p q : α → Bool} : ∀ {l : List α},
    (∀ x ∈ l, p x = q x) → l.all p = l.all q
  | [], _ => rfl
  | x :: l, h => by
    rw [List.all_cons, List.all_cons, h x List.mem_cons_self,
      all_congr_mem fun y hy => h y (List.mem_cons_of_mem x hy)]

theorem nestingOfItems_append (row row' : List Item) :
    nestingOfItems (row ++ row') = max (nestingOfItems row) (nestingOfItems row') := by
  induction row with
  | nil => simp [nestingOfItems]
  | cons item row ih =>
    cases item with
    | compound c => simp [nestingOfItems, ih, Nat.max_assoc]
    | combinator k => simp [nestingOfItems, ih]

theorem nestingOfList_lt_nestingOfCompound {p : Pseudo} {l : SelectorList} {c : Compound}
    (hp : Simple.pseudo p ∈ c) (hl : p.selector = some l) :
    nestingOfList l < nestingOfCompound c :=
  Nat.lt_of_lt_of_le (nestingOfList_lt_nesting (s := .pseudo p) hl)
    (nesting_le_nestingOfCompound hp)

theorem nestingOfList_lt_of_mem_argumentsOf {c : Compound} {name : String} {element : Bool}
    {l : SelectorList} (h : l ∈ c.argumentsOf name element) :
    nestingOfList l < nestingOfCompound c := by
  obtain ⟨s, hs, hl⟩ := List.mem_filterMap.1 h
  split at hl
  · split at hl
    · exact nestingOfList_lt_nestingOfCompound hs hl
    · cases hl
  · cases hl

/-! ## Compounds -/

section Compounds

variable {bound : Nat} {sup sup' : ItemsRelation}

theorem listCovers_congr (agree : AgreeBelow bound sup sup') {l l' : SelectorList}
    (hl : nestingOfList l + nestingOfList l' < bound) :
    listCovers sup l l' = listCovers sup' l l' := by
  refine all_congr_mem fun c' hc' => any_congr_mem fun c hc => agree _ _ ?_
  have := nestingOfItems_le_nestingOfList hc
  have := nestingOfItems_le_nestingOfList hc'
  omega

theorem Simple.rulesOut_congr (agree : AgreeBelow bound sup sup') {name : String}
    {compound : Compound} {condition : Simple} {branch : Complex} (mem : condition ∈ compound)
    (hb : nestingOfItems branch.items + nestingOfCompound compound ≤ bound) :
    condition.rulesOut sup name branch = condition.rulesOut sup' name branch := by
  unfold Simple.rulesOut
  split
  · rfl
  · rfl
  · split
    · rename_i l hl
      rw [listCovers_congr agree]
      have := nestingOfList_lt_nestingOfCompound mem hl
      have : nestingOfList [branch] = nestingOfItems branch.items := by
        cases branch; simp [nestingOfList]
      omega
    · rfl
  · rfl

theorem Pseudo.metBy_congr (agree : AgreeBelow bound sup sup') {p : Pseudo} {l : SelectorList}
    {compound : Compound} {parents : List Item}
    (hb : nestingOfList l + nestingOfItems (parents ++ [.compound compound]) < bound) :
    p.metBy sup l compound parents = p.metBy sup' l compound parents := by
  have hc : nestingOfList l + nestingOfCompound compound < bound := by
    rw [nestingOfItems_append] at hb
    simp only [nestingOfItems] at hb
    omega
  have among : ∀ element, ((compound.argumentsOf p.name element).any fun l' => listCovers sup l l')
      = (compound.argumentsOf p.name element).any fun l' => listCovers sup' l l' := by
    intro element
    refine any_congr_mem fun l' hl' => listCovers_congr agree ?_
    have := nestingOfList_lt_of_mem_argumentsOf hl'
    omega
  have itself : (l.any fun c => sup c.items (parents ++ [.compound compound]))
      = l.any fun c => sup' c.items (parents ++ [.compound compound]) := by
    refine any_congr_mem fun c hc => agree _ _ ?_
    have := nestingOfItems_le_nestingOfList hc
    omega
  unfold Pseudo.metBy
  simp only [among, itself]
  split
  all_goals try rfl
  · refine all_congr_mem fun branch hbranch => any_congr_mem fun s hs =>
      Simple.rulesOut_congr agree hs ?_
    have := nestingOfItems_le_nestingOfList hbranch
    omega
  all_goals
    refine any_congr_mem fun s hs => ?_
    split
    · rename_i p'
      cases hsel : p'.selector with
      | none => simp
      | some l' =>
        have := nestingOfList_lt_nestingOfCompound hs hsel
        simp [listCovers_congr agree (show nestingOfList l + nestingOfList l' < bound by omega)]
    · rfl

/-- Whether a compound covers another hangs only on rows that nest less deep than the two. -/
theorem covers_congr (agree : AgreeBelow bound sup sup') {c₁ c₂ : Compound} {parents : List Item}
    (hb : nestingOfCompound c₁ + nestingOfItems (parents ++ [.compound c₂]) ≤ bound) :
    covers sup c₁ c₂ parents = covers sup' c₁ c₂ parents := by
  unfold covers
  congr 1
  refine all_congr_mem fun s hs => ?_
  unfold Simple.metBehind
  split
  · split
    · rename_i l hl
      have := nestingOfList_lt_nestingOfCompound hs hl
      exact Pseudo.metBy_congr agree (by omega)
    · rfl
  · rfl

end Compounds

/-! ## Rows -/

section Rows

variable {n m : Nat} {cover cover' : Compound → Compound → List Item → Bool}

theorem firstAccepted_congr {accept accept' : Compound → List Item → Bool}
    (h : ∀ c parents, nestingOfItems (parents ++ [.compound c]) ≤ m →
      accept c parents = accept' c parents) :
    ∀ parents lower, nestingOfItems (parents ++ lower) ≤ m →
      firstAccepted accept parents lower = firstAccepted accept' parents lower
  | parents, item :: next :: rest, hm => by
    have same : (item.compound?.any fun c => accept c parents)
        = item.compound?.any fun c => accept' c parents := by
      cases item with
      | compound c =>
        refine h c parents ?_
        simp only [nestingOfItems_append, nestingOfItems] at hm ⊢
        omega
      | combinator k => rfl
    simp only [firstAccepted, same]
    split
    · rfl
    · exact firstAccepted_congr h (parents ++ [item]) (next :: rest) (by simpa using hm)
  | _, [], _ => rfl
  | _, [_], _ => rfl

theorem firstAccepted_nesting {accept : Compound → List Item → Bool} :
    ∀ {parents lower rest : List Item}, firstAccepted accept parents lower = some rest →
      nestingOfItems rest ≤ nestingOfItems lower
  | parents, item :: next :: lower, rest, h => by
    have le : nestingOfItems (next :: lower) ≤ nestingOfItems (item :: next :: lower) := by
      rw [show item :: next :: lower = [item] ++ (next :: lower) from rfl, nestingOfItems_append]
      omega
    simp only [firstAccepted] at h
    split at h
    · cases h; exact le
    · exact Nat.le_trans (firstAccepted_nesting h) le
  | _, [], _, h => by cases h
  | _, [_], _, h => by cases h

theorem coversLast_congr
    (h : ∀ c₁ c₂ parents, nestingOfCompound c₁ ≤ n →
      nestingOfItems (parents ++ [.compound c₂]) ≤ m → cover c₁ c₂ parents = cover' c₁ c₂ parents)
    {c₁ : Compound} {lower : List Item} (h₁ : nestingOfCompound c₁ ≤ n)
    (h₂ : nestingOfItems lower ≤ m) :
    coversLast cover c₁ lower = coversLast cover' c₁ lower := by
  unfold coversLast
  split
  · rename_i c₂ hlast
    obtain ⟨parents, rfl⟩ := List.getLast?_eq_some_iff.1 hlast
    rw [List.dropLast_concat, h c₁ c₂ parents h₁ h₂]
  · rfl

theorem walk_congr
    (h : ∀ c₁ c₂ parents, nestingOfCompound c₁ ≤ n →
      nestingOfItems (parents ++ [.compound c₂]) ≤ m → cover c₁ c₂ parents = cover' c₁ c₂ parents) :
    ∀ upper lower, nestingOfItems upper ≤ n → nestingOfItems lower ≤ m →
      walk cover upper lower = walk cover' upper lower
  | upper, [], _, _ => by simp only [walk]
  | upper, .combinator _ :: _, _, _ => by simp only [walk]
  | [], .compound _ :: _, _, _ => rfl
  | .combinator _ :: _, .compound _ :: _, _, _ => rfl
  | [.compound c₁], .compound c₂ :: lower, h₁, h₂ => by
    simp only [walk]
    exact coversLast_congr h (by simpa [nestingOfItems] using h₁) h₂
  | .compound c₁ :: .combinator k₁ :: upper, .compound c₂ :: lower, h₁, h₂ => by
    simp only [nestingOfItems, Nat.max_le] at h₁
    have same : firstAccepted (cover c₁) [] (.compound c₂ :: lower)
        = firstAccepted (cover' c₁) [] (.compound c₂ :: lower) :=
      firstAccepted_congr (fun c parents hc => h c₁ c parents h₁.1 hc) [] _ h₂
    simp only [walk, ← same]
    split
    · rfl
    · split
      · rename_i k₂ rest found
        have le := firstAccepted_nesting found
        simp only [nestingOfItems] at le h₂
        rw [walk_congr h upper rest h₁.2 (by omega)]
      · rfl
  | .compound c₁ :: .compound c :: upper, .compound c₂ :: lower, h₁, h₂ => by
    have h₁' : nestingOfCompound c₁ ≤ n ∧ nestingOfItems (.compound c :: upper) ≤ n := by
      simpa only [nestingOfItems, Nat.max_le] using h₁
    have same : firstAccepted (cover c₁) [] (.compound c₂ :: lower)
        = firstAccepted (cover' c₁) [] (.compound c₂ :: lower) :=
      firstAccepted_congr (fun c parents hc => h c₁ c parents h₁'.1 hc) [] _ h₂
    simp only [walk, ← same]
    split
    · rfl
    · split
      · rename_i k₂ rest found
        have le := firstAccepted_nesting found
        simp only [nestingOfItems] at le h₂
        rw [walk_congr h (.compound c :: upper) rest h₁'.2 (by omega)]
      · rename_i rest _ found
        exact walk_congr h (.compound c :: upper) rest h₁'.2
          (Nat.le_trans (firstAccepted_nesting found) h₂)
      · rfl

end Rows

/-! ## Levels -/

/-- A step of the relation between rows hangs only on rows that nest less deep than the two. -/
theorem rowCovers_congr {sup sup' : ItemsRelation} {upper lower : List Item}
    (agree : AgreeBelow (nestingOfItems upper + nestingOfItems lower) sup sup') :
    rowCovers (covers sup) upper lower = rowCovers (covers sup') upper lower := by
  unfold rowCovers
  rw [walk_congr (n := nestingOfItems upper) (m := nestingOfItems lower)
    (fun c₁ c₂ parents h₁ h₂ => covers_congr agree (by omega)) upper lower (Nat.le_refl _)
    (Nat.le_refl _)]

/-- Any two numbers of levels that are enough give the same answer. -/
theorem superWithin_congr : ∀ {n m : Nat} {upper lower : List Item},
    nestingOfItems upper + nestingOfItems lower < n →
    nestingOfItems upper + nestingOfItems lower < m →
    superWithin n upper lower = superWithin m upper lower
  | n + 1, m + 1, upper, lower, hn, hm =>
    rowCovers_congr fun _ _ h => superWithin_congr (by omega) (by omega)

/-- The relation between rows calls itself on arguments. -/
theorem itemsSuperselector_eq (upper lower : List Item) :
    itemsSuperselector upper lower = rowCovers (covers itemsSuperselector) upper lower :=
  rowCovers_congr fun _ _ h => superWithin_congr h (Nat.lt_succ_self _)

/-- Two rows of one compound are related as their compounds are. -/
theorem itemsSuperselector_compound (c d : Compound) :
    itemsSuperselector [.compound c] [.compound d] = c.isSuperselector d := by
  simp [itemsSuperselector_eq, rowCovers, walk, coversLast, hasRepeatedCombinator, Item.isCompound,
    Compound.isSuperselector]

end SelectorAlgebra
