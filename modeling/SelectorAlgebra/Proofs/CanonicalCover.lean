import Mathlib
import SelectorAlgebra.Proofs.AlikeRows
import SelectorAlgebra.Proofs.CanonicalForms
import SelectorAlgebra.Proofs.Tables

/-!
# Proofs/CanonicalCover — coverage and trimming do not see what canonical forms forget

* `itemsSuperselector_canonical` — a row is above another exactly if their canonical forms are.
* `trim_canonical` — trimming canonical choices leaves the canonical forms of what it leaves of the
  choices.

Coverage calls itself on arguments through a relation `sup`, so each lemma about compounds asks of
`sup` what the theorem says (`IsInvariant`); the levels close the circle.
-/

namespace SelectorAlgebra

/-- The relation does not see what canonical forms forget. -/
def IsInvariant (sup : ItemsRelation) : Prop :=
  ∀ upper lower, sup (upper.map Item.canonical) (lower.map Item.canonical) = sup upper lower

/-! ## Compounds -/

section Compounds

variable {sup : ItemsRelation} (inv : IsInvariant sup)

/-- A list requires a condition exactly when its canonical form requires the canonical one. -/
@[simp] theorem SelectorList.requires_canonical (l : SelectorList) (s : Simple) :
    SelectorList.requires (l.map Complex.canonical) s.canonical = l.requires s := by
  rw [requires, List.all_map, requires]
  refine List.all_congr rfl fun c => ?_
  cases h : c.singleCompound? <;> simp [h]

/-- Implication between two conditions compares them and looks into subset pseudo-classes, and both
are blind to the form. -/
@[simp] theorem Simple.impliedBy_canonical (s condition : Simple) :
    s.canonical.impliedBy condition.canonical = s.impliedBy condition := by
  unfold impliedBy
  rw [beq_canonical]
  cases condition with
  | pseudo p => cases h : p.selector <;> simp [h]
  | _ => rfl

@[simp] theorem Simple.metBy_canonical (s : Simple) (c : Compound) :
    s.canonical.metBy (c.map Simple.canonical) = s.metBy c := by
  simp [metBy, List.any_map, Function.comp_def]

/-- The arguments of the pseudos of a given name are those of the canonical compound, in canonical
form. -/
@[simp] theorem Compound.argumentsOf_canonical (c : Compound) (name : String) (element : Bool) :
    Compound.argumentsOf (c.map Simple.canonical) name element
      = (c.argumentsOf name element).map (List.map Complex.canonical) := by
  rw [argumentsOf, List.filterMap_map, argumentsOf, List.map_filterMap]
  refine List.filterMap_congr fun s _ => ?_
  cases s with
  | pseudo p => simp [apply_ite (Option.map (List.map Complex.canonical))]
  | _ => rfl

include inv

/-- A list covers another choice by choice; an invariant relation on rows gives an invariant one on
lists. -/
theorem listCovers_canonical (l l' : SelectorList) :
    listCovers sup (l.map Complex.canonical) (l'.map Complex.canonical) = listCovers sup l l' := by
  simp only [listCovers, List.all_map, List.any_map, Function.comp_def, Complex.items_canonical,
    inv _ _]

/-- What rules out a branch is a type or an identifier that differs, or a pseudo of the same
name. -/
theorem Simple.rulesOut_canonical (name : String) (condition : Simple) (branch : Complex) :
    condition.canonical.rulesOut sup name branch.canonical
      = condition.rulesOut sup name branch := by
  cases condition with
  | pseudo p =>
    cases h : p.selector with
    | none => simp [rulesOut, h]
    | some l =>
      have same := listCovers_canonical inv l [branch]
      simp_all [rulesOut]
  | type name' =>
    have same : ∀ s : Simple, (s.canonical != .type name') = (s != .type name') := fun s =>
      s.bne_canonical (.type name')
    cases h : branch.lastCompound? <;> simp [rulesOut, h, Function.comp_def, same]
  | idName name' =>
    have same : ∀ s : Simple, (s.canonical != .idName name') = (s != .idName name') := fun s =>
      s.bne_canonical (.idName name')
    cases h : branch.lastCompound? <;> simp [rulesOut, h, Function.comp_def, same]
  | _ => rfl

/-- The step at a pseudo with an argument, over a relation that is invariant one level down. -/
theorem Pseudo.metBy_canonical (p : Pseudo) (l : SelectorList) (compound : Compound)
    (parents : List Item) :
    p.canonical.metBy sup (l.map Complex.canonical) (compound.map Simple.canonical)
      (parents.map Item.canonical) = p.metBy sup l compound parents := by
  have among : ∀ element, ((Compound.argumentsOf (compound.map Simple.canonical) p.name element).any
      fun l' => listCovers sup (l.map Complex.canonical) l')
      = (compound.argumentsOf p.name element).any fun l' => listCovers sup l l' := by
    intro element
    simp only [Compound.argumentsOf_canonical, List.any_map, Function.comp_def,
      listCovers_canonical inv]
  have itself : ((l.map Complex.canonical).any fun c =>
      sup c.items (parents.map Item.canonical ++ [.compound (compound.map Simple.canonical)]))
      = l.any fun c => sup c.items (parents ++ [.compound compound]) := by
    rw [List.any_map]
    refine List.any_congr rfl fun c => ?_
    have row := inv c.items (parents ++ [.compound compound])
    simpa using row
  have excluded : ((l.map Complex.canonical).all fun branch =>
      (compound.map Simple.canonical).any fun s => s.rulesOut sup p.name branch)
      = l.all fun branch => compound.any fun s => s.rulesOut sup p.name branch := by
    simp only [List.all_map, List.any_map, Function.comp_def, Simple.rulesOut_canonical inv]
  have current : ((Compound.argumentsOf (compound.map Simple.canonical) p.name false).any
      fun l' => l.map Complex.canonical == l')
      = (compound.argumentsOf p.name false).any fun l' => l == l' := by
    simp only [Compound.argumentsOf_canonical, List.any_map, Function.comp_def,
      beq_map Complex.beq_canonical]
  have other := Simple.metBy_canonical (.pseudo p) compound
  rw [Simple.canonical_pseudo] at other
  unfold Pseudo.metBy
  simp only [kind_canonical, name_canonical, argument_canonical, among, itself, excluded, current,
    other]
  split
  all_goals try rfl
  -- what is left are the two kinds with a formula
  all_goals
    rw [List.any_map]
    refine List.any_congr rfl fun s => ?_
    cases s with
    | pseudo p' => simp [Option.any_map, listCovers_canonical inv]
    | _ => rfl

theorem Simple.metBehind_canonical (s : Simple) (compound : Compound) (parents : List Item) :
    s.canonical.metBehind sup (compound.map Simple.canonical) (parents.map Item.canonical)
      = s.metBehind sup compound parents := by
  have met := s.metBy_canonical compound
  cases s with
  | pseudo p =>
    rw [canonical_pseudo] at met ⊢
    unfold metBehind
    cases h : p.selector with
    | none => simpa [h] using met
    | some l => simpa [h] using p.metBy_canonical inv l compound parents
  | _ => exact met

/-- One compound covers another when each of its conditions is met. -/
theorem covers_canonical (c₁ c₂ : Compound) (parents : List Item) :
    covers sup (c₁.map Simple.canonical) (c₂.map Simple.canonical) (parents.map Item.canonical)
      = covers sup c₁ c₂ parents := by
  simp only [covers, List.all_map, Function.comp_def, Simple.metBehind_canonical inv,
    Simple.isPlainPseudoElement_canonical, Simple.metBy_canonical]

end Compounds

/-! ## Rows -/

/-- A row and its canonical form, as rows that are alike. -/
theorem alikeRows_canonical_iff {row row' : List Item} :
    AlikeRows (fun c c' => c' = c.map Simple.canonical) row row' ↔
      row' = row.map Item.canonical := by
  refine ⟨fun h => ?_, ?_⟩
  · induction h with
    | nil => rfl
    | cons hi _ ih => cases hi <;> simp_all
  · rintro rfl
    refine List.forall₂_map_right_iff.2 (List.forall₂_same.2 fun item _ => ?_)
    cases item with
    | compound c => exact .compound rfl
    | combinator k => exact .combinator k

/-- The walk over two rows asks only `cover`, so it is invariant where `cover` is. -/
theorem rowCovers_canonical {cover : Compound → Compound → List Item → Bool}
    (inv : ∀ c₁ c₂ parents, cover (c₁.map Simple.canonical) (c₂.map Simple.canonical)
      (parents.map Item.canonical) = cover c₁ c₂ parents) (upper lower : List Item) :
    rowCovers cover (upper.map Item.canonical) (lower.map Item.canonical)
      = rowCovers cover upper lower := by
  refine (rowCovers_alike ?_ (alikeRows_canonical_iff.2 rfl) (alikeRows_canonical_iff.2 rfl)).symm
  rintro c₁ _ c₂ _ parents parents' rfl rfl hp
  rw [alikeRows_canonical_iff.1 hp, inv]

/-! ## The relation -/

/-- Every level of the relation is invariant, by induction on the level. -/
theorem isInvariant_superWithin : ∀ n : ℕ, IsInvariant (superWithin n)
  | 0 => fun _ _ => rfl
  | n + 1 => rowCovers_canonical (covers_canonical (isInvariant_superWithin n))

/-- **A row is above another exactly if their canonical forms are.** -/
theorem itemsSuperselector_canonical : IsInvariant itemsSuperselector := by
  intro upper lower
  rw [itemsSuperselector, nestingOfItems_map_canonical, nestingOfItems_map_canonical,
    isInvariant_superWithin, itemsSuperselector]

/-- The relation on parents compares rows that end in the same placeholder. -/
@[simp] theorem parentSuperselector_canonical (upper lower : List Item) :
    parentSuperselector (upper.map Item.canonical) (lower.map Item.canonical)
      = parentSuperselector upper lower := by
  have rows := itemsSuperselector_canonical (upper ++ [.compound unmentioned])
    (lower ++ [.compound unmentioned])
  have temp : (Item.compound unmentioned).canonical = .compound unmentioned := rfl
  rw [List.map_append, List.map_append, List.map_singleton, temp] at rows
  simp [parentSuperselector, rows, Option.any_map]

@[simp] theorem Compound.isSuperselector_canonical (c₁ c₂ : Compound) :
    Compound.isSuperselector (c₁.map Simple.canonical) (c₂.map Simple.canonical)
      = c₁.isSuperselector c₂ :=
  covers_canonical itemsSuperselector_canonical c₁ c₂ []

/-- **Canonical forms stand in the same relation as what they came from.** -/
@[simp] theorem Complex.isSuperselector_canonical (c₁ c₂ : Complex) :
    c₁.canonical.isSuperselector c₂.canonical = c₁.isSuperselector c₂ := by
  rw [isSuperselector, items_canonical, items_canonical, itemsSuperselector_canonical,
    isSuperselector]

/-! ## Trimming -/

theorem Compound.sourceSpecificity_canonical (sources : SourceSpecificity) (c : Compound) :
    Compound.sourceSpecificity sources (c.map Simple.canonical) = c.sourceSpecificity sources := by
  rw [sourceSpecificity, List.filterMap_map, sourceSpecificity]
  exact congrArg (List.foldl max 0 ·) (List.filterMap_congr fun s _ =>
    sources.get?_congr s.canonical_beq_self)

@[simp] theorem Complex.sourceSpecificity_canonical (sources : SourceSpecificity) (c : Complex) :
    c.canonical.sourceSpecificity sources = c.sourceSpecificity sources := by
  simp [sourceSpecificity, Function.comp_def, Compound.sourceSpecificity_canonical]

/-- Being dominated compares source specificities and asks the relation. -/
@[simp] theorem Complex.dominatedBy_canonical (sources : SourceSpecificity) (c d : Complex) :
    c.canonical.dominatedBy sources d.canonical = c.dominatedBy sources d := by
  simp [dominatedBy]

theorem moveToFront_canonical (c : Complex) (l : List Complex) :
    moveToFront c.canonical (l.map Complex.canonical)
      = (moveToFront c l).map Complex.canonical := by
  unfold moveToFront
  simp only [List.find?_map, List.eraseP_map, Function.comp_def, Complex.beq_canonical]
  cases l.find? (· == c) <;> simp

section Trimming

variable {sources : SourceSpecificity} {authored : Complex → Bool}
  (inv : ∀ c, authored c.canonical = authored c)

include inv

/-- One pass of trimming drops the same choices, from any choices kept so far. -/
theorem trimAfter_canonical : ∀ before l : List Complex,
    trimAfter sources authored (before.map Complex.canonical) (l.map Complex.canonical)
      = (trimAfter sources authored before l).map Complex.canonical
  | _, [] => rfl
  | before, c :: l => by
    have rest := trimAfter_canonical (before ++ [c]) l
    rw [List.map_append, List.map_singleton] at rest
    simp only [List.map_cons, trimAfter, rest, inv, List.any_map, Function.comp_def,
      Complex.dominatedBy_canonical, moveToFront_canonical]
    split
    · rfl
    split <;> rfl

/-- **Trimming canonical choices** leaves the canonical forms of what it leaves of the choices. -/
theorem trim_canonical (l : List Complex) : trim sources authored (l.map Complex.canonical)
    = (trim sources authored l).map Complex.canonical := by
  rw [trim, List.length_map, trim, apply_ite (List.map Complex.canonical)]
  exact congrArg (ite _ _ ·) (trimAfter_canonical inv [] l)

end Trimming

end SelectorAlgebra
