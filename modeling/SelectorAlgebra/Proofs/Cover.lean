import SelectorAlgebra.Superselector.Unfold

/-!
# Proofs/Cover — compounds whose conditions are met only by themselves

A condition without selector argument is met by a compound without selector arguments only if it
stands there (`metBy_eq_contains`).  So, pseudo-elements apart, such a compound covers another one
exactly when it asks for a part of it (`covers_eq_all`), whatever stands before the two.
-/

namespace SelectorAlgebra

/-- Whether nothing but the condition itself has to do with it: it has no selector argument, and is
no pseudo-element. -/
def Simple.isSelfContained : Simple → Bool
  | .pseudo p => p.isClass && p.selector.isNone
  | _ => true

/-- A pseudo is self-contained when it is a class without an argument. -/
theorem isSelfContained_pseudo {p : Pseudo} :
    (Simple.pseudo p).isSelfContained = true ↔ p.isElement = false ∧ p.selector = none := by
  simp [Simple.isSelfContained, Pseudo.isClass_eq_not_isElement]

theorem Simple.argument?_of_isSelfContained {s : Simple} (h : s.isSelfContained = true) :
    s.argument? = none := by
  cases s with
  | pseudo p => exact (isSelfContained_pseudo.1 h).2
  | _ => rfl

/-- A condition without an argument implies only itself. -/
theorem Simple.impliedBy_eq_beq (s : Simple) {t : Simple} (h : t.argument? = none) :
    s.impliedBy t = (s == t) := by
  cases t with
  | pseudo p => simp [Simple.impliedBy, show p.selector = none from h]
  | _ => simp [Simple.impliedBy]

/-- So in a compound without arguments, being met is being there. -/
theorem Simple.metBy_eq_contains (s : Simple) {c : Compound} (h : ∀ t ∈ c, t.argument? = none) :
    s.metBy c = c.contains s := by
  rw [Simple.metBy, List.contains_eq_any_beq]
  exact any_congr_mem fun t ht => s.impliedBy_eq_beq (h t ht)

theorem Simple.metBehind_eq_metBy {sup : ItemsRelation} {s : Simple} (h : s.argument? = none)
    (c : Compound) (parents : List Item) : s.metBehind sup c parents = s.metBy c := by
  cases s with
  | pseudo p => simp [Simple.metBehind, show p.selector = none from h]
  | _ => rfl

/-- Self-contained conditions are not pseudo-elements. -/
theorem Simple.not_isPlainPseudoElement {s : Simple} (h : s.isSelfContained = true) :
    s.isPlainPseudoElement = false := by
  cases s with
  | pseudo p => simp [Simple.isPlainPseudoElement, (isSelfContained_pseudo.1 h).1]
  | _ => rfl

/-- **Among self-contained conditions, to cover is to ask for a part.** -/
theorem covers_eq_all {sup : ItemsRelation} {c d : Compound} {parents : List Item}
    (hc : ∀ s ∈ c, Simple.isSelfContained s = true)
    (hd : ∀ s ∈ d, Simple.isSelfContained s = true) :
    covers sup c d parents = c.all d.contains := by
  have elements : (d.all fun s => !s.isPlainPseudoElement || s.metBy c) = true :=
    List.all_eq_true.2 fun s hs => by rw [Simple.not_isPlainPseudoElement (hd s hs)]; rfl
  rw [covers, elements, Bool.and_true]
  refine all_congr_mem fun s hs => ?_
  rw [Simple.metBehind_eq_metBy (Simple.argument?_of_isSelfContained (hc s hs)),
    s.metBy_eq_contains fun t ht => Simple.argument?_of_isSelfContained (hd t ht)]

end SelectorAlgebra
