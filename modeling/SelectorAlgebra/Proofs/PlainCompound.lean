import Mathlib
import SelectorAlgebra.Proofs.Cover
import SelectorAlgebra.Unification.Compound

/-!
# Proofs/PlainCompound — unifying plain compounds keeps all that they ask for

A condition is plain when no rule of unification has an exception for it: it is a class, an id, an
attribute, a placeholder, an element name in a definite namespace, or a pseudo-class without
selector argument other than `:root`, `:host` and `:host-context`.

Two plain compounds unify, if they do, to a compound of exactly their conditions (`unify_keeps`).
So each of the two is a part of it (`Compound.PartOf`), which for plain compounds is what covering
means (`covers_iff_partOf`).
-/

namespace SelectorAlgebra

/-! ## Parts -/

/-- Every condition of the first compound stands in the second one too. -/
def Compound.PartOf (c d : Compound) : Prop := ∀ s ∈ c, d.contains s = true

theorem partOf_of_subset {c d : Compound} (h : c ⊆ d) : Compound.PartOf c d :=
  fun _ hs => List.elem_eq_true_of_mem (h hs)

theorem contains_of_partOf {s : Simple} {c d : Compound} (h : c.contains s = true)
    (part : Compound.PartOf c d) : d.contains s = true := by
  obtain ⟨t, ht, hst⟩ := List.contains_iff_exists_mem_beq.1 h
  obtain ⟨u, hu, htu⟩ := List.contains_iff_exists_mem_beq.1 (part t ht)
  exact List.contains_iff_exists_mem_beq.2 ⟨u, hu, BEq.trans hst htu⟩

instance : Std.Refl Compound.PartOf := ⟨fun c => partOf_of_subset (List.Subset.refl c)⟩

/-- Parts of parts are parts, up to equality of conditions. -/
theorem Compound.PartOf.trans {c d e : Compound} (h : Compound.PartOf c d)
    (h' : Compound.PartOf d e) : Compound.PartOf c e :=
  fun s hs => contains_of_partOf (h s hs) h'

/-! ## Plain conditions -/

/-- Whether no rule of unification has an exception for this condition. -/
def Simple.isPlain : Simple → Bool
  | .className _ => true
  | .idName _ => true
  | .attr _ => true
  | .placeholder _ => true
  | .type name => name.ns != some .any
  | .pseudo p => p.isClass && p.selector.isNone &&
      !(["root", "host", "host-context"].contains p.normalizedName)
  | _ => false

/-- A compound of plain conditions. -/
def Compound.IsPlain (c : Compound) : Prop := ∀ s ∈ c, Simple.isPlain s = true

/-- The pseudos that unification and the relation treat like a class. -/
theorem isPlain_pseudo {p : Pseudo} : (Simple.pseudo p).isPlain = true ↔
    p.isElement = false ∧ p.selector = none ∧ p.normalizedName ≠ "root" ∧
      p.normalizedName ≠ "host" ∧ p.normalizedName ≠ "host-context" := by
  simp [Simple.isPlain, Pseudo.isClass_eq_not_isElement, and_assoc]

/-- Plain conditions are covered condition by condition. -/
theorem Simple.isSelfContained_of_isPlain {s : Simple} (h : s.isPlain = true) :
    s.isSelfContained = true := by
  cases s with
  | pseudo p => exact isSelfContained_pseudo.2 ⟨(isPlain_pseudo.1 h).1, (isPlain_pseudo.1 h).2.1⟩
  | _ => rfl

/-- Among plain compounds, to cover is to be a part. -/
theorem covers_iff_partOf {sup : ItemsRelation} {c d : Compound} {parents : List Item}
    (hc : Compound.IsPlain c) (hd : Compound.IsPlain d) :
    covers sup c d parents = true ↔ Compound.PartOf c d := by
  rw [covers_eq_all (fun s hs => Simple.isSelfContained_of_isPlain (hc s hs))
    (fun s hs => Simple.isSelfContained_of_isPlain (hd s hs)), List.all_eq_true]
  rfl

theorem normalizeName_host : normalizeName "host" = "host" := by
  simp [normalizeName, dropVendor, Char.toLower]

theorem normalizeName_hostContext : normalizeName "host-context" = "host-context" := by
  simp [normalizeName, dropVendor, Char.toLower]

/-- The special cases for `:host` do not apply to plain conditions. -/
theorem not_host_of_isPlain {p : Pseudo} (h : (Simple.pseudo p).isPlain = true) :
    (p.isHost || p.isHostContext) = false := by
  obtain ⟨-, -, -, host, context⟩ := isPlain_pseudo.1 h
  rw [p.normalizedName_eq] at host context
  have ne : p.name ≠ "host" := fun name => host (name ▸ normalizeName_host)
  have ne' : p.name ≠ "host-context" := fun name => context (name ▸ normalizeName_hostContext)
  simp [Pseudo.isHost, Pseudo.isHostContext, ne, ne']

/-! ## One plain condition and a plain compound -/

/-- What unification of a condition with a compound has to give: the compound with the condition in
it, and nothing else. -/
structure Adds (s : Simple) (c found : Compound) : Prop where
  keeps : c ⊆ found
  contains : found.contains s = true
  only : found ⊆ s :: c

section OneCondition

variable {s : Simple} {c found : Compound}

/-- A condition that is there already is added by leaving the compound alone. -/
theorem adds_self (h : c.contains s = true) : Adds s c c :=
  ⟨List.Subset.refl c, h, List.subset_cons_self s c⟩

/-- The special cases for a compound of one condition do not apply to plain ones. -/
theorem unifyWithLone_plain (hc : Compound.IsPlain c) : unifyWithLone s c = none := by
  match c, hc with
  | [], _ => rfl
  | [.universal _], hc => exact absurd (hc _ List.mem_cons_self) (by simp [Simple.isPlain])
  | [.pseudo p], hc => simp [unifyWithLone, not_host_of_isPlain (hc _ List.mem_cons_self)]
  | [.type _], _ | [.className _], _ | [.idName _], _ | [.attr _], _ | [.placeholder _], _
  | [.parent _], _ => rfl
  | first :: _ :: _, _ => unfold unifyWithLone; simp

/-- Insertion keeps every condition and brings in the new one. -/
theorem insertBeforePseudos_adds : Adds s c (insertBeforePseudos s c) := by
  unfold insertBeforePseudos
  split
  · rename_i h
    exact adds_self h
  · have parts : c.takeWhile (!·.isPseudo) ++ c.dropWhile (!·.isPseudo) = c :=
      List.takeWhile_append_dropWhile
    refine ⟨fun t ht => ?_, List.elem_eq_true_of_mem (by simp), fun t ht => ?_⟩
    · rw [← parts, List.mem_append] at ht
      exact List.mem_append.2 (ht.imp_right (List.mem_cons_of_mem s))
    · rw [List.mem_append, List.mem_cons, or_left_comm, ← List.mem_append, parts] at ht
      exact List.mem_cons.2 ht

/-- The general case adds the condition. -/
theorem unifyOrdinary_adds (hc : Compound.IsPlain c) (h : unifyOrdinary s c = some found) :
    Adds s c found := by
  rw [unifyOrdinary, unifyWithLone_plain hc, Option.some.injEq] at h
  rw [← h]
  exact insertBeforePseudos_adds

/-- The case of a pseudo adds it, since there is no pseudo-element to stand before. -/
theorem insertPseudo_adds {p : Pseudo} (hc : Compound.IsPlain c)
    (h : insertPseudo p c = some found) : Adds (.pseudo p) c found := by
  have classes : Compound.hasPseudoElement c = false := by
    rw [Compound.hasPseudoElement, List.any_eq_false]
    intro t ht
    have plain := hc t ht
    cases t with
    | pseudo q => simp [Simple.isPseudoElement, (isPlain_pseudo.1 plain).1]
    | _ => simp [Simple.isPseudoElement]
  unfold insertPseudo at h
  split at h
  · rename_i mem
    cases h
    exact adds_self mem
  · rw [classes, if_neg Bool.false_ne_true, Option.some.injEq] at h
    subst h
    exact ⟨List.subset_append_left _ _, List.elem_eq_true_of_mem (by simp), fun t ht => by
      rw [List.mem_append, List.mem_singleton] at ht
      exact List.mem_cons.2 ht.symm⟩

/-- Two element names in definite namespaces only unify if they are the same. -/
theorem eq_of_unifyElement {q q' : QualifiedName} {t : Simple} (h : q.ns ≠ some .any)
    (h' : q'.ns ≠ some .any) (hu : Simple.unifyElement (.type q) (.type q') = some t) :
    t = .type q ∧ q = q' := by
  obtain ⟨name, ns⟩ := q
  obtain ⟨name', ns'⟩ := q'
  simp only [Simple.unifyElement, Simple.elementName?, Option.bind_eq_bind, Option.bind_some,
    unifyNamespaces, unifyLocalNames, h, h', or_false, if_false] at hu
  by_cases hns : ns = ns'
  · by_cases hname : name = name'
    · subst hns hname
      simpa [Simple.ofElementName, eq_comm] using hu
    · simp [hns, hname] at hu
  · simp [hns] at hu

/-- The case of a type adds it: the type that is there can only be the same. -/
theorem unifyType_adds {q : QualifiedName} (hq : q.ns ≠ some .any) (hc : Compound.IsPlain c)
    (h : unifyType q c = some found) : Adds (.type q) c found := by
  cases c with
  | nil =>
    cases h
    exact ⟨by simp, List.elem_eq_true_of_mem (by simp), by simp⟩
  | cons first rest =>
    simp only [unifyType] at h
    split at h
    · rename_i element
      have plain := hc first List.mem_cons_self
      match first, element, plain with
      | .type q', _, plain =>
        obtain ⟨t, ht, rfl⟩ := Option.map_eq_some_iff.1 h
        obtain ⟨rfl, rfl⟩ := eq_of_unifyElement hq (by simpa [Simple.isPlain] using plain) ht
        exact adds_self (List.elem_eq_true_of_mem List.mem_cons_self)
    · cases h
      exact ⟨List.subset_cons_self _ _, List.elem_eq_true_of_mem (by simp), List.Subset.refl _⟩

/-- A plain condition unifies with a plain compound, if it does, to both. -/
theorem Simple.unify_adds (hs : s.isPlain = true) (hc : Compound.IsPlain c)
    (h : s.unify c = some found) : Adds s c found := by
  cases s with
  | universal ns => cases hs
  | parent suffix => cases hs
  | type q => exact unifyType_adds (by simpa [Simple.isPlain] using hs) hc h
  | idName name =>
    simp only [Simple.unify] at h
    split at h
    · cases h
    · exact unifyOrdinary_adds hc h
  | pseudo p =>
    simp only [Simple.unify, not_host_of_isPlain hs, unifyWithLone_plain hc] at h
    exact insertPseudo_adds hc h
  | className name => exact unifyOrdinary_adds hc h
  | attr condition => exact unifyOrdinary_adds hc h
  | placeholder name => exact unifyOrdinary_adds hc h

end OneCondition

/-! ## Two plain compounds -/

/-- **Two plain compounds unify, if they do, to all of their conditions and no others.** -/
theorem unify_keeps {c₁ c₂ found : Compound} (h₁ : Compound.IsPlain c₁) (h₂ : Compound.IsPlain c₂)
    (h : Compound.unify c₁ c₂ = some found) :
    Compound.PartOf c₁ found ∧ Compound.PartOf c₂ found ∧ Compound.IsPlain found := by
  induction c₁ generalizing c₂ with
  | nil =>
    obtain rfl : c₂ = found := Option.some.inj h
    exact ⟨fun s hs => absurd hs List.not_mem_nil, Std.Refl.refl c₂, h₂⟩
  | cons s c₁ ih =>
    rw [Compound.unify, List.foldlM_cons, Option.bind_eq_bind, Option.bind_eq_some_iff] at h
    obtain ⟨mid, hmid, h⟩ := h
    have plain := List.forall_mem_cons.1 h₁
    have adds := Simple.unify_adds plain.1 h₂ hmid
    have hmid' : Compound.IsPlain mid := fun t ht => by
      rcases List.mem_cons.1 (adds.only ht) with rfl | ht
      · exact plain.1
      · exact h₂ t ht
    obtain ⟨part₁, part, hf⟩ := ih plain.2 hmid' h
    exact ⟨List.forall_mem_cons.2 ⟨contains_of_partOf adds.contains part, part₁⟩,
      (partOf_of_subset adds.keeps).trans part, hf⟩

end SelectorAlgebra
