import Mathlib
import SelectorAlgebra.Proofs.UnifiedConditions
import SelectorAlgebra.Superselector.Basic

/-!
# Proofs/ExcludedBranches — what `:not` excludes, and what does not unify

`:not(x, y, …)` is above a compound if each of its branches is ruled out by a condition of the
compound: by another type, or by another id.  Whether a branch and a compound have an element in
common is also what unification decides.  The two go apart over namespaces: `*|a` and `ns|a` are
different types with elements in common.

* `unify_excluded` — a branch that is ruled out does not unify with the compound, or both begin with
  a type of the same local name, one of them in any namespace.  So all that is ruled out is apart,
  for every `:not` above the compound, exactly if the compound begins with no type, or has a
  pseudo-element that keeps every `:not` from being above it.

Ids are decided alike on both sides: a compound keeps its id while conditions are added
(`Compound.mem_unify_of_mem_right`), so another id is refused whenever it comes.
-/

namespace SelectorAlgebra

/-- A type or universal selector only stands first. -/
def Compound.NamedFirst (c : Compound) : Prop := ∀ s ∈ c.tail, s.isUniversalOrType = false

/-- Both compounds begin with a type of the same local name, one of them in any namespace. -/
def Compound.TypesMeet (d c : Compound) : Prop :=
  ∃ name ns ns', d.head? = some (.type ⟨name, ns⟩) ∧ c.head? = some (.type ⟨name, ns'⟩) ∧
    ns ≠ ns' ∧ (ns = some .any ∨ ns' = some .any)

/-- Whether every choice is a single compound that names its element first, if at all. -/
def SelectorList.IsBranches (l : SelectorList) : Prop :=
  ∀ x ∈ l, ∃ d, x.items = [.compound d] ∧ Compound.NamedFirst d

/-! ## What rules out a branch -/

section Ruled

variable {sup : ItemsRelation} {p : Pseudo} {l : SelectorList} {c d : Compound} {s t : Simple}

/-- One condition differs from another of its sort, type or id. -/
def Simple.Differs (s t : Simple) : Prop :=
  (s.isType = true ∧ t.isType = true ∨ s.isId = true ∧ t.isId = true) ∧ (t == s) = false

/-- **When `:not` is above a compound.** -/
theorem covers_not_iff (kind : p.kind = .not) (hl : p.selector = some l) (parents : List Item) :
    covers sup [.pseudo p] c parents = true ↔
      (∀ x ∈ l, ∃ s ∈ c, s.rulesOut sup p.name x = true) ∧
      ∀ s ∈ c, s.isPlainPseudoElement = false := by
  have met : (Simple.pseudo p).metBehind sup c parents =
      l.all fun x => c.any fun s => s.rulesOut sup p.name x := by
    simp only [Simple.metBehind, hl, Pseudo.metBy, kind]
  have unmet : ∀ s : Simple, s.isPlainPseudoElement = true → s.metBy [.pseudo p] = false := by
    intro s plain
    have other : (s == .pseudo p) = false := Bool.eq_false_iff.2 fun same => by
      rw [Simple.congr_of_beq (f := Simple.isPlainPseudoElement) (by simp) same,
        Simple.isPlainPseudoElement, hl, Option.isNone_some, Bool.and_false] at plain
      cases plain
    simp [Simple.metBy, Simple.impliedBy, other, hl, kind, PseudoKind.isRestriction]
  have last : ∀ s : Simple, (!s.isPlainPseudoElement || s.metBy [.pseudo p]) = true ↔
      s.isPlainPseudoElement = false := fun s => by
    cases plain : s.isPlainPseudoElement with
    | false => simp
    | true => simp [unmet s plain]
  rw [covers, Bool.and_eq_true, List.all_cons, met, List.all_nil, Bool.and_true]
  simp only [List.all_eq_true, List.any_eq_true, last]

/-- Without another `:not`, a branch is ruled out by another type or another id. -/
theorem rulesOut_iff {x : Complex} {name : String} (hx : x.items = [.compound d])
    (plain : ∀ q, s = .pseudo q → q.name ≠ name) :
    s.rulesOut sup name x = true ↔ ∃ t ∈ d, s.Differs t := by
  have last : x.lastCompound? = some d := by rw [Complex.lastCompound?, hx]; rfl
  cases s with
  | type q => simp [Simple.rulesOut, last, Simple.Differs, Simple.isType, Simple.isId, bne]
  | idName name => simp [Simple.rulesOut, last, Simple.Differs, Simple.isType, Simple.isId, bne]
  | pseudo q =>
    have ne : (q.name == name) = false := beq_eq_false_iff_ne.2 (plain q rfl)
    cases hq : q.selector <;>
      simp [Simple.rulesOut, Simple.Differs, Simple.isType, Simple.isId, hq, ne]
  | _ => simp [Simple.rulesOut, Simple.Differs, Simple.isType, Simple.isId]

end Ruled

/-! ## What does not unify -/

section Apart

variable {c d found : Compound} {s t : Simple}

/-- Types unify if the local names are the same and so are the namespaces, where `*|` is any. -/
theorem isSome_unifyElement_type {t s : QualifiedName} :
    (Simple.unifyElement (.type t) (.type s)).isSome = true ↔
      t.name = s.name ∧ (t.ns = s.ns ∨ t.ns = some .any ∨ s.ns = some .any) := by
  have namespaces : (unifyNamespaces t.ns s.ns).isSome = true ↔
      t.ns = s.ns ∨ t.ns = some .any ∨ s.ns = some .any := by
    unfold unifyNamespaces
    grind
  have names : (unifyLocalNames (some t.name) (some s.name)).isSome = true ↔ t.name = s.name := by
    unfold unifyLocalNames
    grind
  rw [← namespaces, ← names, and_comm]
  cases hns : unifyNamespaces t.ns s.ns <;>
    cases hname : unifyLocalNames (some t.name) (some s.name) <;>
    simp [Simple.unifyElement, Simple.elementName?, hns, hname]

theorem Simple.unify_type_type (t s : QualifiedName) (rest : Compound) :
    (Simple.type t).unify (.type s :: rest) =
      (Simple.unifyElement (.type t) (.type s)).map (· :: rest) := rfl

/-- Another id is refused. -/
theorem Compound.unify_eq_none_of_isId (hs : s ∈ c) (ht : t ∈ d)
    (ids : s.isId = true ∧ t.isId = true) (apart : (t == s) = false) :
    Compound.unify d c = none := by
  induction d generalizing c with
  | nil => cases ht
  | cons u d ih =>
    rw [Compound.unify_cons]
    cases hnext : u.unify c with
    | none => rfl
    | some next =>
      have plain : s.isUniversalOrType = false := by
        cases s with
        | idName name => rfl
        | _ => cases ids.1
      have kept : s ∈ next := ((Simple.joins_of_unify hnext).kept s hs).resolve_right
        fun named => by
        rw [plain] at named
        cases named.1
      rcases List.mem_cons.1 ht with rfl | ht
      · cases t with
        | idName name =>
          have other : (c.any fun t => t.isId && t != .idName name) = true := by
            refine List.any_eq_true.2 ⟨s, hs, ?_⟩
            rw [ids.1, bne, BEq.comm, apart]
            rfl
          rw [Simple.unify, if_pos other] at hnext
          cases hnext
        | _ => cases ids.2
      · exact ih kept ht

theorem Compound.NamedFirst.head?_eq (h : Compound.NamedFirst c) (ht : t ∈ c)
    (named : t.isUniversalOrType = true) : c.head? = some t := by
  cases c with
  | nil => cases ht
  | cons first rest =>
    rcases List.mem_cons.1 ht with rfl | ht
    · rfl
    · rw [h t ht] at named
      cases named

/-- Compounds that begin with types without a common element do not unify. -/
theorem Compound.unify_eq_none_of_types {t s : QualifiedName} (hd : d.head? = some (.type t))
    (hc : c.head? = some (.type s)) (apart : Simple.unifyElement (.type t) (.type s) = none) :
    Compound.unify d c = none := by
  obtain ⟨d, rfl⟩ := List.head?_eq_some_iff.1 hd
  obtain ⟨c, rfl⟩ := List.head?_eq_some_iff.1 hc
  rw [Compound.unify_cons, Simple.unify_type_type, apart, Option.map_none, Option.bind_none]

/-- **A condition that differs keeps two compounds apart**, unless they begin with types that
meet. -/
theorem unify_eq_none_or_typesMeet (hc : Compound.NamedFirst c) (hd : Compound.NamedFirst d)
    (hs : s ∈ c) (ht : t ∈ d) (h : s.Differs t) :
    Compound.unify d c = none ∨ Compound.TypesMeet d c := by
  obtain ⟨⟨types⟩ | ids, apart⟩ := h
  · cases s with
    | type q =>
      cases t with
      | type q' =>
        have first := hc.head?_eq hs rfl
        have first' := hd.head?_eq ht rfl
        cases unified : Simple.unifyElement (.type q') (.type q) with
        | none => exact .inl (Compound.unify_eq_none_of_types first' first unified)
        | some u =>
          obtain ⟨name, ns⟩ := isSome_unifyElement_type.1 (Option.isSome_of_eq_some unified)
          obtain ⟨name', ns'⟩ := q'
          obtain rfl : name' = q.name := name
          have ne : ns' ≠ q.ns := fun same => by
            subst same
            rw [BEq.rfl] at apart
            cases apart
          exact .inr ⟨q.name, ns', q.ns, first', first, ne, ns.resolve_left ne⟩
      | _ => simp [Simple.isType] at *
    | _ => simp [Simple.isType] at *
  · exact .inl (Compound.unify_eq_none_of_isId hs ht ids apart)

/-- A branch that unifies with `c`, although the type in front of `c` rules it out. -/
theorem exists_typesMeet {q : QualifiedName} (hc : c.head? = some (.type q)) :
    ∃ q', Simple.Differs (.type q) (.type q') ∧ (Compound.unify [.type q'] c).isSome = true := by
  obtain ⟨rest, rfl⟩ := List.head?_eq_some_iff.1 hc
  -- another namespace, one of the two being any
  obtain ⟨ns, ne, meets⟩ : ∃ ns, ns ≠ q.ns ∧ (ns = some .any ∨ q.ns = some .any) := by
    by_cases any : q.ns = some .any
    · exact ⟨none, any.symm ▸ (Option.some_ne_none _).symm, .inr any⟩
    · exact ⟨some .any, Ne.symm any, .inl rfl⟩
  refine ⟨⟨q.name, ns⟩, ⟨.inl ⟨rfl, rfl⟩, Bool.eq_false_iff.2 fun same => ne ?_⟩, ?_⟩
  · exact congrArg QualifiedName.ns (Simple.type.inj (Simple.beq_iff.1 same))
  · have unified : (Simple.unifyElement (.type ⟨q.name, ns⟩) (.type q)).isSome = true :=
      isSome_unifyElement_type.2 ⟨rfl, .inr meets⟩
    obtain ⟨u, hu⟩ := Option.isSome_iff_exists.1 unified
    rw [Compound.unify_cons, Simple.unify_type_type, hu]
    rfl

end Apart

/-! ## `:not` and unification -/

section Excluded

variable {c : Compound}

theorem isSuperselector_not_iff {l : SelectorList} :
    Compound.isSuperselector [.pseudo (.around "not" l)] c = true ↔
      (∀ x ∈ l, ∃ s ∈ c, s.rulesOut itemsSuperselector "not" x = true) ∧
        ∀ s ∈ c, s.isPlainPseudoElement = false :=
  covers_not_iff (by cbv) rfl []

theorem unifyConditions_eq_none_iff {d : Compound} :
    unifyConditions d c = .ok none ↔ Compound.unify d c = none := by
  unfold unifyConditions
  split
  · rename_i eq
    exact iff_of_false (fun ne => by cases ne) (by rw [eq]; exact Option.some_ne_none _)
  · rw [Except.ok.injEq]

/-- **What `:not` excludes does not unify, types in different namespaces apart.** -/
theorem unify_excluded (hc : Compound.NamedFirst c) (plain : ∀ q, .pseudo q ∈ c → q.name ≠ "not") :
    (∀ l : SelectorList, l.IsBranches →
      Compound.isSuperselector [.pseudo (.around "not" l)] c = true →
      ∀ x ∈ l, ∀ d, x.items = [.compound d] →
        unifyConditions d c = .ok none ∨ Compound.TypesMeet d c) ∧
    ((∀ l : SelectorList, l.IsBranches →
      Compound.isSuperselector [.pseudo (.around "not" l)] c = true →
      ∀ x ∈ l, ∀ d, x.items = [.compound d] → unifyConditions d c = .ok none) ↔
      (∀ q, c.head? ≠ some (.type q)) ∨ ∃ s ∈ c, s.isPlainPseudoElement = true) := by
  have excluded : ∀ l : SelectorList, l.IsBranches →
      Compound.isSuperselector [.pseudo (.around "not" l)] c = true →
      ∀ x ∈ l, ∀ d, x.items = [.compound d] →
        unifyConditions d c = .ok none ∨ Compound.TypesMeet d c := by
    intro l hl above x hx d hd
    obtain ⟨s, hs, ruled⟩ := (isSuperselector_not_iff.1 above).1 x hx
    obtain ⟨t, ht, differs⟩ := (rulesOut_iff hd fun q eq => plain q (eq ▸ hs)).1 ruled
    obtain ⟨d', hd', named⟩ := hl x hx
    obtain rfl : d' = d := by simpa [hd'] using hd
    exact (unify_eq_none_or_typesMeet hc named hs ht differs).imp_left unifyConditions_eq_none_iff.2
  refine ⟨excluded, fun apart => ?_, ?_⟩
  · by_contra free
    rw [not_or] at free
    obtain ⟨typed, noElement⟩ := free
    obtain ⟨q, hq⟩ := not_forall_not.1 typed
    obtain ⟨q', differs, unified⟩ := exists_typesMeet hq
    have hq' : .type q ∈ c := List.mem_of_mem_head? hq
    have ruled : (Simple.type q).rulesOut itemsSuperselector "not"
        ⟨[.compound [.type q']], false⟩ = true :=
      (rulesOut_iff rfl fun _ eq => by cases eq).2 ⟨_, List.mem_singleton_self _, differs⟩
    have refused := apart [⟨[.compound [.type q']], false⟩] ?_ ?_ _ (List.mem_singleton_self _) _
      rfl
    · rw [unifyConditions_eq_none_iff] at refused
      rw [refused] at unified
      cases unified
    · exact List.forall_mem_singleton.2 ⟨_, rfl, List.forall_mem_nil _⟩
    · refine isSuperselector_not_iff.2 ⟨List.forall_mem_singleton.2 ⟨_, hq', ruled⟩, fun s hs => ?_⟩
      exact Bool.eq_false_iff.2 fun element => noElement ⟨s, hs, element⟩
  · rintro (untyped | ⟨s, hs, element⟩) l hl above x hx d hd
    · refine (excluded l hl above x hx d hd).resolve_right ?_
      rintro ⟨name, ns, ns', -, typed, -⟩
      exact untyped _ typed
    · rw [(isSuperselector_not_iff.1 above).2 s hs] at element
      cases element

/-- `:not(a#z)` is above `#x.y`, and `a#z` does not unify with `#x.y`. -/
theorem unify_excluded_ids :
    Compound.NamedFirst [.idName "x", .className "y"] ∧
    Compound.isSuperselector
      [.pseudo (.around "not" [.ofCompound [.type ⟨"a", none⟩, .idName "z"]])]
      [.idName "x", .className "y"] = true ∧
    unifyConditions [.type ⟨"a", none⟩, .idName "z"] [.idName "x", .className "y"] = .ok none := by
  have named : Compound.NamedFirst [.idName "x", .className "y"] := List.forall_mem_singleton.2 rfl
  have plain : ∀ q, .pseudo q ∈ ([.idName "x", .className "y"] : Compound) → q.name ≠ "not" :=
    fun q hq => by simp at hq
  have above : Compound.isSuperselector
      [.pseudo (.around "not" [.ofCompound [.type ⟨"a", none⟩, .idName "z"]])]
      [.idName "x", .className "y"] = true := by decide +kernel
  refine ⟨named, above, (unify_excluded named plain).2.2 (.inl fun q first => ?_) _ ?_ above _
    (List.mem_singleton_self _) _ rfl⟩
  · cases first
  · exact List.forall_mem_singleton.2 ⟨_, rfl, List.forall_mem_singleton.2 rfl⟩

/-- `:not(*|a)` is above `ns|a`, although `*|a` and `ns|a` unify. -/
theorem not_unify_excluded_anyNamespace :
    Compound.isSuperselector [.pseudo (.around "not" [.ofCompound [.type ⟨"a", some .any⟩]])]
      [.type ⟨"a", some (.named "ns")⟩] = true ∧
    unifyConditions [.type ⟨"a", some .any⟩] [.type ⟨"a", some (.named "ns")⟩] =
      .ok (some [.type ⟨"a", some (.named "ns")⟩]) :=
  ⟨by decide +kernel, rfl⟩

end Excluded

end SelectorAlgebra
