import SelectorAlgebra.Proofs.CanonicalForms
import SelectorAlgebra.Proofs.TrailingShapes

/-!
# Proofs/UnifiedConditions — what unifying keeps of the conditions of two compounds

Unifying brings in no conditions but element names (`Simple.mem_unify`).  It loses none but element
names either:

* `Compound.mem_unify_of_mem_right` — the conditions of the second compound stay as they are;
* `Compound.contains_unify_of_mem_left` — those of the first one are there up to equivalence;
* `Compound.contains_unify_iff` — element names apart, a unified compound has just these conditions.

Of an element name, a trace is left unless it is a wildcard or stands alone (`Simple.Joins`): it is
replaced by what it unifies to, and that names the element too.
-/

namespace SelectorAlgebra

/-- Equivalent conditions answer alike whatever the canonical form answers alike. -/
theorem Simple.congr_of_beq {α : Type} {f : Simple → α} (hf : ∀ s : Simple, f s.canonical = f s)
    {s t : Simple} (h : (s == t) = true) : f s = f t := by
  rw [← hf s, Simple.beq_iff.1 h, hf t]

/-- Whether this matches every element, whatever its namespace is taken to be: `*` or `*|*`. -/
def Simple.isWildcard : Simple → Bool
  | .universal none => true
  | .universal (some .any) => true
  | _ => false

theorem Simple.isUniversalOrType_of_isWildcard {s : Simple} (h : s.isWildcard = true) :
    s.isUniversalOrType = true := by
  cases s with
  | universal ns => rfl
  | _ => cases h

/-- The universal conditions that ask for nothing. -/
theorem isWildcard_universal {ns : Option Namespace} :
    (Simple.universal ns).isWildcard = true ↔ ns = none ∨ ns = some .any := by
  rcases ns with _ | _ | _ | _ <;> simp [Simple.isWildcard]

/-- Whether the compound has a type or universal selector. -/
def Compound.hasElementName (c : Compound) : Bool := c.any Simple.isUniversalOrType

/-! ## One condition and a compound -/

/-- A condition and a compound go into another compound: only element names give way, and only to
other element names unless they are wildcards or stand alone. -/
structure Simple.Joins (s : Simple) (c found : Compound) : Prop where
  kept : ∀ t ∈ c, t ∈ found ∨
    t.isUniversalOrType = true ∧ (c = [t] ∨ Compound.hasElementName found = true)
  added : found.contains s = true ∨
    s.isUniversalOrType = true ∧ (s.isWildcard = true ∨ Compound.hasElementName found = true)

section OneCondition

variable {s t : Simple} {c found : Compound} {ns : Option Namespace} {p : Pseudo}

theorem hasElementName_cons {rest : Compound} (h : s.isUniversalOrType = true) :
    Compound.hasElementName (s :: rest) = true := by
  rw [Compound.hasElementName, List.any_cons, h, Bool.true_or]

/-- A compound that keeps the old conditions and has the new one. -/
theorem Simple.Joins.of_subset (kept : c ⊆ found) (added : found.contains s = true) :
    Simple.Joins s c found :=
  ⟨fun _ ht => .inl (kept ht), .inl added⟩

theorem joins_cons (s : Simple) (c : Compound) : Simple.Joins s c (s :: c) :=
  .of_subset (List.subset_cons_self s c) (List.elem_eq_true_of_mem List.mem_cons_self)

/-- An element name in front is replaced by what it unifies to. -/
theorem joins_unifyElement {first u : Simple} {rest : Compound} (hs : s.isUniversalOrType = true)
    (hf : first.isUniversalOrType = true) (h : Simple.unifyElement s first = some u) :
    Simple.Joins s (first :: rest) (u :: rest) := by
  have named : Compound.hasElementName (u :: rest) = true :=
    hasElementName_cons (isUniversalOrType_of_unifyElement h)
  refine ⟨fun t ht => ?_, .inr ⟨hs, .inr named⟩⟩
  rcases List.mem_cons.1 ht with rfl | ht
  · exact .inr ⟨hf, .inr named⟩
  · exact .inl (List.mem_cons_of_mem _ ht)

/-- Unifying with `*` joins it, or leaves it out where it asks for nothing. -/
theorem unifyUniversal_joins (h : unifyUniversal ns c = some found) :
    Simple.Joins (.universal ns) c found := by
  unfold unifyUniversal at h
  split at h
  · cases h
    exact joins_cons _ _
  split at h
  · rename_i hf
    obtain ⟨u, hu, rfl⟩ := Option.map_eq_some_iff.1 h
    exact joins_unifyElement rfl hf hu
  split at h
  · cases h
  split at h
  · rename_i wild
    cases h
    exact ⟨fun _ ht => .inl ht, .inr ⟨rfl, .inl (isWildcard_universal.2 wild)⟩⟩
  · cases h
    exact joins_cons _ _

/-- Unifying with a type joins it. -/
theorem unifyType_joins {name : QualifiedName} (h : unifyType name c = some found) :
    Simple.Joins (.type name) c found := by
  unfold unifyType at h
  split at h
  · split at h
    · rename_i hf
      obtain ⟨u, hu, rfl⟩ := Option.map_eq_some_iff.1 h
      exact joins_unifyElement rfl hf hu
    · cases h
      exact joins_cons _ _
  · cases h
    exact joins_cons _ _

theorem insertPseudo_subset (h : insertPseudo p c = some found) :
    c ⊆ found ∧ found.contains (.pseudo p) = true := by
  unfold insertPseudo at h
  split at h
  · rename_i mem
    cases h
    exact ⟨List.Subset.refl c, mem⟩
  split at h
  · rename_i element
    split at h
    · cases h
    · cases h
      refine ⟨fun t ht => List.mem_flatMap.2 ⟨t, ht, ?_⟩, ?_⟩
      · split <;> simp
      · obtain ⟨t, ht, pseudo⟩ := List.any_eq_true.1 element
        exact List.elem_eq_true_of_mem (List.mem_flatMap.2 ⟨t, ht, by simp [pseudo]⟩)
  · cases h
    exact ⟨List.subset_append_left _ _, List.elem_eq_true_of_mem (by simp)⟩

/-- Inserting a pseudo joins it. -/
theorem insertPseudo_joins (h : insertPseudo p c = some found) :
    Simple.Joins (.pseudo p) c found :=
  .of_subset (insertPseudo_subset h).1 (insertPseudo_subset h).2

/-- `:host` unifies only with what may stand beside it. -/
theorem unifyHost_subset (h : unifyHost p c = some found) :
    c.all Simple.standsWithHost = true ∧ c ⊆ found ∧ found.contains (.pseudo p) = true := by
  unfold unifyHost at h
  split at h
  · rename_i all
    exact ⟨all, insertPseudo_subset h⟩
  · cases h

/-- A lone `:host` keeps its place beside a condition other than `:host`. -/
theorem mem_of_unifyHost_singleton (h : unifyHost p [s] = some found)
    (host : (Simple.pseudo p).isHostLike = true) (other : s.isHostLike = false) :
    Simple.pseudo p ∈ found := by
  unfold unifyHost at h
  split at h
  · unfold insertPseudo at h
    split at h
    · rename_i mem
      have same : (s == .pseudo p) = true := by simpa [BEq.comm] using mem
      rw [Simple.congr_of_beq (f := Simple.isHostLike) (by simp) same, host] at other
      cases other
    split at h
    · rename_i element
      split at h
      · cases h
      · cases h
        obtain ⟨t, ht, pseudo⟩ := List.any_eq_true.1 element
        exact List.mem_flatMap.2 ⟨t, ht, by simp [pseudo]⟩
    · cases h
      simp
  · cases h

/-- What a lone `*` or `:host` becomes with a condition that is neither an element name nor
`:host`. -/
theorem unifyWithLone_joins (element : s.isUniversalOrType = false) (other : s.isHostLike = false)
    (h : unifyWithLone s c = some (some found)) : Simple.Joins s c found := by
  unfold unifyWithLone at h
  split at h
  · rename_i ns
    have joins := unifyUniversal_joins (Option.some.inj h)
    refine ⟨fun t ht => ?_, ?_⟩
    · obtain rfl := List.mem_singleton.1 ht
      exact .inr ⟨rfl, .inl rfl⟩
    · rcases joins.kept s List.mem_cons_self with mem | ⟨named, -⟩
      · exact .inl (List.elem_eq_true_of_mem mem)
      · rw [element] at named
        cases named
  · rename_i p
    split at h
    · rename_i host
      have unified := Option.some.inj h
      refine .of_subset (fun t ht => ?_)
        (List.elem_eq_true_of_mem ((unifyHost_subset unified).2.1 List.mem_cons_self))
      obtain rfl := List.mem_singleton.1 ht
      exact mem_of_unifyHost_singleton unified host other
    · cases h
  · cases h

/-- The general case joins the condition. -/
theorem unifyOrdinary_joins (element : s.isUniversalOrType = false) (other : s.isHostLike = false)
    (h : unifyOrdinary s c = some found) : Simple.Joins s c found := by
  unfold unifyOrdinary at h
  split at h
  · rename_i result lone
    subst h
    exact unifyWithLone_joins element other lone
  · cases h
    exact .of_subset insertBeforePseudos_adds.keeps insertBeforePseudos_adds.contains

/-- **A condition and a compound go into what they unify to.** -/
theorem Simple.joins_of_unify (h : s.unify c = some found) : Simple.Joins s c found := by
  unfold Simple.unify at h
  split at h
  · exact unifyUniversal_joins h
  · exact unifyType_joins h
  · split at h
    · cases h
    · exact unifyOrdinary_joins rfl rfl h
  · split at h
    · obtain ⟨-, kept, added⟩ := unifyHost_subset h
      exact .of_subset kept added
    · rename_i p host
      split at h
      · rename_i result lone
        subst h
        exact unifyWithLone_joins rfl (Bool.eq_false_iff.2 host) lone
      · exact insertPseudo_joins h
  · rename_i notUniversal notType _ notPseudo
    cases s with
    | universal ns => exact absurd rfl (notUniversal ns)
    | type name => exact absurd rfl (notType name)
    | pseudo p => exact absurd rfl (notPseudo p)
    | _ => exact unifyOrdinary_joins rfl rfl h

end OneCondition

/-! ## Two compounds -/

namespace Compound

variable {c₁ c₂ found : Compound} {s t : Simple}

/-- Two compounds are unified condition by condition. -/
theorem unify_cons (s : Simple) (c₁ c₂ : Compound) :
    unify (s :: c₁) c₂ = (s.unify c₂).bind (unify c₁) := rfl

/-- **Unifying keeps all conditions of the second compound but element names.** -/
theorem mem_unify_of_mem_right (h : unify c₁ c₂ = some found) (ht : t ∈ c₂)
    (plain : t.isUniversalOrType = false) : t ∈ found := by
  induction c₁ generalizing c₂ with
  | nil =>
    obtain rfl : c₂ = found := Option.some.inj h
    exact ht
  | cons s c₁ ih =>
    rw [unify_cons, Option.bind_eq_some_iff] at h
    obtain ⟨next, hnext, h⟩ := h
    refine ih h (((Simple.joins_of_unify hnext).kept t ht).resolve_right fun named => ?_)
    rw [plain] at named
    cases named.1

/-- **Unifying keeps all conditions of the first compound but element names**, up to equivalence. -/
theorem contains_unify_of_mem_left (h : unify c₁ c₂ = some found) (hs : s ∈ c₁)
    (plain : s.isUniversalOrType = false) : found.contains s = true := by
  induction c₁ generalizing c₂ with
  | nil => cases hs
  | cons s' c₁ ih =>
    rw [unify_cons, Option.bind_eq_some_iff] at h
    obtain ⟨next, hnext, h⟩ := h
    rcases List.mem_cons.1 hs with rfl | hs
    · have added := (Simple.joins_of_unify hnext).added.resolve_right fun named => by
        rw [plain] at named
        cases named.1
      -- the condition of `next` that stands for `s` is kept from there on
      obtain ⟨t, ht, same⟩ := List.contains_iff_exists_mem_beq.1 added
      have plain' : t.isUniversalOrType = false := by
        rw [← Simple.congr_of_beq (f := Simple.isUniversalOrType) (by simp) same, plain]
      exact List.contains_iff_exists_mem_beq.2 ⟨t, mem_unify_of_mem_right h ht plain', same⟩
    · exact ih h hs

/-- **The conditions of a unified compound are those of the two compounds**, element names apart. -/
theorem contains_unify_iff (h : unify c₁ c₂ = some found) (plain : s.isUniversalOrType = false) :
    found.contains s = true ↔ c₁.contains s = true ∨ c₂.contains s = true := by
  have congr : ∀ {t : Simple}, (s == t) = true → t.isUniversalOrType = false := fun same => by
    rw [← Simple.congr_of_beq (f := Simple.isUniversalOrType) (by simp) same, plain]
  have only : ∀ t ∈ found, t ∈ c₁ ∨ t ∈ c₂ ∨ t.isUniversalOrType = true :=
    forall_mem_unify (fun t named => .inr (.inr named)) (fun t ht => .inl ht)
      (fun t ht => .inr (.inl ht)) h
  simp only [List.contains_iff_exists_mem_beq]
  constructor
  · rintro ⟨t, ht, same⟩
    rcases only t ht with ht | ht | named
    · exact .inl ⟨t, ht, same⟩
    · exact .inr ⟨t, ht, same⟩
    · rw [congr same] at named
      cases named
  · rintro (⟨t, ht, same⟩ | ⟨t, ht, same⟩)
    · obtain ⟨t', ht', same'⟩ := List.contains_iff_exists_mem_beq.1
        (contains_unify_of_mem_left h ht (congr same))
      exact ⟨t', ht', BEq.trans same same'⟩
    · exact ⟨t, mem_unify_of_mem_right h ht (congr same), same⟩

end Compound

theorem unify_of_unifyConditions {c₁ c₂ found : Compound}
    (h : unifyConditions c₁ c₂ = .ok (some found)) : Compound.unify c₁ c₂ = some found := by
  unfold unifyConditions at h
  split at h
  · cases h
  · exact Except.ok.inj h

end SelectorAlgebra
