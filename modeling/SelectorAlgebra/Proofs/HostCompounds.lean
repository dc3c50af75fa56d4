import Mathlib
import SelectorAlgebra.Proofs.Retention
import SelectorAlgebra.Proofs.UnifiedConditions

/-!
# Proofs/HostCompounds — what stands beside `:host`

`:host` and `:host-context` go with each other and with pseudo selectors that have a selector
argument.  A compound is **host-pure** if it has nothing else beside them.

* `isHostPure_unify_iff` — two host-pure compounds unify to a host-pure one, unless the second has
  `:host` and the first has a condition, not a wildcard, that does not go with it.

The rule is only kept where `:host` is the condition that is added, or the only one to be added to.
While conditions are added one by one, the compound is in one of three states: without `:host`, with
`:host` and pure, or mixed.  Nothing leads out of the mixed state (`IsMixed.unify`), and what leads
into it is a condition that does not go with the `:host` already there (`isMixed_unify`).
-/

namespace SelectorAlgebra

/-! ## The three states -/

/-- Whether this condition may stand beside `:host`: it is `:host` or `:host-context` itself, or
has a selector argument. -/
def Simple.suitsHost (s : Simple) : Bool := s.isHostLike || s.argument?.isSome

/-- Whether the compound has `:host` or `:host-context`. -/
def Compound.hasHost (c : Compound) : Bool := c.any Simple.isHostLike

/-- Beside `:host` there are only conditions that go with it. -/
def Compound.IsHostPure (c : Compound) : Prop :=
  Compound.hasHost c = true → ∀ s ∈ c, s.suitsHost = true

instance Compound.decidableIsHostPure (c : Compound) : Decidable (Compound.IsHostPure c) :=
  inferInstanceAs (Decidable (Compound.hasHost c = true → ∀ s ∈ c, s.suitsHost = true))

/-- Beside `:host` there is a condition that does not go with it. -/
def Compound.IsMixed (c : Compound) : Prop :=
  Compound.hasHost c = true ∧ ∃ s ∈ c, s.suitsHost = false

section States

variable {s t : Simple} {c found : Compound}

/-- Pure and mixed exclude each other and leave nothing out. -/
theorem Compound.isHostPure_iff_not_isMixed : Compound.IsHostPure c ↔ ¬ Compound.IsMixed c := by
  simp [Compound.IsHostPure, Compound.IsMixed]

@[simp] theorem Simple.suitsHost_canonical (s : Simple) : s.canonical.suitsHost = s.suitsHost := by
  rw [suitsHost, isHostLike_canonical, suitsHost, ← Option.not_isNone, ← Option.not_isNone,
    argument?_canonical]

theorem Simple.suitsHost_of_standsWithHost (h : s.standsWithHost = true) : s.suitsHost = true := by
  cases s with
  | pseudo p =>
    rw [standsWithHost, Bool.or_eq_true] at h
    rw [suitsHost, Bool.or_eq_true, isHostLike, Bool.or_eq_true]
    exact h.imp_left .inl
  | _ => cases h

theorem Simple.not_isHostLike_of_isUniversalOrType (h : s.isUniversalOrType = true) :
    s.isHostLike = false := by
  cases s with
  | universal ns => rfl
  | type name => rfl
  | _ => cases h

/-- An element name does not go with `:host`. -/
theorem Simple.not_suitsHost_of_isUniversalOrType (h : s.isUniversalOrType = true) :
    s.suitsHost = false := by
  cases s with
  | universal ns => rfl
  | type name => rfl
  | _ => cases h

/-- An element name does not suit `:host`. -/
theorem exists_misfit_of_hasElementName (h : Compound.hasElementName c = true) :
    ∃ s ∈ c, s.suitsHost = false := by
  obtain ⟨t, ht, named⟩ := List.any_eq_true.1 h
  exact ⟨t, ht, Simple.not_suitsHost_of_isUniversalOrType named⟩

end States

/-! ## Adding one condition -/

section OneCondition

variable {s t : Simple} {c found : Compound} {p : Pseudo}

/-- `:host` stays. -/
theorem hasHost_unify (h : s.unify c = some found) (host : Compound.hasHost c = true) :
    Compound.hasHost found = true := by
  obtain ⟨t, ht, hostLike⟩ := List.any_eq_true.1 host
  refine List.any_eq_true.2 ⟨t, ((Simple.joins_of_unify h).kept t ht).resolve_right fun named => ?_,
    hostLike⟩
  rw [Simple.not_isHostLike_of_isUniversalOrType named.1] at hostLike
  cases hostLike

/-- **A mixed compound stays mixed**: what does not go with `:host` stays too, or is an element name
and gives way to another. -/
theorem Compound.IsMixed.unify (mixed : Compound.IsMixed c) (h : s.unify c = some found) :
    Compound.IsMixed found := by
  obtain ⟨host, t, ht, misfit⟩ := mixed
  refine ⟨hasHost_unify h host, ?_⟩
  rcases (Simple.joins_of_unify h).kept t ht with ht | ⟨named, alone | named'⟩
  · exact ⟨t, ht, misfit⟩
  · rw [alone, hasHost, List.any_cons, Simple.not_isHostLike_of_isUniversalOrType named] at host
    cases host
  · exact exists_misfit_of_hasElementName named'

/-- **A condition that does not go with `:host` is added all the same**, unless it is a wildcard. -/
theorem isMixed_unify (host : Compound.hasHost c = true) (misfit : s.suitsHost = false)
    (tame : s.isWildcard = false) (h : s.unify c = some found) : Compound.IsMixed found := by
  refine ⟨hasHost_unify h host, ?_⟩
  rcases (Simple.joins_of_unify h).added with added | ⟨-, wild | named⟩
  · obtain ⟨t, ht, same⟩ := List.contains_iff_exists_mem_beq.1 added
    refine ⟨t, ht, ?_⟩
    rw [← Simple.congr_of_beq Simple.suitsHost_canonical same, misfit]
  · rw [tame] at wild
    cases wild
  · exact exists_misfit_of_hasElementName named

/-- `:host` itself is added to nothing but conditions that go with it. -/
theorem suitsHost_of_unifyHost (hp : (Simple.pseudo p).suitsHost = true)
    (h : unifyHost p c = some found) (ht : t ∈ found) : t.suitsHost = true := by
  rcases mem_unifyHost h ht with rfl | ht
  · exact hp
  · exact Simple.suitsHost_of_standsWithHost (List.all_eq_true.1 (unifyHost_subset h).1 t ht)

/-- What has to hold where `:host` is: it is there, and everything goes with it. -/
def Compound.IsHosted (c : Compound) : Prop :=
  Compound.hasHost c = true ∧ ∀ s ∈ c, s.suitsHost = true

/-- Adding `:host` to a compound that it unifies with leaves only what suits it. -/
theorem isHosted_unify_of_isHostLike (host : s.isHostLike = true) (h : s.unify c = some found) :
    Compound.IsHosted found := by
  cases s with
  | pseudo p =>
    have hostLike : (p.isHost || p.isHostContext) = true := host
    have suits : (Simple.pseudo p).suitsHost = true := by rw [Simple.suitsHost, host, Bool.true_or]
    rw [Simple.unify, if_pos hostLike] at h
    refine ⟨?_, fun t => suitsHost_of_unifyHost suits h⟩
    obtain ⟨t, ht, same⟩ := List.contains_iff_exists_mem_beq.1 (unifyHost_subset h).2.2
    refine List.any_eq_true.2 ⟨t, ht, ?_⟩
    rw [← Simple.congr_of_beq (f := Simple.isHostLike) (by simp) same, host]
  | _ => cases host

/-- A pseudo selector with a selector argument joins `:host`. -/
theorem suitsHost_unify_pseudo (hosted : Compound.IsHosted c)
    (hp : (Simple.pseudo p).suitsHost = true) (other : (Simple.pseudo p).isHostLike = false)
    (h : (Simple.pseudo p).unify c = some found) (ht : t ∈ found) : t.suitsHost = true := by
  have other' : (p.isHost || p.isHostContext) = false := other
  rw [Simple.unify, other', if_neg Bool.false_ne_true] at h
  split at h
  · rename_i result lone
    subst h
    unfold unifyWithLone at lone
    split at lone
    · cases hosted.1
    · split at lone
      · rename_i q hostLike
        refine suitsHost_of_unifyHost ?_ (Option.some.inj lone) ht
        exact hosted.2 _ List.mem_cons_self
      · cases lone
    · cases lone
  · rcases mem_insertPseudo h ht with rfl | ht
    · exact hp
    · exact hosted.2 t ht

/-- A wildcard is dropped beside `:host`. -/
theorem eq_of_unify_isWildcard (hosted : Compound.IsHosted c) (wild : s.isWildcard = true)
    (h : s.unify c = some found) : found = c := by
  cases s with
  | universal ns =>
    rw [Simple.unify] at h
    unfold unifyUniversal at h
    split at h
    · cases hosted.1
    · rename_i first rest
      have unnamed : ¬ first.isUniversalOrType = true := fun named => by
        have misfit := Simple.not_suitsHost_of_isUniversalOrType named
        rw [hosted.2 first List.mem_cons_self] at misfit
        cases misfit
      rw [if_neg unnamed] at h
      split at h
      · cases h
      · rw [if_pos (isWildcard_universal.1 wild)] at h
        exact (Option.some.inj h).symm
  | _ => cases wild

/-- **Beside `:host`, what goes with it keeps the compound pure.** -/
theorem Compound.IsHosted.unify (hosted : Compound.IsHosted c)
    (hs : s.suitsHost = true ∨ s.isWildcard = true) (h : s.unify c = some found) :
    Compound.IsHosted found := by
  rcases hs with suits | wild
  · cases host : s.isHostLike with
    | true => exact isHosted_unify_of_isHostLike host h
    | false =>
      refine ⟨hasHost_unify h hosted.1, fun t => ?_⟩
      cases s with
      | pseudo p => exact suitsHost_unify_pseudo hosted suits host h
      | _ => cases suits
  · exact eq_of_unify_isWildcard hosted wild h ▸ hosted

/-- Without `:host` on either side there is none afterwards. -/
theorem not_hasHost_unify (host : s.isHostLike = false) (hc : Compound.hasHost c = false)
    (h : s.unify c = some found) : Compound.hasHost found = false := by
  refine List.any_eq_false.2 fun t ht => Bool.eq_false_iff.1 ?_
  rcases Simple.mem_unify h ht with rfl | ht | named
  · exact host
  · exact Bool.eq_false_iff.2 (List.any_eq_false.1 hc t ht)
  · exact Simple.not_isHostLike_of_isUniversalOrType named

end OneCondition

/-! ## Adding the conditions of a compound -/

section TwoCompounds

variable {c₁ c₂ found : Compound}

/-- Once mixed, a compound stays mixed. -/
theorem Compound.IsMixed.unify_all (mixed : Compound.IsMixed c₂)
    (h : Compound.unify c₁ c₂ = some found) :
    Compound.IsMixed found := by
  induction c₁ generalizing c₂ with
  | nil => exact Option.some.inj h ▸ mixed
  | cons s rest ih =>
    rw [Compound.unify_cons, Option.bind_eq_some_iff] at h
    obtain ⟨next, hnext, h⟩ := h
    exact ih (mixed.unify hnext) h

/-- One condition that does not go with `:host` is enough. -/
theorem isMixed_unify_all (host : Compound.hasHost c₂ = true)
    (misfit : ∃ s ∈ c₁, s.suitsHost = false ∧ s.isWildcard = false)
    (h : Compound.unify c₁ c₂ = some found) : Compound.IsMixed found := by
  induction c₁ generalizing c₂ with
  | nil =>
    obtain ⟨_, ⟨⟩, _⟩ := misfit
  | cons s rest ih =>
    rw [Compound.unify_cons, Option.bind_eq_some_iff] at h
    obtain ⟨next, hnext, h⟩ := h
    rcases (List.exists_mem_cons_iff _ _ _).1 misfit with ⟨misfit, tame⟩ | misfit
    · exact (isMixed_unify host misfit tame hnext).unify_all h
    · exact ih (hasHost_unify hnext host) misfit h

/-- A compound with `:host` stays pure while only suitable conditions are added. -/
theorem Compound.IsHosted.unify_all (hosted : Compound.IsHosted c₂)
    (hc₁ : ∀ s ∈ c₁, s.suitsHost = true ∨ s.isWildcard = true)
    (h : Compound.unify c₁ c₂ = some found) : Compound.IsHosted found := by
  induction c₁ generalizing c₂ with
  | nil => exact Option.some.inj h ▸ hosted
  | cons s rest ih =>
    rw [Compound.unify_cons, Option.bind_eq_some_iff] at h
    obtain ⟨next, hnext, h⟩ := h
    obtain ⟨hs, hrest⟩ := List.forall_mem_cons.1 hc₁
    exact ih (hosted.unify hs hnext) hrest h

/-- Into a compound without `:host`, a host-pure compound brings nothing that could be mixed. -/
theorem not_isMixed_unify_all (hostless : Compound.hasHost c₂ = false)
    (pure : Compound.IsHostPure c₁) (h : Compound.unify c₁ c₂ = some found) :
    ¬ Compound.IsMixed found := by
  induction c₁ generalizing c₂ with
  | nil =>
    rintro ⟨host, -⟩
    rw [← Option.some.inj h, hostless] at host
    cases host
  | cons s rest ih =>
    rw [Compound.unify_cons, Option.bind_eq_some_iff] at h
    obtain ⟨next, hnext, h⟩ := h
    cases host : s.isHostLike with
    | true =>
      have suits := pure (by rw [Compound.hasHost, List.any_cons, host, Bool.true_or])
      have hosted := (isHosted_unify_of_isHostLike host hnext).unify_all
        (fun t ht => .inl (suits t (List.mem_cons_of_mem s ht))) h
      exact Compound.isHostPure_iff_not_isMixed.1 fun _ => hosted.2
    | false =>
      refine ih (not_hasHost_unify host hostless hnext) (fun host' t ht => ?_) h
      refine pure ?_ t (List.mem_cons_of_mem s ht)
      rw [Compound.hasHost, List.any_cons, host, Bool.false_or]
      exact host'

/-- **When `:host` stays with what goes with it.** -/
theorem isHostPure_unify_iff (h₁ : Compound.IsHostPure c₁) (h₂ : Compound.IsHostPure c₂)
    (h : unifyConditions c₁ c₂ = .ok (some found)) :
    Compound.IsHostPure found ↔
      ¬ (Compound.hasHost c₂ = true ∧ ∃ s ∈ c₁, s.suitsHost = false ∧ s.isWildcard = false) := by
  have unified := unify_of_unifyConditions h
  rw [Compound.isHostPure_iff_not_isMixed, not_iff_not]
  cases host : Compound.hasHost c₂ with
  | false => exact iff_of_false (not_isMixed_unify_all host h₁ unified) fun ⟨ne, _⟩ => by cases ne
  | true =>
    rw [and_iff_right rfl]
    refine ⟨fun mixed => ?_, fun misfit => isMixed_unify_all host misfit unified⟩
    by_contra misfitless
    have hosted := Compound.IsHosted.unify_all ⟨host, h₂ host⟩ (fun s hs => ?_) unified
    · exact Compound.isHostPure_iff_not_isMixed.1 (fun _ => hosted.2) mixed
    · by_contra misfit
      rw [not_or, Bool.not_eq_true, Bool.not_eq_true] at misfit
      exact misfitless ⟨s, hs, misfit⟩

/-- `:host` -/
def hostAlone : Simple := .pseudo (.written "host" false none none)

/-- `:is(.b)` -/
def insideB : Simple := .pseudo (.around "is" [⟨[.compound [.className "b"]], false⟩])

theorem isHostPure_unify_iff_inside :
    Compound.IsHostPure [.universal none, insideB] ∧ Compound.IsHostPure [hostAlone, insideB] ∧
    unifyConditions [.universal none, insideB] [hostAlone, insideB]
      = .ok (some [hostAlone, insideB]) ∧
    Compound.IsHostPure [hostAlone, insideB] := by
  have unified : unifyConditions [.universal none, insideB] [hostAlone, insideB] =
      .ok (some [hostAlone, insideB]) := by with_unfolding_all rfl
  have pure₁ : Compound.IsHostPure [.universal none, insideB] := by decide +kernel
  have pure₂ : Compound.IsHostPure [hostAlone, insideB] := by decide +kernel
  refine ⟨pure₁, pure₂, unified, (isHostPure_unify_iff pure₁ pure₂ unified).2 ?_⟩
  decide +kernel

/-- A type selector joins `:host`, and a class joins it where it is not alone. -/
theorem not_isHostPure_unify_element :
    (Compound.IsHostPure [.type ⟨"a", none⟩] ∧ Compound.IsHostPure [hostAlone] ∧
      unifyConditions [.type ⟨"a", none⟩] [hostAlone] = .ok (some [.type ⟨"a", none⟩, hostAlone]) ∧
      ¬ Compound.IsHostPure [.type ⟨"a", none⟩, hostAlone]) ∧
    Compound.IsHostPure [.className "a"] ∧ Compound.IsHostPure [hostAlone, insideB] ∧
      unifyConditions [.className "a"] [hostAlone, insideB] =
        .ok (some [.className "a", hostAlone, insideB]) ∧
      ¬ Compound.IsHostPure [.className "a", hostAlone, insideB] := by
  refine ⟨⟨?_, ?_, rfl, ?_⟩, ?_, ?_, by with_unfolding_all rfl, ?_⟩ <;> decide +kernel

end TwoCompounds

end SelectorAlgebra
