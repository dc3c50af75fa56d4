import Mathlib
import SelectorAlgebra.Proofs.UnifiedConditions
import SelectorAlgebra.Proofs.WovenCompounds

/-!
# Proofs/TidyCompounds — tidy compounds merge, or two of their conditions clash

A compound is **tidy** if its conditions stand in the order

    element name   ordinary conditions   pseudo-classes   pseudo-element

with no condition twice, at most one id, and neither `:host` nor `:host-context`.  Two conditions
**clash** if they are different ids, different pseudo-elements, or element names without a common
element.

* `unify_tidy` — two tidy compounds unify unless a condition of the one clashes with one of the
  other, and then to the tidy compound of all their conditions.  Their element names unify; only a
  wildcard may be left out.

Being tidy is a relation between any two conditions, the one before and the one behind
(`Simple.Precedes`), so a condition that is put into a tidy compound only has to be compared with
those on either side of its place.  Beside other conditions a lone wildcard is dropped
(`dropLoneWildcard`); that apart, adding a condition is one of two insertions.
-/

namespace SelectorAlgebra

/-! ## Tidy compounds -/

/-- What is asked of two conditions of a tidy compound, the first of which stands before the
second. -/
structure Simple.Precedes (s t : Simple) : Prop where
  /-- No condition stands twice. -/
  distinct : (s == t) = false
  /-- There is one id at most. -/
  oneId : ¬ (s.isId = true ∧ t.isId = true)
  /-- An element name only stands first. -/
  unnamed : t.isUniversalOrType = false
  /-- No other condition stands behind a pseudo selector. -/
  pseudos : s.isPseudo = true → t.isPseudo = true
  /-- A pseudo-element only stands last. -/
  notLast : s.isPseudoElement = false

/-- The conditions are in order, with neither `:host` nor `:host-context` among them. -/
structure Compound.IsTidy (c : Compound) : Prop where
  hostless : ∀ s ∈ c, s.isHostLike = false
  ordered : c.Pairwise Simple.Precedes

instance Simple.decidablePrecedes (s t : Simple) : Decidable (s.Precedes t) :=
  decidable_of_iff ((s == t) = false ∧ ¬ (s.isId = true ∧ t.isId = true) ∧
      t.isUniversalOrType = false ∧ (s.isPseudo = true → t.isPseudo = true) ∧
      s.isPseudoElement = false)
    ⟨fun ⟨h₁, h₂, h₃, h₄, h₅⟩ => ⟨h₁, h₂, h₃, h₄, h₅⟩,
      fun h => ⟨h.distinct, h.oneId, h.unnamed, h.pseudos, h.notLast⟩⟩

instance Compound.decidableIsTidy (c : Compound) : Decidable (Compound.IsTidy c) :=
  decidable_of_iff ((∀ s ∈ c, s.isHostLike = false) ∧ c.Pairwise Simple.Precedes)
    ⟨fun h => ⟨h.1, h.2⟩, fun h => ⟨h.hostless, h.ordered⟩⟩

/-- No element meets both conditions. -/
inductive Simple.Clash : Simple → Simple → Prop
  | ids {name name' : String} : name ≠ name' → Clash (.idName name) (.idName name')
  | elements {s t : Simple} : s.isUniversalOrType = true → t.isUniversalOrType = true →
      Simple.unifyElement s t = none → Clash s t
  | pseudoElements {s t : Simple} : s.isPseudoElement = true → t.isPseudoElement = true →
      (s == t) = false → Clash s t

/-- The first type or universal selector of a compound. -/
def Compound.elementName? (c : Compound) : Option Simple := c.find? Simple.isUniversalOrType

/-- What two element names unify to, where either may be missing. -/
def unifyNames : Option Simple → Option Simple → Option Simple
  | some s, some t => Simple.unifyElement s t
  | some s, none => some s
  | none, name => name

/-- The element name that is found is the one that is wanted, or a wanted wildcard is left out. -/
def IsNameOrDropped (wanted found : Option Simple) : Prop :=
  found = wanted ∨ found = none ∧ wanted.any Simple.isWildcard = true

theorem IsNameOrDropped.trans {wanted next found : Option Simple} (h : IsNameOrDropped wanted next)
    (h' : IsNameOrDropped next found) : IsNameOrDropped wanted found := by
  rcases h with rfl | ⟨rfl, wild⟩
  · exact h'
  · rcases h' with rfl | ⟨-, wild'⟩
    · exact .inr ⟨rfl, wild⟩
    · cases wild'

section Tidy

variable {s t : Simple} {c c' found : Compound}

theorem Simple.isPseudo_of_isPseudoElement (h : s.isPseudoElement = true) : s.isPseudo = true := by
  cases s with
  | pseudo p => rfl
  | _ => cases h

theorem Simple.not_isUniversalOrType_of_isPseudo (h : s.isPseudo = true) :
    s.isUniversalOrType = false := by
  cases s with
  | pseudo p => rfl
  | _ => cases h

theorem Simple.not_isPseudoElement_of_not_isPseudo (h : s.isPseudo = false) :
    s.isPseudoElement = false :=
  Bool.eq_false_iff.2 fun element => by
    rw [Simple.isPseudo_of_isPseudoElement element] at h
    cases h

/-- Leaving conditions out keeps a compound tidy. -/
theorem Compound.IsTidy.of_sublist (h : Compound.IsTidy c') (sub : c.Sublist c') :
    Compound.IsTidy c :=
  ⟨fun s hs => h.hostless s (sub.subset hs), h.ordered.sublist sub⟩

/-- A condition may be put in where it goes with those before it and those behind it. -/
theorem Compound.IsTidy.insert {before behind : Compound} (h : Compound.IsTidy (before ++ behind))
    (host : s.isHostLike = false) (hb : ∀ t ∈ before, t.Precedes s)
    (ha : ∀ t ∈ behind, s.Precedes t) :
    Compound.IsTidy (before ++ s :: behind) := by
  obtain ⟨ordered₁, ordered₂, across⟩ := List.pairwise_append.1 h.ordered
  refine ⟨fun t ht => ?_, List.pairwise_append.2 ⟨ordered₁, List.pairwise_cons.2 ⟨ha, ordered₂⟩,
    fun t ht u hu => ?_⟩⟩
  · rw [List.mem_append, List.mem_cons, or_left_comm, ← List.mem_append] at ht
    rcases ht with rfl | ht
    · exact host
    · exact h.hostless t ht
  · rcases List.mem_cons.1 hu with rfl | hu
    · exact hb t ht
    · exact across t ht u hu

/-- An element name may be put in front of a tidy compound without one. -/
theorem Compound.IsTidy.cons_name (h : Compound.IsTidy c) (named : s.isUniversalOrType = true)
    (unnamed : ∀ t ∈ c, t.isUniversalOrType = false) : Compound.IsTidy (s :: c) := by
  have other : s.isHostLike = false ∧ s.isId = false ∧ s.isPseudo = false := by
    cases s with
    | universal ns => exact ⟨rfl, rfl, rfl⟩
    | type name => exact ⟨rfl, rfl, rfl⟩
    | _ => cases named
  have behind : ∀ t ∈ c, s.Precedes t := fun t ht => by
    refine ⟨Bool.eq_false_iff.2 fun same => ?_, ?_, unnamed t ht, ?_,
      Simple.not_isPseudoElement_of_not_isPseudo other.2.2⟩
    · have alike := Simple.congr_of_beq (f := Simple.isUniversalOrType) (by simp) same
      rw [named, unnamed t ht] at alike
      cases alike
    · rw [other.2.1]
      exact fun both => Bool.false_ne_true both.1
    · rw [other.2.2]
      exact fun pseudo => absurd pseudo Bool.false_ne_true
  exact ⟨List.forall_mem_cons.2 ⟨other.1, h.hostless⟩, List.pairwise_cons.2 ⟨behind, h.ordered⟩⟩

/-- Behind its first condition, a tidy compound has no element name. -/
theorem Compound.IsTidy.unnamed_tail (h : Compound.IsTidy (s :: c)) :
    ∀ t ∈ c, t.isUniversalOrType = false :=
  fun t ht => ((List.pairwise_cons.1 h.ordered).1 t ht).unnamed

theorem elementName?_cons_of_named (named : s.isUniversalOrType = true) :
    Compound.elementName? (s :: c) = some s :=
  List.find?_cons_of_pos named

theorem elementName?_eq_none (h : ∀ t ∈ c, t.isUniversalOrType = false) :
    Compound.elementName? c = none :=
  List.find?_eq_none.2 fun t ht => Bool.eq_false_iff.1 (h t ht)

/-- Putting in another condition keeps the element name. -/
theorem elementName?_insert {before behind : Compound} (h : s.isUniversalOrType = false) :
    Compound.elementName? (before ++ s :: behind) = Compound.elementName? (before ++ behind) := by
  simp only [Compound.elementName?, List.find?_append, List.find?_cons_of_neg
    (Bool.eq_false_iff.1 h)]

end Tidy

/-- What a condition and a tidy compound have to give. -/
structure Simple.Meets (s : Simple) (c : Compound) (result : Option Compound) : Prop where
  none_iff : result = none ↔ ∃ t ∈ c, s.Clash t
  tidy : ∀ found ∈ result, Compound.IsTidy found
  name : ∀ found ∈ result,
    IsNameOrDropped (unifyNames (Compound.elementName? [s]) (Compound.elementName? c))
      (Compound.elementName? found)

/-! ## Element names -/

section Names

variable {s first : Simple} {c rest found : Compound}

/-- An element name clashes with nothing but an element name. -/
theorem Simple.Clash.named {t : Simple} (h : s.Clash t) (named : s.isUniversalOrType = true) :
    t.isUniversalOrType = true ∧ Simple.unifyElement s t = none := by
  cases h with
  | ids _ => cases named
  | elements _ named' apart => exact ⟨named', apart⟩
  | pseudoElements element _ _ =>
    rw [Simple.not_isUniversalOrType_of_isPseudo
      (Simple.isPseudo_of_isPseudoElement element)] at named
    cases named

/-- The two names in front unify, or they clash. -/
theorem meets_merged (hs : s.isUniversalOrType = true) (hf : first.isUniversalOrType = true)
    (h : Compound.IsTidy (first :: rest)) :
    s.Meets (first :: rest) ((Simple.unifyElement s first).map (· :: rest)) := by
  have unnamed := h.unnamed_tail
  refine ⟨?_, fun found hfound => ?_, fun found hfound => ?_⟩
  · rw [Option.map_eq_none_iff]
    refine ⟨fun apart => ⟨first, List.mem_cons_self, .elements hs hf apart⟩, ?_⟩
    rintro ⟨t, ht, clash⟩
    obtain ⟨named, apart⟩ := clash.named hs
    rcases List.mem_cons.1 ht with rfl | ht
    · exact apart
    · rw [unnamed t ht] at named
      cases named
  · obtain ⟨u, hu, rfl⟩ := Option.map_eq_some_iff.1 hfound
    exact (h.of_sublist (List.sublist_cons_self _ _)).cons_name
      (isUniversalOrType_of_unifyElement hu) unnamed
  · obtain ⟨u, hu, rfl⟩ := Option.map_eq_some_iff.1 hfound
    rw [elementName?_cons_of_named hs, elementName?_cons_of_named hf,
      elementName?_cons_of_named (isUniversalOrType_of_unifyElement hu)]
    exact .inl hu.symm

/-- Element names clash with element names only. -/
theorem Simple.not_clash_of_unnamed (hs : s.isUniversalOrType = true)
    (unnamed : ∀ t ∈ c, t.isUniversalOrType = false) : ¬ ∃ t ∈ c, s.Clash t := by
  rintro ⟨t, ht, clash⟩
  have named := (clash.named hs).1
  rw [unnamed t ht] at named
  cases named

/-- A name goes in front of a compound without one. -/
theorem meets_front (hs : s.isUniversalOrType = true) (h : Compound.IsTidy c)
    (unnamed : ∀ t ∈ c, t.isUniversalOrType = false) : s.Meets c (some (s :: c)) := by
  refine ⟨iff_of_false (Option.some_ne_none _) (s.not_clash_of_unnamed hs unnamed), ?_, ?_⟩
  · rintro _ ⟨⟩
    exact h.cons_name hs unnamed
  · rintro _ ⟨⟩
    rw [elementName?_eq_none unnamed, elementName?_cons_of_named hs, elementName?_cons_of_named hs]
    exact .inl rfl

/-- A wildcard is left out beside other conditions. -/
theorem meets_dropped (wild : s.isWildcard = true) (h : Compound.IsTidy c)
    (unnamed : ∀ t ∈ c, t.isUniversalOrType = false) : s.Meets c (some c) := by
  have named := Simple.isUniversalOrType_of_isWildcard wild
  refine ⟨iff_of_false (Option.some_ne_none _) (s.not_clash_of_unnamed named unnamed), ?_, ?_⟩
  · rintro _ ⟨⟩
    exact h
  · rintro _ ⟨⟩
    rw [elementName?_eq_none unnamed, elementName?_cons_of_named named]
    exact .inr ⟨rfl, wild⟩

/-- **An element name and a tidy compound.** -/
theorem Simple.meets_unify_of_named (hs : s.isUniversalOrType = true) (h : Compound.IsTidy c) :
    s.Meets c (s.unify c) := by
  rcases c with _ | ⟨first, rest⟩
  · have front := meets_front hs h (List.forall_mem_nil _)
    cases s with
    | universal ns => exact front
    | type name => exact front
    | _ => cases hs
  by_cases hf : first.isUniversalOrType = true
  · have merged := meets_merged hs hf h
    cases s with
    | universal ns => rwa [unify, unifyUniversal, if_pos hf]
    | type name => rwa [unify, unifyType, if_pos hf]
    | _ => cases hs
  · have unnamed : ∀ t ∈ first :: rest, t.isUniversalOrType = false :=
      List.forall_mem_cons.2 ⟨Bool.eq_false_iff.2 hf, h.unnamed_tail⟩
    have front := meets_front hs h unnamed
    cases s with
    | universal ns =>
      have host : (rest.isEmpty && first.isHostLike) = false := by
        rw [h.hostless first List.mem_cons_self, Bool.and_false]
      rw [unify, unifyUniversal, if_neg hf, host, if_neg Bool.false_ne_true]
      split
      · rename_i wild
        exact meets_dropped (isWildcard_universal.2 wild) h unnamed
      · exact front
    | type name => rwa [unify, unifyType, if_neg hf]
    | _ => cases hs

end Names

/-! ## Other conditions -/

/-- The compound without its wildcard, if that is all there is. -/
def dropLoneWildcard : Compound → Compound
  | [s] => if s.isWildcard then [] else [s]
  | c => c

section Others

variable {s t : Simple} {c found : Compound} {p : Pseudo}

theorem dropLoneWildcard_sublist (c : Compound) : (dropLoneWildcard c).Sublist c := by
  unfold dropLoneWildcard
  split
  · split
    · exact List.nil_sublist _
    · exact List.Sublist.refl _
  · exact List.Sublist.refl _

theorem mem_dropLoneWildcard (ht : t ∈ c) (plain : t.isUniversalOrType = false) :
    t ∈ dropLoneWildcard c := by
  unfold dropLoneWildcard
  split
  · obtain rfl := List.mem_singleton.1 ht
    split
    · rename_i wild
      rw [Simple.isUniversalOrType_of_isWildcard wild] at plain
      cases plain
    · exact ht
  · exact ht

/-- Dropping a lone `*` loses no name that asks for anything. -/
theorem elementName?_dropLoneWildcard (c : Compound) :
    IsNameOrDropped (Compound.elementName? c) (Compound.elementName? (dropLoneWildcard c)) := by
  unfold dropLoneWildcard
  split
  · rename_i s
    split
    · rename_i wild
      rw [elementName?_cons_of_named (Simple.isUniversalOrType_of_isWildcard wild)]
      exact .inr ⟨rfl, wild⟩
    · exact .inl rfl
  · exact .inl rfl

/-- A lone wildcard gives way to other conditions, and any other universal selector stays in
front. -/
theorem unifyUniversal_singleton (ns : Option Namespace) (plain : s.isUniversalOrType = false)
    (host : s.isHostLike = false) :
    unifyUniversal ns [s] = some (dropLoneWildcard [.universal ns] ++ [s]) := by
  simp only [unifyUniversal, plain, host, dropLoneWildcard, isWildcard_universal]
  by_cases wild : ns = none ∨ ns = some .any
  · simp [wild]
  · simp [wild]

/-- The rule for a lone `*` says no more than that a wildcard is dropped. -/
theorem unifyWithLone_hostless (plain : s.isUniversalOrType = false) (host : s.isHostLike = false)
    (h : ∀ t ∈ c, t.isHostLike = false) :
    (unifyWithLone s c = some (some (dropLoneWildcard c ++ [s])) ∧ ∃ ns, c = [.universal ns]) ∨
      unifyWithLone s c = none ∧ dropLoneWildcard c = c := by
  rcases c with _ | ⟨first, _ | ⟨second, rest⟩⟩
  · exact .inr ⟨rfl, rfl⟩
  · cases first with
    | universal ns =>
      exact .inl ⟨congrArg some (unifyUniversal_singleton ns plain host), ns, rfl⟩
    | pseudo p =>
      have hostless : (p.isHost || p.isHostContext) = false := h _ List.mem_cons_self
      exact .inr ⟨by simp [unifyWithLone, hostless], rfl⟩
    | _ => exact .inr ⟨rfl, rfl⟩
  · exact .inr ⟨by unfold unifyWithLone; simp, rfl⟩

theorem contains_eq_false_of_named (named : ∀ t ∈ c, t.isUniversalOrType = true)
    (plain : s.isUniversalOrType = false) : c.contains s = false := by
  refine Bool.eq_false_iff.2 fun mem => ?_
  obtain ⟨t, ht, same⟩ := List.contains_iff_exists_mem_beq.1 mem
  rw [Simple.congr_of_beq (f := Simple.isUniversalOrType) (by simp) same, named t ht] at plain
  cases plain

theorem named_of_mem_dropLoneWildcard {ns : Option Namespace}
    (ht : t ∈ dropLoneWildcard [.universal ns]) : t.isUniversalOrType = true := by
  rw [List.mem_singleton.1 ((dropLoneWildcard_sublist _).subset ht)]
  rfl

/-- Beside nothing but element names, either insertion puts its condition last. -/
theorem insertBeforePseudos_of_named (named : ∀ t ∈ c, t.isUniversalOrType = true)
    (plain : s.isUniversalOrType = false) : insertBeforePseudos s c = c ++ [s] := by
  have before : ∀ t ∈ c, (!t.isPseudo) = true := fun t ht => by
    rw [Bool.not_eq_true', ← Bool.not_eq_true]
    intro pseudo
    have unnamed := Simple.not_isUniversalOrType_of_isPseudo pseudo
    rw [named t ht] at unnamed
    cases unnamed
  rw [insertBeforePseudos, contains_eq_false_of_named named plain, if_neg Bool.false_ne_true,
    List.takeWhile_eq_self_iff.2 before, List.dropWhile_eq_nil_iff.2 before]

/-- Behind element names a pseudo goes last. -/
theorem insertPseudo_of_named (named : ∀ t ∈ c, t.isUniversalOrType = true) :
    insertPseudo p c = some (c ++ [.pseudo p]) := by
  have classes : Compound.hasPseudoElement c = false := by
    refine List.any_eq_false.2 fun t ht element => ?_
    have unnamed :=
      Simple.not_isUniversalOrType_of_isPseudo (Simple.isPseudo_of_isPseudoElement element)
    rw [named t ht] at unnamed
    cases unnamed
  rw [insertPseudo, contains_eq_false_of_named named rfl, if_neg Bool.false_ne_true, classes,
    if_neg Bool.false_ne_true]

/-- An ordinary condition is inserted, once a lone wildcard is dropped. -/
theorem unifyOrdinary_hostless (plain : s.isUniversalOrType = false) (pseudo : s.isPseudo = false)
    (h : ∀ t ∈ c, t.isHostLike = false) :
    unifyOrdinary s c = some (insertBeforePseudos s (dropLoneWildcard c)) := by
  have host : s.isHostLike = false := by
    cases s with
    | pseudo p => cases pseudo
    | _ => rfl
  rcases unifyWithLone_hostless plain host h with ⟨lone, ns, rfl⟩ | ⟨lone, own⟩
  · rw [unifyOrdinary, lone,
      insertBeforePseudos_of_named (fun t => named_of_mem_dropLoneWildcard) plain]
  · rw [unifyOrdinary, lone, own]

/-- A pseudo selector is inserted, once a lone wildcard is dropped. -/
theorem unify_pseudo_hostless (host : (Simple.pseudo p).isHostLike = false)
    (h : ∀ t ∈ c, t.isHostLike = false) :
    (Simple.pseudo p).unify c = insertPseudo p (dropLoneWildcard c) := by
  have other : (p.isHost || p.isHostContext) = false := host
  rw [Simple.unify, other, if_neg Bool.false_ne_true]
  rcases unifyWithLone_hostless rfl host h with ⟨lone, ns, rfl⟩ | ⟨lone, own⟩
  · rw [lone, insertPseudo_of_named fun t => named_of_mem_dropLoneWildcard]
  · rw [lone, own]

/-- The conditions of a tidy compound are cut into ordinary ones and pseudo selectors. -/
theorem Compound.IsTidy.isPseudo_of_mem_dropWhile (h : Compound.IsTidy c)
    (ht : t ∈ c.dropWhile (!·.isPseudo)) : t.isPseudo = true := by
  have ordered := h.ordered.sublist (List.dropWhile_sublist (!·.isPseudo))
  cases hdrop : c.dropWhile (!·.isPseudo) with
  | nil =>
    rw [hdrop] at ht
    cases ht
  | cons first rest =>
    have pseudo : first.isPseudo = true := by
      simpa [hdrop] using @List.head_dropWhile_not _ (!·.isPseudo) c (by simp [hdrop])
    rw [hdrop] at ht ordered
    rcases List.mem_cons.1 ht with rfl | ht
    · exact pseudo
    · exact ((List.pairwise_cons.1 ordered).1 t ht).pseudos pseudo

theorem not_beq_of_not_contains (h : c.contains s = false) (ht : t ∈ c) :
    (t == s) = false ∧ (s == t) = false := by
  have apart : (s == t) = false := Bool.eq_false_iff.2 fun same =>
    Bool.eq_false_iff.1 h (List.contains_iff_exists_mem_beq.2 ⟨t, ht, same⟩)
  exact ⟨BEq.comm.trans apart, apart⟩

/-- Different ids clash. -/
theorem Simple.clash_of_isId (hs : s.isId = true) (ht : t.isId = true) (apart : (s == t) = false) :
    s.Clash t := by
  cases s with
  | idName name =>
    cases t with
    | idName name' =>
      refine .ids fun same => ?_
      rw [same, BEq.rfl] at apart
      cases apart
    | _ => cases ht
  | _ => cases hs

/-- An ordinary condition goes between the ordinary conditions and the pseudo selectors. -/
theorem isTidy_insertBeforePseudos (h : Compound.IsTidy c) (plain : s.isUniversalOrType = false)
    (pseudo : s.isPseudo = false) (free : ∀ t ∈ c, ¬ s.Clash t) :
    Compound.IsTidy (insertBeforePseudos s c) := by
  have host : s.isHostLike = false := by
    cases s with
    | pseudo p => cases pseudo
    | _ => rfl
  unfold insertBeforePseudos
  split
  · exact h
  rename_i new
  rw [Bool.not_eq_true] at new
  have parts : c.takeWhile (!·.isPseudo) ++ c.dropWhile (!·.isPseudo) = c :=
    List.takeWhile_append_dropWhile
  refine Compound.IsTidy.insert (parts.symm ▸ h) host (fun t ht => ?_) fun t ht => ?_
  · have mem := (List.takeWhile_prefix _).subset ht
    have ordinary : t.isPseudo = false := by simpa using List.mem_takeWhile_imp ht
    obtain ⟨apart, apart'⟩ := not_beq_of_not_contains new mem
    exact ⟨apart, fun both => free t mem (Simple.clash_of_isId both.2 both.1 apart'), plain,
      fun pseudo' => absurd pseudo' (ordinary ▸ Bool.false_ne_true),
      Simple.not_isPseudoElement_of_not_isPseudo ordinary⟩
  · have mem := (List.dropWhile_suffix _).subset ht
    obtain ⟨-, apart⟩ := not_beq_of_not_contains new mem
    exact ⟨apart, fun both => free t mem (Simple.clash_of_isId both.1 both.2 apart),
      Simple.not_isUniversalOrType_of_isPseudo (h.isPseudo_of_mem_dropWhile ht),
      fun pseudo' => absurd pseudo' (pseudo ▸ Bool.false_ne_true),
      Simple.not_isPseudoElement_of_not_isPseudo pseudo⟩

/-- Putting an ordinary condition in keeps the element name. -/
theorem elementName?_insertBeforePseudos (plain : s.isUniversalOrType = false) :
    Compound.elementName? (insertBeforePseudos s c) = Compound.elementName? c := by
  unfold insertBeforePseudos
  split
  · rfl
  · rw [elementName?_insert plain, List.takeWhile_append_dropWhile]

/-- A tidy compound with a pseudo-element ends in it, and has no other one. -/
theorem Compound.IsTidy.exists_concat (h : Compound.IsTidy c)
    (has : Compound.hasPseudoElement c = true) :
    ∃ init last, c = init ++ [last] ∧ last.isPseudoElement = true ∧
      ∀ t ∈ init, t.isPseudoElement = false := by
  obtain ⟨t, ht, element⟩ := List.any_eq_true.1 has
  rcases List.eq_nil_or_concat c with rfl | ⟨init, last, rfl⟩
  · cases ht
  rw [List.concat_eq_append] at h ht ⊢
  have classes : ∀ u ∈ init, u.isPseudoElement = false := fun u hu =>
    ((List.pairwise_append.1 h.ordered).2.2 u hu last (List.mem_singleton_self _)).notLast
  refine ⟨init, last, rfl, ?_, classes⟩
  rcases List.mem_append.1 ht with ht | ht
  · rw [classes t ht] at element
    cases element
  · exact List.mem_singleton.1 ht ▸ element

/-- The insertion before a pseudo-element, written out for the one at the end. -/
theorem flatMap_insert {init : Compound} {last : Simple}
    (classes : ∀ t ∈ init, t.isPseudoElement = false) (element : last.isPseudoElement = true) :
    ((init ++ [last]).flatMap fun t => if t.isPseudoElement then [s, t] else [t])
    = init ++ [s, last] := by
  rw [List.flatMap_append, List.flatMap_singleton, element]
  congr 1
  calc init.flatMap (fun t => if t.isPseudoElement then [s, t] else [t])
      = init.flatMap ([·]) := List.flatMap_congr fun t ht => by rw [classes t ht]; rfl
    _ = init := List.flatMap_singleton' init

/-- **A pseudo selector that is new to a tidy compound**: it goes last, or right before the
pseudo-element, or there are two pseudo-elements. -/
theorem insertPseudo_cases (h : Compound.IsTidy c) (new : c.contains (.pseudo p) = false) :
    (insertPseudo p c = some (c ++ [.pseudo p]) ∧ ∀ t ∈ c, t.isPseudoElement = false) ∨
    ∃ init last, c = init ++ [last] ∧ last.isPseudoElement = true ∧
      (∀ t ∈ init, t.isPseudoElement = false) ∧
      insertPseudo p c = if p.isElement then none else some (init ++ [.pseudo p, last]) := by
  cases has : Compound.hasPseudoElement c with
  | false =>
    refine .inl ⟨?_, fun t ht => Bool.eq_false_iff.2 (List.any_eq_false.1 has t ht)⟩
    rw [insertPseudo, new, has]
    rfl
  | true =>
    obtain ⟨init, last, rfl, element, classes⟩ := h.exists_concat has
    refine .inr ⟨init, last, rfl, element, classes, ?_⟩
    rw [insertPseudo, new, has, flatMap_insert classes element]
    rfl

/-- Pseudo selectors only clash if they are different pseudo-elements. -/
theorem Simple.clash_pseudo_iff :
    (Simple.pseudo p).Clash t ↔
      p.isElement = true ∧ t.isPseudoElement = true ∧ (Simple.pseudo p == t) = false := by
  constructor
  · intro clash
    cases clash with
    | elements named _ _ => cases named
    | pseudoElements element element' apart => exact ⟨element, element', apart⟩
  · rintro ⟨element, element', apart⟩
    exact .pseudoElements element element' apart

theorem pseudo_precedes (apart : (Simple.pseudo p == t) = false) (pseudo : t.isPseudo = true)
    (class' : p.isElement = false) : (Simple.pseudo p).Precedes t :=
  ⟨apart, fun both => Bool.false_ne_true both.1, Simple.not_isUniversalOrType_of_isPseudo pseudo,
    fun _ => pseudo, class'⟩

theorem precedes_pseudo (apart : (t == Simple.pseudo p) = false)
    (class' : t.isPseudoElement = false) :
    t.Precedes (.pseudo p) :=
  ⟨apart, fun both => Bool.false_ne_true both.2, rfl, fun _ => rfl, class'⟩

/-- What an insertion into a tidy compound has to give. -/
structure Simple.Inserts (s : Simple) (c : Compound) (result : Option Compound) : Prop where
  none_iff : result = none ↔ ∃ t ∈ c, s.Clash t
  tidy : ∀ found ∈ result, Compound.IsTidy found
  name : ∀ found ∈ result, Compound.elementName? found = Compound.elementName? c

/-- A pseudo that is there already. -/
theorem inserts_insertPseudo_of_contains (h : Compound.IsTidy c)
    (old : c.contains (.pseudo p) = true) :
    (Simple.pseudo p).Inserts c (insertPseudo p c) := by
  rw [insertPseudo, if_pos old]
  refine ⟨iff_of_false (Option.some_ne_none _) ?_, ?_, ?_⟩
  · rintro ⟨t, ht, clash⟩
    obtain ⟨element, element', apart⟩ := Simple.clash_pseudo_iff.1 clash
    obtain ⟨u, hu, same⟩ := List.contains_iff_exists_mem_beq.1 old
    have element'' : u.isPseudoElement = true := by
      rw [← Simple.congr_of_beq (f := Simple.isPseudoElement) (by simp) same]
      exact element
    -- there is room for one pseudo-element only
    obtain ⟨init, last, rfl, -, classes⟩ := h.exists_concat (List.any_eq_true.2 ⟨t, ht, element'⟩)
    have only : ∀ v ∈ init ++ [last], v.isPseudoElement = true → v = last := fun v hv hpe => by
      rcases List.mem_append.1 hv with hv | hv
      · rw [classes v hv] at hpe
        cases hpe
      · exact List.mem_singleton.1 hv
    rw [only t ht element', ← only u hu element'', same] at apart
    cases apart
  · rintro _ ⟨⟩
    exact h
  · rintro _ ⟨⟩
    rfl

/-- A new pseudo, before the pseudo-element if there is one. -/
theorem inserts_insertPseudo_of_new (h : Compound.IsTidy c)
    (host : (Simple.pseudo p).isHostLike = false) (new : c.contains (.pseudo p) = false) :
    (Simple.pseudo p).Inserts c (insertPseudo p c) := by
  rcases insertPseudo_cases h new with ⟨eq, classes⟩ | ⟨init, last, rfl, element, classes, eq⟩
  · rw [eq]
    refine ⟨iff_of_false (Option.some_ne_none _) ?_, ?_, ?_⟩
    · rintro ⟨t, ht, clash⟩
      have element := (Simple.clash_pseudo_iff.1 clash).2.1
      rw [classes t ht] at element
      cases element
    · rintro _ ⟨⟩
      exact Compound.IsTidy.insert ((List.append_nil c).symm ▸ h) host
        (fun t ht => precedes_pseudo (not_beq_of_not_contains new ht).1 (classes t ht))
        (List.forall_mem_nil _)
    · rintro _ ⟨⟩
      rw [elementName?_insert rfl, List.append_nil]
  · have hlast : last ∈ init ++ [last] := List.mem_append_right _ (List.mem_singleton_self _)
    have apart := (not_beq_of_not_contains new hlast).2
    rw [eq]
    cases class' : p.isElement with
    | true =>
      refine ⟨iff_of_true rfl ⟨last, hlast, Simple.clash_pseudo_iff.2 ⟨class', element, apart⟩⟩, ?_,
        ?_⟩
      · rintro _ ⟨⟩
      · rintro _ ⟨⟩
    | false =>
      refine ⟨iff_of_false (Option.some_ne_none _) ?_, ?_, ?_⟩
      · rintro ⟨t, ht, clash⟩
        have element := (Simple.clash_pseudo_iff.1 clash).1
        rw [class'] at element
        cases element
      · rintro _ ⟨⟩
        refine h.insert host (fun t ht => ?_) fun t ht => ?_
        · exact precedes_pseudo
            (not_beq_of_not_contains new (List.mem_append_left _ ht)).1 (classes t ht)
        · rw [List.mem_singleton.1 ht]
          exact pseudo_precedes apart (Simple.isPseudo_of_isPseudoElement element) class'
      · rintro _ ⟨⟩
        exact elementName?_insert rfl

/-- **Inserting a pseudo selector.** -/
theorem inserts_insertPseudo (h : Compound.IsTidy c) (host : (Simple.pseudo p).isHostLike = false) :
    (Simple.pseudo p).Inserts c (insertPseudo p c) := by
  cases old : c.contains (.pseudo p) with
  | true => exact inserts_insertPseudo_of_contains h old
  | false => exact inserts_insertPseudo_of_new h host old

/-- **Inserting an ordinary condition** that clashes with nothing. -/
theorem inserts_insertBeforePseudos (h : Compound.IsTidy c) (plain : s.isUniversalOrType = false)
    (pseudo : s.isPseudo = false) (free : ∀ t ∈ c, ¬ s.Clash t) :
    s.Inserts c (some (insertBeforePseudos s c)) := by
  refine ⟨iff_of_false (Option.some_ne_none _) fun ⟨t, ht, clash⟩ => free t ht clash, ?_, ?_⟩
  · rintro _ ⟨⟩
    exact isTidy_insertBeforePseudos h plain pseudo free
  · rintro _ ⟨⟩
    exact elementName?_insertBeforePseudos plain

/-- Other conditions than element names clash with none. -/
theorem Simple.Clash.unnamed (h : s.Clash t) (plain : s.isUniversalOrType = false) :
    t.isUniversalOrType = false := by
  cases h with
  | ids _ => rfl
  | elements named _ _ =>
    rw [plain] at named
    cases named
  | pseudoElements _ element _ =>
    exact Simple.not_isUniversalOrType_of_isPseudo (Simple.isPseudo_of_isPseudoElement element)

/-- A lone wildcard is dropped, and then the condition is inserted. -/
theorem Simple.Inserts.meets {result : Option Compound} (plain : s.isUniversalOrType = false)
    (h : s.Inserts (dropLoneWildcard c) result) : s.Meets c result := by
  refine ⟨h.none_iff.trans ?_, h.tidy, fun found hfound => ?_⟩
  · constructor
    · rintro ⟨t, ht, clash⟩
      exact ⟨t, (dropLoneWildcard_sublist c).subset ht, clash⟩
    · rintro ⟨t, ht, clash⟩
      exact ⟨t, mem_dropLoneWildcard ht (clash.unnamed plain), clash⟩
  · rw [h.name found hfound, elementName?_eq_none (List.forall_mem_singleton.2 plain)]
    exact elementName?_dropLoneWildcard c

/-- The general case meets what is asked of adding one condition. -/
theorem Simple.meets_unifyOrdinary (h : Compound.IsTidy c) (plain : s.isUniversalOrType = false)
    (pseudo : s.isPseudo = false) (free : ∀ t ∈ c, ¬ s.Clash t) :
    s.Meets c (unifyOrdinary s c) := by
  have sub := dropLoneWildcard_sublist c
  rw [unifyOrdinary_hostless plain pseudo h.hostless]
  exact (inserts_insertBeforePseudos (h.of_sublist sub) plain pseudo
    fun t ht => free t (sub.subset ht)).meets plain

/-- The check for another id is the check for a clash. -/
theorem any_otherId_iff {name : String} :
    (c.any fun t => t.isId && t != .idName name) = true ↔
    ∃ t ∈ c, (Simple.idName name).Clash t := by
  rw [List.any_eq_true]
  refine exists_congr fun t => and_congr_right fun _ => ?_
  rw [Bool.and_eq_true, bne, Bool.not_eq_true', BEq.comm]
  constructor
  · rintro ⟨id, apart⟩
    exact Simple.clash_of_isId rfl id apart
  · intro clash
    cases clash with
    | ids ne =>
      exact ⟨rfl, Bool.eq_false_iff.2 fun same => ne (Simple.idName.inj (Simple.beq_iff.1 same))⟩
    | elements named _ _ => cases named
    | pseudoElements element _ _ => cases element

/-- **One condition and a tidy compound.** -/
theorem Simple.meets_unify (host : s.isHostLike = false) (h : Compound.IsTidy c) :
    s.Meets c (s.unify c) := by
  cases s with
  | universal ns => exact Simple.meets_unify_of_named rfl h
  | type name => exact Simple.meets_unify_of_named rfl h
  | idName name =>
    rw [unify]
    split
    · rename_i other
      refine ⟨iff_of_true rfl (any_otherId_iff.1 other), ?_, ?_⟩
      · rintro _ ⟨⟩
      · rintro _ ⟨⟩
    · rename_i same
      exact Simple.meets_unifyOrdinary h rfl rfl fun t ht clash =>
        same (any_otherId_iff.2 ⟨t, ht, clash⟩)
  | pseudo p =>
    rw [unify_pseudo_hostless host h.hostless]
    exact (inserts_insertPseudo (h.of_sublist (dropLoneWildcard_sublist c)) host).meets rfl
  | _ =>
    refine Simple.meets_unifyOrdinary h rfl rfl fun t ht clash => ?_
    cases clash with
    | elements named _ _ => cases named
    | pseudoElements element _ _ => cases element

end Others

/-! ## Two compounds -/

section TwoCompounds

variable {s s' : Simple} {c c₁ c₂ next : Compound}

/-- Two conditions of one compound do not clash, if the compound is tidy. -/
theorem Simple.Precedes.not_clash (h : s.Precedes s') : ¬ s'.Clash s := by
  intro clash
  cases clash with
  | ids _ => exact h.oneId ⟨rfl, rfl⟩
  | elements named _ _ =>
    rw [h.unnamed] at named
    cases named
  | pseudoElements _ element _ =>
    rw [h.notLast] at element
    cases element

/-- A condition added before makes no difference to those that follow it. -/
theorem clash_unify_iff (h : s.unify c = some next) (prec : s.Precedes s') :
    (∃ t ∈ next, s'.Clash t) ↔ ∃ t ∈ c, s'.Clash t := by
  constructor
  · rintro ⟨t, ht, clash⟩
    rcases Simple.mem_unify h ht with rfl | ht | named
    · exact absurd clash prec.not_clash
    · exact ⟨t, ht, clash⟩
    · rw [clash.unnamed prec.unnamed] at named
      cases named
  · rintro ⟨t, ht, clash⟩
    refine ⟨t, ((Simple.joins_of_unify h).kept t ht).resolve_right fun named => ?_, clash⟩
    rw [clash.unnamed prec.unnamed] at named
    cases named.1

/-- **The conditions of a tidy compound, one after the other.** -/
theorem Compound.IsTidy.unify (h₁ : Compound.IsTidy c₁) (h₂ : Compound.IsTidy c₂) :
    (Compound.unify c₁ c₂ = none ↔ ∃ s ∈ c₁, ∃ t ∈ c₂, s.Clash t) ∧
      ∀ found ∈ Compound.unify c₁ c₂, Compound.IsTidy found ∧
        IsNameOrDropped (unifyNames (Compound.elementName? c₁) (Compound.elementName? c₂))
          (Compound.elementName? found) := by
  induction c₁ generalizing c₂ with
  | nil =>
    refine ⟨iff_of_false (Option.some_ne_none _) ?_, ?_⟩
    · rintro ⟨s, ⟨⟩, -⟩
    · rintro _ ⟨⟩
      exact ⟨h₂, .inl rfl⟩
  | cons s rest ih =>
    have step := Simple.meets_unify (h₁.hostless s List.mem_cons_self) h₂
    have ordered := List.pairwise_cons.1 h₁.ordered
    simp only [Compound.unify_cons, List.exists_mem_cons_iff]
    cases hnext : s.unify c₂ with
    | none =>
      refine ⟨iff_of_true rfl (.inl (step.none_iff.1 hnext)), ?_⟩
      rintro _ ⟨⟩
    | some next =>
      obtain ⟨none_iff, result⟩ :=
        ih (h₁.of_sublist (List.sublist_cons_self s rest)) (step.tidy next hnext)
      have free : ¬ ∃ t ∈ c₂, s.Clash t := fun clash => by
        rw [step.none_iff.2 clash] at hnext
        cases hnext
      have later : (∃ s' ∈ rest, ∃ t ∈ next, s'.Clash t) ↔ ∃ s' ∈ rest, ∃ t ∈ c₂, s'.Clash t :=
        exists_congr fun s' => and_congr_right fun hs' => clash_unify_iff hnext (ordered.1 s' hs')
      refine ⟨?_, fun found hfound => ?_⟩
      · exact (none_iff.trans later).trans (or_iff_right free).symm
      · obtain ⟨tidy, name⟩ := result found hfound
        have first : Compound.elementName? (s :: rest) = Compound.elementName? [s] := by
          have unnamed : List.find? Simple.isUniversalOrType rest = none :=
            elementName?_eq_none h₁.unnamed_tail
          rw [Compound.elementName?, Compound.elementName?, List.find?_cons, List.find?_cons,
            unnamed, List.find?_nil]
        rw [elementName?_eq_none h₁.unnamed_tail] at name
        rw [first]
        exact ⟨tidy, (step.name next hnext).trans name⟩

/-- **Tidy compounds merge, unless two of their conditions clash.** -/
theorem unify_tidy (h₁ : Compound.IsTidy c₁) (h₂ : Compound.IsTidy c₂)
    (filled : c₁ ≠ [] ∨ c₂ ≠ []) :
    (unifyConditions c₁ c₂ = .ok none ↔ ∃ s ∈ c₁, ∃ t ∈ c₂, s.Clash t) ∧
    ((¬ ∃ s ∈ c₁, ∃ t ∈ c₂, s.Clash t) → ∃ c, unifyConditions c₁ c₂ = .ok (some c) ∧
      Compound.IsTidy c ∧
      (∀ s : Simple, s.isUniversalOrType = false →
        (c.contains s = true ↔ c₁.contains s = true ∨ c₂.contains s = true)) ∧
      IsNameOrDropped (unifyNames (Compound.elementName? c₁) (Compound.elementName? c₂))
        (Compound.elementName? c)) := by
  obtain ⟨none_iff, result⟩ := h₁.unify h₂
  cases h : Compound.unify c₁ c₂ with
  | none =>
    have clash := none_iff.1 h
    refine ⟨iff_of_true ?_ clash, fun free => absurd clash free⟩
    rw [unifyConditions, h]
  | some c =>
    have full : unifyConditions c₁ c₂ = .ok (some c) := by
      rw [unifyConditions, h]
      cases c with
      | nil => exact absurd rfl (Compound.unify_ne_nil filled h)
      | cons s rest => rfl
    have free : ¬ ∃ s ∈ c₁, ∃ t ∈ c₂, s.Clash t := fun clash => by
      rw [none_iff.2 clash] at h
      cases h
    obtain ⟨tidy, name⟩ := result c h
    refine ⟨iff_of_false (fun refused => ?_) free, fun _ =>
      ⟨c, full, tidy, fun s plain => Compound.contains_unify_iff h plain, name⟩⟩
    rw [full] at refused
    cases refused

/-- `a.x:hover` -/
def hoveredLink : Compound :=
  [.type ⟨"a", none⟩, .className "x", .pseudo (.written "hover" false none none)]

/-- `*|*#i:hover::before` -/
def hoveredBefore : Compound :=
  [.universal (some .any), .idName "i", .pseudo (.written "hover" false none none),
    .pseudo (.written "before" true none none)]

/-- `a.x:hover` with `*|*#i:hover::before`. -/
theorem unify_tidy_hovered :
    Compound.IsTidy hoveredLink ∧ Compound.IsTidy hoveredBefore ∧
    ∃ c, unifyConditions hoveredLink hoveredBefore = .ok (some c) ∧ Compound.IsTidy c ∧
      c.contains (.idName "i") = true ∧ Compound.elementName? c = some (.type ⟨"a", none⟩) := by
  have tidy₁ : Compound.IsTidy hoveredLink := by decide +kernel
  have tidy₂ : Compound.IsTidy hoveredBefore := by decide +kernel
  obtain ⟨none_iff, merge⟩ := unify_tidy tidy₁ tidy₂ (.inl (List.cons_ne_nil _ _))
  have free : ¬ ∃ s ∈ hoveredLink, ∃ t ∈ hoveredBefore, s.Clash t := fun clash => by
    have merged : (unifyConditions hoveredLink hoveredBefore).toOption.join.isSome = true := by
      decide +kernel
    rw [none_iff.2 clash] at merged
    cases merged
  obtain ⟨c, merged, tidy, all, name⟩ := merge free
  have wanted : unifyNames (Compound.elementName? hoveredLink) (Compound.elementName? hoveredBefore)
      = some (.type ⟨"a", none⟩) := rfl
  rw [wanted] at name
  refine ⟨tidy₁, tidy₂, c, merged, tidy, (all _ rfl).2 (.inr (by decide +kernel)), ?_⟩
  exact name.resolve_right fun dropped => Bool.false_ne_true dropped.2

end TwoCompounds

end SelectorAlgebra
