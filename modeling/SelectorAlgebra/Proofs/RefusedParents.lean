import Mathlib
import SelectorAlgebra.Proofs.ResolvedParents

/-!
# Proofs/RefusedParents — when a nested rule is refused

* `resolveParents_refused_iff` — outside every rule, exactly the lists with `&` are refused.
  Under a parent, a list is refused exactly if `&` has something joined to it somewhere, at any
  depth, and one of the parents cannot take it: it ends in a combinator, or it ends in no name and
  a suffix is joined to it.

The reason is found where a compound is joined to a parent (`joinToParent_eq_error_iff`), and every
level above fails exactly if something inside it does (`FailsBy`).  A compound is reached whatever
stands around it: it names the parent, so no level above leaves it out.
-/

namespace SelectorAlgebra

variable {parent : SelectorList} {resolve : SelectorList → Except SelectorError SelectorList}

/-! ## Parents that cannot be joined to -/

/-- The condition does not end in a name. -/
inductive Simple.IsNameless : Simple → Prop where
  | universal (ns : Option Namespace) : IsNameless (.universal ns)
  | attr (condition : Attribute) : IsNameless (.attr condition)
  | parent (suffix : Option String) : IsNameless (.parent suffix)
  | pseudo {p : Pseudo} (argument : p.argument ≠ none ∨ p.selector ≠ none) : IsNameless (.pseudo p)

/-- A suffix is refused by a condition that has no name to put it on. -/
theorem Simple.withSuffix_eq_error_iff {s : Simple} {suffix : String} {e : SelectorError} :
    s.withSuffix suffix = .error e ↔ s.IsNameless ∧ e = .invalidSuffix s := by
  have nameless : ∀ {s : Simple}, s.IsNameless →
      ((Except.error (.invalidSuffix s) : Except _ Simple) = .error e ↔
        s.IsNameless ∧ e = .invalidSuffix s) :=
    fun h => ⟨fun eq => ⟨h, (Except.error.inj eq).symm⟩, fun eq => congrArg _ eq.2.symm⟩
  cases s with
  | universal ns => exact nameless (.universal ns)
  | attr condition => exact nameless (.attr condition)
  | parent suffix => exact nameless (.parent suffix)
  | pseudo p =>
    by_cases plain : p.argument = none ∧ p.selector = none
    · refine iff_of_false ?_ ?_
      · simp [Simple.withSuffix, plain]
      · rintro ⟨h, -⟩
        cases h with
        | pseudo argument => exact argument.elim (· plain.1) (· plain.2)
    · have refused : (Simple.pseudo p).withSuffix suffix = .error (.invalidSuffix (.pseudo p)) := by
        rw [Simple.withSuffix, if_neg]
        simpa using plain
      rw [refused]
      exact nameless (.pseudo (not_and_or.1 plain))
  | _ =>
    refine iff_of_false ?_ ?_
    · rintro ⟨⟩
    · rintro ⟨⟨⟩, -⟩

/-- A parent that nothing can be joined to, or no suffix, with the error that names it. -/
inductive JoinRefused (suffix : Option String) (p : Complex) : SelectorError → Prop where
  /-- The parent ends in a combinator. -/
  | combinator {k : Combinator} (last : p.items.getLast? = some (.combinator k)) :
    JoinRefused suffix p (.incompatibleParent p)
  /-- The parent does not end in a name that takes the suffix. -/
  | nameless {d : Compound} {s : Simple} (hsuffix : suffix ≠ none)
    (hd : p.items.getLast? = some (.compound d)) (hs : d.getLast? = some s)
    (nameless : s.IsNameless) :
    JoinRefused suffix p (.invalidSuffix s)

theorem map_eq_error_iff {ε α β : Type} {x : Except ε α} {f : α → β} {e : ε} :
    x.map f = .error e ↔ x = .error e := by
  cases x <;> simp [Except.map]

/-- Joining to a whole parent fails for exactly the reasons in `JoinRefused`. -/
theorem joinToParent_eq_error_iff {suffix : Option String} {conditions : List Simple} {p : Complex}
    (whole : p.isWhole = true) {e : SelectorError} :
    joinToParent suffix conditions p = .error e ↔ JoinRefused suffix p e := by
  obtain ⟨filled, compounds⟩ := Complex.isWhole_iff.1 whole
  obtain ⟨item, hitem⟩ := Option.ne_none_iff_exists'.1 (mt List.getLast?_eq_none_iff.1 filled)
  cases item with
  | combinator k =>
    rw [joinToParent_incompatible fun d s hd => by rw [hitem] at hd; cases hd]
    constructor
    · rintro ⟨⟩
      exact .combinator hitem
    · intro h
      cases h with
      | combinator => rfl
      | nameless hsuffix hd => rw [hitem] at hd; cases hd
  | compound d =>
    have nonempty := (Compound.isWhole_iff.1 (compounds d (List.mem_of_getLast? hitem))).1
    obtain ⟨s, hs⟩ := Option.ne_none_iff_exists'.1 (mt List.getLast?_eq_none_iff.1 nonempty)
    rw [joinToParent_eq hitem hs, map_eq_error_iff]
    cases suffix with
    | none =>
      refine iff_of_false ?_ fun h => ?_
      · rintro ⟨⟩
      · cases h with
        | combinator last => rw [hitem] at last; cases last
        | nameless hsuffix => exact hsuffix rfl
    | some suffix =>
      refine Simple.withSuffix_eq_error_iff.trans ⟨?_, fun h => ?_⟩
      · rintro ⟨nameless, rfl⟩
        exact .nameless (Option.some_ne_none suffix) hitem hs nameless
      · cases h with
        | combinator last => rw [hitem] at last; cases last
        | nameless _ hd hs' nameless =>
          obtain rfl : d = _ := Item.compound.inj (Option.some.inj (hitem.symm.trans hd))
          obtain rfl := Option.some.inj (hs.symm.trans hs')
          exact ⟨nameless, rfl⟩

/-- Something is joined to the `&` that the compound begins with, and a parent refuses it. -/
def Compound.Refused (parent : SelectorList) (d : Compound) (e : SelectorError) : Prop :=
  ∃ suffix conditions, d = .parent suffix :: conditions ∧ (suffix ≠ none ∨ conditions ≠ []) ∧
    ∃ p ∈ parent, JoinRefused suffix p e

/-- One of the compounds is refused. -/
def RefusedIn (parent : SelectorList) (compounds : List Compound) (e : SelectorError) : Prop :=
  ∃ d ∈ compounds, Compound.Refused parent d e

/-! ## A refused compound names the parent -/

theorem Simple.innerCompounds_of_none {s : Simple} (h : s.argument? = none) :
    s.innerCompounds = [] := by
  cases s with
  | pseudo p =>
    obtain ⟨name, argument, selector⟩ := p
    cases h
    rfl
  | _ => rfl

/-- A condition of a compound at any depth occurs in the list. -/
theorem occursIn_of_mem_compoundsOfList {l : SelectorList} {d : Compound} {s : Simple}
    (hd : d ∈ compoundsOfList l) (hs : s ∈ d) : OccursIn s l := by
  obtain ⟨c, hc, hd⟩ := mem_compoundsOfList.1 hd
  obtain ⟨outer, houter, rfl | ⟨t, ht, hd⟩⟩ := mem_compoundsOfItems.1 hd
  · exact .outside hc houter hs
  · cases harg : t.argument? with
    | none =>
      rw [Simple.innerCompounds_of_none harg] at hd
      cases hd
    | some argument =>
      have deeper := nestingOfList_argument_lt hc houter ht harg
      rw [Simple.innerCompounds_eq harg] at hd
      exact .inside hc houter ht harg (occursIn_of_mem_compoundsOfList hd hs)
termination_by nestingOfList l

/-- Only what names the parent is refused. -/
theorem containsParent_of_refusedIn {l : SelectorList} {e : SelectorError}
    (h : RefusedIn parent (compoundsOfList l) e) : l.containsParent = true := by
  obtain ⟨_, hd, suffix, conditions, rfl, -⟩ := h
  exact SelectorList.containsParent_iff.2
    ⟨suffix, occursIn_of_mem_compoundsOfList hd List.mem_cons_self⟩

/-! ## What fails, level by level -/

/-- Where an argument inside the condition is resolved, it fails exactly if a
compound in it is refused. -/
def FailsInside (parent : SelectorList) (resolve : SelectorList → Except SelectorError SelectorList)
    (s : Simple) : Prop :=
  ∀ argument, s.argument? = some argument →
    FailsBy (resolve argument) (RefusedIn parent (compoundsOfList argument))

/-- An argument fails for what is refused inside it. -/
theorem Simple.resolveArgument_failsBy {s : Simple} (inside : FailsInside parent resolve s) :
    FailsBy (s.resolveArgument resolve) (RefusedIn parent s.innerCompounds) := by
  rcases s.resolveArgument_cases resolve with ⟨free, eq⟩ | ⟨p, l, rfl, selector, -, eq⟩
  · rw [eq]
    refine .ok fun e refused => ?_
    cases harg : s.argument? with
    | none =>
      rw [Simple.innerCompounds_of_none harg] at refused
      simp [RefusedIn] at refused
    | some l =>
      rw [Simple.innerCompounds_eq harg] at refused
      rw [Simple.argumentContainsParent, harg] at free
      exact Bool.eq_false_iff.1 free (containsParent_of_refusedIn refused)
  · have harg : (Simple.pseudo p).argument? = some l := selector
    rw [eq, Simple.innerCompounds_eq harg]
    exact (inside l harg).map

theorem refusedIn_cons {d : Compound} {compounds : List Compound} {e : SelectorError} :
    RefusedIn parent (d :: compounds) e ↔ Compound.Refused parent d e ∨
      RefusedIn parent compounds e :=
  List.exists_mem_cons_iff ..

/-- Something is refused in the members exactly if it is in the whole. -/
theorem exists_refusedIn_iff {α : Type} {members : List α} {compoundsOf : α → List Compound}
    {compounds : List Compound} (same : ∀ d, d ∈ compounds ↔ ∃ x ∈ members, d ∈ compoundsOf x)
    (e : SelectorError) :
    (∃ x ∈ members, RefusedIn parent (compoundsOf x) e) ↔ RefusedIn parent compounds e := by
  constructor
  · rintro ⟨x, hx, d, hd, refused⟩
    exact ⟨d, (same d).2 ⟨x, hx, hd⟩, refused⟩
  · rintro ⟨d, hd, refused⟩
    obtain ⟨x, hx, hd⟩ := (same d).1 hd
    exact ⟨x, hx, d, hd, refused⟩

/-- The conditions of a compound fail for what is refused inside their arguments. -/
theorem mapM_resolveArgument_failsBy {d : Compound}
    (inside : ∀ s ∈ d, FailsInside parent resolve s) :
    FailsBy (d.mapM (Simple.resolveArgument resolve)) (RefusedIn parent (innerCompoundsOf d)) :=
  (FailsBy.mapM fun s hs => Simple.resolveArgument_failsBy (inside s hs)).congr
    (exists_refusedIn_iff fun _ => mem_innerCompoundsOf)

/-- **A compound fails exactly if a parent refuses it or something inside it fails.** -/
theorem resolveCompound_failsBy (whole : parent.isWhole = true) {d : Compound}
    (inside : ∀ s ∈ d, FailsInside parent resolve s) :
    FailsBy (resolveCompound resolve parent d) (RefusedIn parent (d :: innerCompoundsOf d)) := by
  obtain rfl | ⟨suffix, conditions, rfl, joined⟩ | other := Compound.parent_cases d
  · refine .ok fun e refused => ?_
    rcases refusedIn_cons.1 refused with ⟨_, _, ⟨⟩, alone, -⟩ | ⟨_, absent, -⟩
    · exact alone.elim (· rfl) (· rfl)
    · cases absent
  · rw [List.forall_mem_cons] at inside
    rw [resolveCompound_joined joined]
    have joins : ∀ resolved, FailsBy (parent.mapM (joinToParent suffix resolved)) fun e =>
        ∃ p ∈ parent, JoinRefused suffix p e := fun resolved =>
      .mapM fun p hp => .of_iff fun e =>
        joinToParent_eq_error_iff ((SelectorList.isWhole_iff.1 whole).2 p hp)
    refine ((mapM_resolveArgument_failsBy inside.2).bind fun resolved =>
      (joins resolved).map).congr fun e => ?_
    have own : Compound.Refused parent (.parent suffix :: conditions) e ↔
        ∃ p ∈ parent, JoinRefused suffix p e := by
      constructor
      · rintro ⟨_, _, ⟨⟩, -, refused⟩
        exact refused
      · exact fun refused => ⟨suffix, conditions, rfl, joined, refused⟩
    rw [refusedIn_cons, own, or_comm]
    rfl
  · rw [resolveCompound_other other]
    refine (mapM_resolveArgument_failsBy inside).map.congr fun e => ?_
    rw [refusedIn_cons, or_iff_right]
    rintro ⟨_, _, rfl, -⟩
    cases other

/-- **A choice fails exactly if a compound in it is refused**, at any depth. -/
theorem resolveComplex_failsBy (whole : parent.isWhole = true) {implicit : Bool} {c : Complex}
    (inside : AllCompounds (∀ s ∈ ·, FailsInside parent resolve s) c.items) :
    FailsBy (resolveComplex resolve parent implicit c)
      (RefusedIn parent (compoundsOfItems c.items)) := by
  by_cases named : c.containsParent = true
  · rw [resolveComplex_of_containsParent named]
    have items : ∀ item ∈ c.items, FailsBy (resolveItem resolve parent item)
        (RefusedIn parent (compoundsOfItems [item])) := by
      intro item hitem
      cases item with
      | combinator k => exact .ok fun e => by simp [RefusedIn, compoundsOfItems]
      | compound d =>
        simpa [compoundsOfItems, resolveItem] using resolveCompound_failsBy whole (inside d hitem)
    refine (FailsBy.mapM items).map.congr (exists_refusedIn_iff fun d => ?_)
    simp only [mem_compoundsOfItems, List.mem_singleton]
    constructor
    · rintro ⟨outer, houter, hd⟩
      exact ⟨_, houter, outer, rfl, hd⟩
    · rintro ⟨_, houter, outer, rfl, hd⟩
      exact ⟨outer, houter, hd⟩
  · have free : ∀ e, ¬ RefusedIn parent (compoundsOfItems c.items) e := by
      intro e refused
      have listed : RefusedIn parent (compoundsOfList [c]) e := by
        simpa [RefusedIn, mem_compoundsOfList] using refused
      have contains := containsParent_of_refusedIn listed
      rw [SelectorList.containsParent_eq_any, List.any_cons, List.any_nil,
        Bool.or_false] at contains
      exact named contains
    rw [resolveComplex, if_neg named]
    split
    · exact .ok free
    · exact .ok free

/-- **A list fails exactly if a compound in it is refused**, at any depth. -/
theorem resolveParents_failsBy (whole : parent.isWhole = true) (l : SelectorList)
    (implicit : Bool) :
    FailsBy (l.resolveParents (some parent) implicit) (RefusedIn parent (compoundsOfList l)) := by
  rw [resolveParents_eq]
  refine (FailsBy.mapM fun c hc =>
    resolveComplex_failsBy whole fun d hd s hs argument harg => ?_).map.congr
    (exists_refusedIn_iff fun _ => mem_compoundsOfList)
  have deeper := nestingOfList_argument_lt hc hd hs harg
  exact resolveParents_failsBy whole argument false
termination_by nestingOfList l

/-- The reasons, without the error they lead to. -/
theorem exists_joinRefused_iff {suffix : Option String} {p : Complex} :
    (∃ e, JoinRefused suffix p e) ↔
    (∃ k, p.items.getLast? = some (.combinator k)) ∨ suffix ≠ none ∧ ∃ d s,
      p.items.getLast? = some (.compound d) ∧ d.getLast? = some s ∧ s.IsNameless := by
  constructor
  · rintro ⟨e, h⟩
    cases h with
    | combinator last => exact .inl ⟨_, last⟩
    | nameless hsuffix hd hs nameless => exact .inr ⟨hsuffix, _, _, hd, hs, nameless⟩
  · rintro (⟨k, last⟩ | ⟨hsuffix, d, s, hd, hs, nameless⟩)
    · exact ⟨_, .combinator last⟩
    · exact ⟨_, .nameless hsuffix hd hs nameless⟩

/-- **A rule is refused exactly if it must be.**  Outside every rule that is if `&` occurs in it, at
any depth.  Under a parent it is if a compound, at any depth, begins with `&` and has a suffix or
further conditions joined to it, and one of the parents ends in a combinator, or in a condition
without a name where there is a suffix; the error names that parent or that condition. -/
theorem resolveParents_refused_iff (l : SelectorList) (implicit : Bool) :
    ((∃ e, l.resolveParents none implicit = .error e) ↔ ∃ suffix, OccursIn (.parent suffix) l) ∧
    (∀ e, l.resolveParents none implicit = .error e → e = .topLevelParent) ∧
    ∀ parent : SelectorList, parent.isWhole = true →
      ((∃ e, l.resolveParents (some parent) implicit = .error e) ↔ ∃ suffix conditions,
        .parent suffix :: conditions ∈ compoundsOfList l ∧ (suffix ≠ none ∨ conditions ≠ []) ∧
        ∃ p ∈ parent, (∃ k, p.items.getLast? = some (.combinator k)) ∨ suffix ≠ none ∧ ∃ d s,
          p.items.getLast? = some (.compound d) ∧ d.getLast? = some s ∧ s.IsNameless) ∧
      ∀ e, l.resolveParents (some parent) implicit = .error e →
        ∃ d ∈ compoundsOfList l, Compound.Refused parent d e := by
  have outside : l.resolveParents none implicit
      = if l.containsParent then .error .topLevelParent else .ok l := rfl
  rw [outside]
  refine ⟨?_, ?_, fun parent whole => ?_⟩
  · rw [← SelectorList.containsParent_iff]
    by_cases named : l.containsParent = true <;> simp [named]
  · intro e
    by_cases named : l.containsParent = true
    · rw [if_pos named]
      exact fun h => (Except.error.inj h).symm
    · rw [if_neg named]
      rintro ⟨⟩
  · have fails := resolveParents_failsBy whole l implicit
    refine ⟨?_, fails.given⟩
    simp only [← exists_joinRefused_iff]
    constructor
    · rintro ⟨e, h⟩
      obtain ⟨_, hd, suffix, conditions, rfl, joined, p, hp, refused⟩ := fails.given e h
      exact ⟨suffix, conditions, hd, joined, p, hp, e, refused⟩
    · rintro ⟨suffix, conditions, hd, joined, p, hp, e, refused⟩
      exact fails.forced e ⟨_, hd, suffix, conditions, rfl, joined, p, hp, refused⟩

/-- The rule `.a > :not(.b:is(&-c))` is refused under `.x, [y]` for its second parent, and the rule
`.a > :not(.b:is(&.c))` is not. -/
theorem resolveParents_refused_iff_suffix :
    let nested (d : Compound) : SelectorList :=
      [⟨[.compound [.className "a"], .combinator .child, .compound [.pseudo (.around "not"
        [.ofCompound [.className "b", .pseudo (.around "is" [.ofCompound d])]])]], false⟩]
    let y : Simple := .attr (.present ⟨"y", none⟩)
    let parent : SelectorList := [.ofCompound [.className "x"], .ofCompound [y]]
    parent.isWhole = true ∧
      (∃ e, (nested [.parent (some "-c")]).resolveParents (some parent) true = .error e) ∧
      ¬ ∃ e, (nested [.parent none, .className "c"]).resolveParents (some parent) true
        = .error e := by
  intro nested y parent
  have whole : parent.isWhole = true := by decide +kernel
  refine ⟨whole, ?_, ?_⟩
  · refine ((resolveParents_refused_iff _ true).2.2 parent whole).1.2
      ⟨some "-c", [], ?_, .inl (by simp), ?_⟩
    · simp [nested, compoundsOfList, compoundsOfItems, innerCompoundsOf, Simple.innerCompounds,
        Pseudo.around, Pseudo.written, Complex.ofCompound]
    · exact ⟨.ofCompound [y], by simp [parent], .inr ⟨by simp, [y], y, rfl, rfl, .attr _⟩⟩
  · rintro ⟨e, he⟩
    obtain ⟨r, hr⟩ : ∃ r,
        (nested [.parent none, .className "c"]).resolveParents (some parent) true = .ok r :=
      ⟨_, by with_unfolding_all rfl⟩
    rw [hr] at he
    cases he

end SelectorAlgebra
