import Mathlib
import SelectorAlgebra.Proofs.NestedOrder
import SelectorAlgebra.Proofs.SecretExtensions

/-!
# Proofs/ResolvedParents — every `&` gives way, in all combinations

* `resolveParents_members` — which members a rule resolves to.  A choice with `&` gives every way to
  pick a stand-in for each of its items, put together in order (`picks`, `Complex.joined`); for a
  compound that begins with `&` these are the parents with the rest of the compound joined to them,
  for any other item it is the item with its arguments resolved (`StandsIn`).
* `resolveParents_expands` — how many that are, and that no `&` is left at any depth, under a parent
  that names none itself.

Resolution is defined for a number of levels of arguments.  That number is always enough, so it
calls itself on the arguments of a list (`resolveParents_eq`), and each level may take what it does
there as known.  A choice is resolved in two parts: what replaces its items, which may fail, and the
rows that are built from that, which may not (`foldlM_continueWith`).
-/

namespace SelectorAlgebra

variable {resolve resolve' : SelectorList → Except SelectorError SelectorList}
  {parent : SelectorList}

/-! ## Compounds by their `&` -/

/-- Whether the compound begins with `&`, with or without a suffix. -/
def Compound.beginsWithParent (d : Compound) : Bool := d.head?.any Simple.isParent

/-- A compound is `&` alone, or `&` with something joined to it, or does not begin with `&`. -/
theorem Compound.parent_cases (d : Compound) : d = [.parent none] ∨
    (∃ suffix conditions, d = .parent suffix :: conditions ∧ (suffix ≠ none ∨ conditions ≠ [])) ∨
      d.beginsWithParent = false := by
  rcases d with _ | ⟨s, conditions⟩
  · exact .inr (.inr rfl)
  cases s with
  | parent suffix =>
    by_cases alone : suffix = none ∧ conditions = []
    · obtain ⟨rfl, rfl⟩ := alone
      exact .inl rfl
    · exact .inr (.inl ⟨suffix, conditions, rfl, not_and_or.1 alone⟩)
  | _ => exact .inr (.inr rfl)

/-- A compound with `&` and more is joined to each parent. -/
theorem resolveCompound_joined {suffix : Option String} {conditions : List Simple}
    (joined : suffix ≠ none ∨ conditions ≠ []) :
    resolveCompound resolve parent (.parent suffix :: conditions) = (do
      let resolved ← conditions.mapM (Simple.resolveArgument resolve)
      return some (← parent.mapM (joinToParent suffix resolved))) := by
  have first : (.parent suffix :: conditions : Compound).mapM (Simple.resolveArgument resolve)
      = (do return .parent suffix :: (← conditions.mapM (Simple.resolveArgument resolve))) :=
    List.mapM_cons ..
  rw [resolveCompound, first]
  rcases conditions.mapM (Simple.resolveArgument resolve) with e | resolved
  · rfl
  rcases suffix with _ | suffix
  · obtain ⟨s, conditions, rfl⟩ := List.exists_cons_of_ne_nil (joined.resolve_left fun h => h rfl)
    rfl
  · rcases conditions with _ | ⟨s, conditions⟩ <;> rfl

/-- A compound without `&` at its start keeps its place; only arguments are resolved. -/
theorem resolveCompound_other {d : Compound} (other : d.beginsWithParent = false) :
    resolveCompound resolve parent d = (do
      let resolved ← d.mapM (Simple.resolveArgument resolve)
      return if d.any Simple.argumentContainsParent then some [.ofCompound resolved]
        else none) := by
  rw [resolveCompound]
  congr 1
  funext resolved
  split
  · cases other
  · cases other
  · split <;> rfl

/-! ## Resolution calls itself on arguments -/

/-- The two resolve the arguments inside a condition in the same way. -/
def AgreeInside (resolve resolve' : SelectorList → Except SelectorError SelectorList) (s : Simple) :
    Prop :=
  ∀ argument, s.argument? = some argument → resolve argument = resolve' argument

theorem Simple.resolveArgument_congr {s : Simple} (same : AgreeInside resolve resolve' s) :
    s.resolveArgument resolve = s.resolveArgument resolve' := by
  cases s with
  | pseudo p =>
    cases hp : p.selector with
    | none => simp only [Simple.resolveArgument, hp]
    | some argument => simp only [Simple.resolveArgument, hp, same argument hp]
  | _ => rfl

theorem resolveCompound_congr {d : Compound} (same : ∀ s ∈ d, AgreeInside resolve resolve' s) :
    resolveCompound resolve parent d = resolveCompound resolve' parent d := by
  rw [resolveCompound, resolveCompound,
    mapM_congr fun s hs => Simple.resolveArgument_congr (same s hs)]

/-- **What may fail and what is built**: the replacements of the items are found first, and the rows
go on with them one by one. -/
theorem foldlM_continueWith (replace : Item → Except SelectorError (Option (List Complex)))
    (items : List Item) (rows : List Complex) :
    items.foldlM (fun rows item => do return continueWith rows item (← replace item)) rows = (do
      let found ← items.mapM replace
      return (items.zip found).foldl (fun rows part => continueWith rows part.1 part.2) rows) := by
  induction items generalizing rows with
  | nil => rw [List.mapM_nil]; rfl
  | cons item items ih =>
    rw [List.foldlM_cons, List.mapM_cons]
    rcases replace item with e | part
    · rfl
    · refine (ih (continueWith rows item part)).trans ?_
      rcases items.mapM replace with e | found <;> rfl

/-- A choice with `&` is resolved item by item, and the items are joined in all ways. -/
theorem resolveComplex_of_containsParent {implicit : Bool} {c : Complex}
    (h : c.containsParent = true) :
    resolveComplex resolve parent implicit c = (do
      let found ← c.items.mapM (resolveItem resolve parent)
      return (c.items.zip found).foldl (fun rows part => continueWith rows part.1 part.2)
        [⟨[], false⟩]) := by
  rw [resolveComplex, if_pos h, foldlM_continueWith]

theorem resolveComplex_congr {implicit : Bool} {c : Complex}
    (same : AllCompounds (∀ s ∈ ·, AgreeInside resolve resolve' s) c.items) :
    resolveComplex resolve parent implicit c = resolveComplex resolve' parent implicit c := by
  by_cases named : c.containsParent = true
  · rw [resolveComplex_of_containsParent named, resolveComplex_of_containsParent named]
    congr 1
    refine mapM_congr fun item hitem => ?_
    cases item with
    | compound d => exact resolveCompound_congr (same d hitem)
    | combinator k => rfl
  · rw [resolveComplex, resolveComplex, if_neg named, if_neg named]

/-- Any two numbers of levels that are enough give the same answer. -/
theorem resolveWithin_congr {n m : ℕ} {implicit : Bool} {l : SelectorList}
    (hn : nestingOfList l < n) (hm : nestingOfList l < m) :
    resolveWithin n parent implicit l = resolveWithin m parent implicit l := by
  induction n generalizing m implicit l with
  | zero => exact absurd hn (Nat.not_lt_zero _)
  | succ n ih =>
    obtain ⟨m, rfl⟩ := Nat.exists_eq_succ_of_ne_zero (Nat.ne_zero_of_lt hm)
    rw [resolveWithin, resolveWithin]
    congr 1
    refine mapM_congr fun c hc => resolveComplex_congr fun d hd s hs argument harg => ?_
    have inside := nestingOfList_argument_lt hc hd hs harg
    exact ih (by omega) (by omega)

/-- **Resolution calls itself on arguments**, where choices without `&` stay. -/
theorem resolveParents_eq (l parent : SelectorList) (implicit : Bool) :
    l.resolveParents (some parent) implicit = (do
      let rows ← l.mapM (resolveComplex
        (fun argument => argument.resolveParents (some parent) false) parent implicit)
      return roundRobin rows) := by
  rw [SelectorList.resolveParents, resolveWithin]
  congr 1
  refine mapM_congr fun c hc => resolveComplex_congr fun d hd s hs argument harg => ?_
  exact resolveWithin_congr (nestingOfList_argument_lt hc hd hs harg) (Nat.lt_succ_self _)

/-! ## What stands in for an item -/

/-- What stands in for an item.  A compound that begins with `&` gives way to the parents, each with
the rest of the compound joined to it; any other item stays, with the arguments in it resolved. -/
inductive StandsIn (resolve : SelectorList → Except SelectorError SelectorList)
    (parent : SelectorList) :
    Item → List Complex → Prop where
  | combinator (k : Combinator) : StandsIn resolve parent (.combinator k) [⟨[.combinator k], false⟩]
  | parents : StandsIn resolve parent (.compound [.parent none]) parent
  | joined {suffix : Option String} {conditions resolved : List Simple} {joins : List Complex}
      (further : suffix ≠ none ∨ conditions ≠ [])
      (arguments : conditions.mapM (Simple.resolveArgument resolve) = .ok resolved)
      (each : List.Forall₂ (fun p c => joinToParent suffix resolved p = .ok c) parent joins) :
      StandsIn resolve parent (.compound (.parent suffix :: conditions)) joins
  | resolved {d d' : Compound} (other : d.beginsWithParent = false)
      (arguments : d.mapM (Simple.resolveArgument resolve) = .ok d') :
      StandsIn resolve parent (.compound d) [.ofCompound d']

/-- The selectors that stand in the place of an item: itself, if nothing replaces it. -/
def standIns (item : Item) (part : Option (List Complex)) : List Complex :=
  part.getD [⟨[item], false⟩]

/-- Conditions without `&` in their arguments stay. -/
theorem mapM_resolveArgument_of_not_named {d : Compound}
    (h : d.any Simple.argumentContainsParent = false) :
    d.mapM (Simple.resolveArgument resolve) = .ok d := by
  rw [List.any_eq_false] at h
  have stays : d.mapM (Simple.resolveArgument resolve) = .ok (d.map id) := by
    refine mapM_ok fun s hs => ?_
    rcases s.resolveArgument_cases resolve with ⟨-, eq⟩ | ⟨p, l, rfl, selector, named, -⟩
    · exact eq
    · exact absurd (by simpa [Simple.argumentContainsParent, Simple.argument?, selector]) (h _ hs)
  rw [stays, List.map_id]

/-- What an item resolves to stands in for it. -/
theorem standsIn_of_resolveItem {item : Item} {part : Option (List Complex)}
    (h : resolveItem resolve parent item = .ok part) :
    StandsIn resolve parent item (standIns item part) := by
  cases item with
  | combinator k =>
    obtain rfl := Except.ok.inj h
    exact .combinator k
  | compound d =>
    obtain rfl | ⟨suffix, conditions, rfl, further⟩ | other := Compound.parent_cases d
    · obtain rfl := Except.ok.inj h
      exact .parents
    · rw [resolveItem, resolveCompound_joined further] at h
      obtain ⟨resolved, hresolved, h⟩ := exists_of_bind_ok h
      obtain ⟨joins, hjoins, h⟩ := exists_of_bind_ok h
      obtain rfl := Except.ok.inj h
      exact .joined further hresolved (forall₂_of_mapM_ok hjoins)
    · rw [resolveItem, resolveCompound_other other] at h
      obtain ⟨resolved, hresolved, h⟩ := exists_of_bind_ok h
      obtain rfl := Except.ok.inj h
      split
      · exact .resolved other hresolved
      · rename_i named
        exact .resolved other (mapM_resolveArgument_of_not_named (Bool.eq_false_iff.2 named))

/-! ## Which members a choice resolves to -/

/-- Every way to pick a member of each list, in order.  Earlier lists vary slowest. -/
def picks {α : Type} : List (List α) → List (List α)
  | [] => [[]]
  | list :: lists => list.flatMap fun a => (picks lists).map (a :: ·)

/-- What is picked is a member of each list. -/
theorem mem_picks {α : Type} {lists : List (List α)} {picked : List α} :
    picked ∈ picks lists ↔ List.Forall₂ (· ∈ ·) picked lists := by
  induction lists generalizing picked with
  | nil => simp [picks]
  | cons list lists ih =>
    simp only [picks, List.mem_flatMap, List.mem_map, ih, List.forall₂_cons_right_iff]
    constructor
    · rintro ⟨a, ha, rest, hrest, rfl⟩
      exact ⟨a, rest, ha, hrest, rfl⟩
    · rintro ⟨a, rest, ha, hrest, rfl⟩
      exact ⟨a, ha, rest, hrest, rfl⟩

/-- There are as many ways to pick as the product of the lengths. -/
theorem length_picks {α : Type} (lists : List (List α)) :
    (picks lists).length = (lists.map List.length).prod := by
  induction lists with
  | nil => rfl
  | cons list lists ih => simp [picks, List.length_flatMap, ih]

/-- Selectors put one behind the other. -/
def Complex.joined (parts : List Complex) : Complex :=
  ⟨parts.flatMap Complex.items, parts.any Complex.lineBreak⟩

/-- Going on with an item is one more pick. -/
theorem continueWith_eq (rows : List Complex) (item : Item) (part : Option (List Complex)) :
    continueWith rows item part = rows.flatMap fun row => (standIns item part).map fun c =>
      ⟨row.items ++ c.items, row.lineBreak || c.lineBreak⟩ := by
  cases part with
  | none => simp [continueWith, standIns, List.map_eq_flatMap]
  | some replacements => rfl

/-- **The rows go on with every way to pick a stand-in for each item.** -/
theorem foldl_continueWith (parts : List (Item × Option (List Complex))) (rows : List Complex) :
    parts.foldl (fun rows part => continueWith rows part.1 part.2) rows = rows.flatMap fun row =>
      (picks (parts.map fun part => standIns part.1 part.2)).map fun picked =>
        Complex.joined (row :: picked) := by
  induction parts generalizing rows with
  | nil =>
    have alone : ∀ row : Complex, Complex.joined [row] = row := by
      rintro ⟨items, lineBreak⟩
      simp [Complex.joined]
    simp [picks, alone]
  | cons part parts ih =>
    have step : ∀ (row c : Complex) (picked : List Complex),
        Complex.joined (⟨row.items ++ c.items, row.lineBreak || c.lineBreak⟩ :: picked)
          = Complex.joined (row :: c :: picked) := fun row c picked => by
      simp [Complex.joined, Bool.or_assoc]
    rw [List.foldl_cons, ih, continueWith_eq]
    simp only [List.map_cons, picks, List.flatMap_assoc, List.flatMap_map, List.map_flatMap,
      List.map_map, Function.comp_def, step]

theorem forall₂_standsIn {items : List Item} {found : List (Option (List Complex))}
    (h : List.Forall₂ (fun item part => resolveItem resolve parent item = .ok part) items found) :
    List.Forall₂ (StandsIn resolve parent) items
      ((items.zip found).map fun part => standIns part.1 part.2) := by
  induction h with
  | nil => exact .nil
  | cons hpart _ ih => exact .cons (standsIn_of_resolveItem hpart) ih

/-- **Which members a choice with `&` resolves to**: every way to pick a stand-in for each item, in
order, put together. -/
theorem resolveComplex_members {implicit : Bool} {c : Complex} {rows : List Complex}
    (named : c.containsParent = true) (h : resolveComplex resolve parent implicit c = .ok rows) :
    ∃ stands, List.Forall₂ (StandsIn resolve parent) c.items stands ∧
      rows = (picks stands).map Complex.joined := by
  rw [resolveComplex_of_containsParent named] at h
  obtain ⟨found, hfound, h⟩ := exists_of_bind_ok h
  obtain rfl := Except.ok.inj h
  refine ⟨_, forall₂_standsIn (forall₂_of_mapM_ok hfound), ?_⟩
  rw [foldl_continueWith, List.flatMap_singleton]
  refine List.map_congr_left fun picked _ => ?_
  simp [Complex.joined]

/-- What a choice of a nested rule resolves to. -/
inductive ResolvesTo (parent : SelectorList) (implicit : Bool) : Complex → List Complex → Prop where
  | named {c : Complex} {stands : List (List Complex)} (named : c.containsParent = true)
      (each : List.Forall₂
        (StandsIn (fun argument => argument.resolveParents (some parent) false) parent)
        c.items stands) : ResolvesTo parent implicit c ((picks stands).map Complex.joined)
  | nested {c : Complex} (free : c.containsParent = false) (under : implicit = true) :
      ResolvesTo parent implicit c (parent.map fun p => Complex.joined [p, c])
  | kept {c : Complex} (free : c.containsParent = false) (alone : implicit = false) :
      ResolvesTo parent implicit c [c]

/-- **Which members a rule resolves to**, choice by choice: they are taken in turns. -/
theorem resolveParents_members {l r : SelectorList} {implicit : Bool}
    (h : l.resolveParents (some parent) implicit = .ok r) :
    ∃ rows, List.Forall₂ (ResolvesTo parent implicit) l rows ∧ r = roundRobin rows := by
  rw [resolveParents_eq] at h
  obtain ⟨rows, hrows, h⟩ := exists_of_bind_ok h
  refine ⟨rows, (forall₂_of_mapM_ok hrows).imp fun c choices hc => ?_, (Except.ok.inj h).symm⟩
  by_cases named : c.containsParent = true
  · obtain ⟨stands, each, rfl⟩ := resolveComplex_members named hc
    exact .named named each
  · rw [resolveComplex, if_neg named] at hc
    cases implicit with
    | true =>
      obtain rfl := Except.ok.inj hc
      have order : ∀ p : Complex, (⟨p.items ++ c.items, c.lineBreak || p.lineBreak⟩ : Complex)
          = Complex.joined [p, c] := fun p => by simp [Complex.joined, Bool.or_comm]
      simp only [order]
      exact .nested (Bool.eq_false_iff.2 named) rfl
    | false =>
      obtain rfl := Except.ok.inj hc
      exact .kept (Bool.eq_false_iff.2 named) rfl

/-! ## How many there are -/

/-- Whether a compound stands here that begins with `&`. -/
def Item.beginsWithParent (item : Item) : Bool := item.compound?.any Compound.beginsWithParent

theorem countP_beginsWithParent (c : Complex) :
    c.items.countP Item.beginsWithParent = c.compounds.countP Compound.beginsWithParent := by
  rw [Complex.compounds, List.countP_filterMap]
  refine List.countP_congr fun item _ => ?_
  cases item <;> simp [Item.beginsWithParent, Item.compound?]

/-- An item has one stand-in for each parent, or a single one. -/
theorem StandsIn.length_eq {item : Item} {stands : List Complex}
    (h : StandsIn resolve parent item stands) :
    stands.length = if item.beginsWithParent then parent.length else 1 := by
  cases h with
  | combinator k => rfl
  | parents => rfl
  | joined _ _ each => exact each.length_eq.symm
  | @resolved d _ other _ =>
    have single : Item.beginsWithParent (.compound d) = false := other
    rw [single]
    rfl

/-- The product over a row is a power: one factor for each `&` at the start of a compound. -/
theorem prod_standIns (items : List Item) (n : ℕ) :
    (items.map fun item => if item.beginsWithParent then n else 1).prod
      = n ^ items.countP Item.beginsWithParent := by
  induction items with
  | nil => rfl
  | cons item items ih =>
    rw [List.map_cons, List.prod_cons, ih, List.countP_cons, pow_add, mul_comm]
    split <;> simp

/-- The number of resolutions of a choice. -/
def Complex.resolutions (c : Complex) (parents : ℕ) (implicit : Bool) : ℕ :=
  if c.containsParent then parents ^ c.compounds.countP Compound.beginsWithParent
  else if implicit then parents else 1

theorem length_picks_stands {items : List Item} {stands : List (List Complex)}
    (h : List.Forall₂ (StandsIn resolve parent) items stands) :
    (picks stands).length = parent.length ^ items.countP Item.beginsWithParent := by
  have lengths : List.Forall₂ (· = ·) (stands.map List.length)
      (items.map fun item => if item.beginsWithParent then parent.length else 1) := by
    rw [List.forall₂_map_left_iff, List.forall₂_map_right_iff]
    exact (h.imp fun _ _ => StandsIn.length_eq).flip
  rw [List.forall₂_eq_eq_eq] at lengths
  rw [length_picks, lengths, prod_standIns]

/-- The number of members of one choice. -/
theorem ResolvesTo.length_eq {implicit : Bool} {c : Complex} {rows : List Complex}
    (h : ResolvesTo parent implicit c rows) :
    rows.length = c.resolutions parent.length implicit := by
  cases h with
  | named named each =>
    rw [List.length_map, length_picks_stands each, Complex.resolutions, if_pos named,
      countP_beginsWithParent]
  | nested free under => rw [List.length_map, Complex.resolutions, free, under]; rfl
  | kept free alone => rw [Complex.resolutions, free, alone]; rfl

/-- The number of members of a whole list. -/
theorem length_resolveParents {l r : SelectorList} {implicit : Bool}
    (h : l.resolveParents (some parent) implicit = .ok r) :
    r.length = (l.map (·.resolutions parent.length implicit)).sum := by
  obtain ⟨rows, hrows, rfl⟩ := resolveParents_members h
  have each : List.Forall₂ (· = ·) (rows.map List.length)
      (l.map (·.resolutions parent.length implicit)) := by
    rw [List.forall₂_map_left_iff, List.forall₂_map_right_iff]
    exact (hrows.imp fun _ _ => ResolvesTo.length_eq).flip
  rw [List.forall₂_eq_eq_eq] at each
  rw [(roundRobin_perm rows).length_eq, List.length_flatten, each]

/-! ## No `&` is left -/

/-- The executable test for `&`, as a property at every depth. -/
theorem Complex.containsParent_eq_false_iff {c : Complex} :
    c.containsParent = false ↔ c.IsClearOf Simple.isParent := by
  simp [containsParent, IsClearOf]

theorem SelectorList.isParentFree_iff_isClearOf {l : SelectorList} :
    l.IsParentFree ↔ ∀ c ∈ l, c.IsClearOf Simple.isParent := by
  simp only [isParentFree_iff_forall, Complex.containsParent_eq_false_iff]

theorem Simple.isClearOf_isParent_iff {s : Simple} : s.IsClearOf Simple.isParent ↔
    s.isParent = false ∧ ∀ argument, s.argument? = some argument →
      SelectorList.IsParentFree argument := by
  simp only [SelectorList.isParentFree_iff, SelectorList.containsParent, List.any_eq_false,
    IsClearOf, mem_simples, Bool.not_eq_true]
  constructor
  · exact fun h => ⟨h s (.inl rfl), fun argument harg x hx => h x (.inr ⟨argument, harg, hx⟩)⟩
  · rintro ⟨own, inside⟩ x (rfl | ⟨argument, harg, hx⟩)
    · exact own
    · exact inside argument harg x hx

/-- The conditions of a compound are free of `&`, at any depth. -/
def Compound.IsParentFree (d : Compound) : Prop := ∀ s ∈ d, s.IsClearOf Simple.isParent

/-- Whatever an argument of the condition is resolved to is free of `&`. -/
def ResolvesFree (resolve : SelectorList → Except SelectorError SelectorList) (s : Simple) : Prop :=
  ∀ argument r, s.argument? = some argument → resolve argument = .ok r → r.IsParentFree

/-- A condition that is not `&` has none left once its argument is resolved. -/
theorem Simple.isClearOf_of_resolveArgument {s s' : Simple} (inside : ResolvesFree resolve s)
    (own : s.isParent = false) (h : s.resolveArgument resolve = .ok s') :
    s'.IsClearOf Simple.isParent := by
  rcases s.resolveArgument_cases resolve with ⟨free, eq⟩ | ⟨p, l, rfl, selector, -, eq⟩
  · obtain rfl : s = s' := Except.ok.inj (eq.symm.trans h)
    refine Simple.isClearOf_isParent_iff.2 ⟨own, fun argument harg => ?_⟩
    rw [Simple.argumentContainsParent, harg] at free
    exact SelectorList.isParentFree_iff.2 free
  · rw [eq] at h
    obtain ⟨r, hr, h⟩ := exists_of_bind_ok h
    obtain rfl := Except.ok.inj h
    refine Simple.isClearOf_isParent_iff.2 ⟨rfl, fun argument harg => ?_⟩
    obtain rfl : r = argument := Option.some.inj harg
    exact inside l r selector hr

theorem Compound.isParentFree_of_mapM {d resolved : Compound}
    (inside : ∀ s ∈ d, ResolvesFree resolve s) (own : ∀ s ∈ d, s.isParent = false)
    (h : d.mapM (Simple.resolveArgument resolve) = .ok resolved) :
    Compound.IsParentFree resolved := by
  intro s' hs'
  obtain ⟨s, hs, eq⟩ := exists_mem_of_forall₂ (forall₂_of_mapM_ok h).flip hs'
  exact Simple.isClearOf_of_resolveArgument (inside s hs) (own s hs) eq

/-- Joining conditions without `&` to a parent without `&` gives none. -/
theorem isParentFree_of_joinToParent {suffix : Option String} {conditions : Compound}
    {c c' : Complex} (hc : AllCompounds Compound.IsParentFree c.items)
    (hconditions : Compound.IsParentFree conditions)
    (h : joinToParent suffix conditions c = .ok c') :
    AllCompounds Compound.IsParentFree c'.items := by
  obtain ⟨d, s, last, hd, hs, hlast, rfl⟩ := exists_of_joinToParent h
  have own := hc d (List.mem_of_getLast? hd)
  have plain : ∀ s : Simple, s.isParent = false → s.argument? = none →
      s.IsClearOf Simple.isParent := by
    intro s notParent noArgument
    refine Simple.isClearOf_isParent_iff.2 ⟨notParent, fun argument harg => ?_⟩
    cases noArgument.symm.trans harg
  refine allCompounds_append.2
    ⟨AllCompounds.of_subset hc (List.dropLast_subset _), allCompounds_compound ?_⟩
  refine List.forall_mem_append.2 ⟨fun s hs => own s (List.dropLast_subset _ hs),
    List.forall_mem_cons.2 ⟨?_, hconditions⟩⟩
  exact of_withSuffix (own s (List.mem_of_getLast? hs)) plain hlast

/-- **What stands in for an item is free of `&`**, if `&` stands at most first in it. -/
theorem StandsIn.isParentFree {item : Item} {stands : List Complex}
    (h : StandsIn resolve parent item stands) (hp : parent.IsParentFree)
    (inside : ∀ d, item = .compound d → ∀ s ∈ d, ResolvesFree resolve s)
    (leading : ∀ d, item = .compound d → ∀ s ∈ d.tail, s.isParent = false) :
    ∀ c ∈ stands, AllCompounds Compound.IsParentFree c.items := by
  have parents : ∀ p ∈ parent, AllCompounds Compound.IsParentFree p.items := fun p hmem =>
    Complex.isClearOf_iff.1 (SelectorList.isParentFree_iff_isClearOf.1 hp p hmem)
  cases h with
  | combinator k => exact List.forall_mem_singleton.2 (allCompounds_combinators [k])
  | parents => exact parents
  | @joined suffix conditions resolved joins _ arguments each =>
    intro c hc
    obtain ⟨p, hmem, eq⟩ := exists_mem_of_forall₂ each.flip hc
    exact isParentFree_of_joinToParent (parents p hmem) (Compound.isParentFree_of_mapM
      (fun s hs => inside _ rfl s (List.mem_cons_of_mem _ hs)) (leading _ rfl) arguments) eq
  | @resolved d d' other arguments =>
    have own : ∀ s ∈ d, s.isParent = false := by
      rcases d with _ | ⟨s, d⟩
      · exact List.forall_mem_nil _
      · exact List.forall_mem_cons.2 ⟨other, leading _ rfl⟩
    exact List.forall_mem_singleton.2
      (allCompounds_compound (Compound.isParentFree_of_mapM (inside d rfl) own arguments))

/-- What is put together from parts is made of their compounds. -/
theorem allCompounds_joined {P : Compound → Prop} {parts : List Complex}
    (h : ∀ c ∈ parts, AllCompounds P c.items) : AllCompounds P (Complex.joined parts).items := by
  intro d hd
  obtain ⟨c, hc, hd⟩ := List.mem_flatMap.1 hd
  exact h c hc d hd

/-- The members of one choice, when `&` stands only first in its compounds. -/
theorem ResolvesTo.isParentFree {implicit : Bool} {c : Complex} {rows : List Complex}
    (h : ResolvesTo parent implicit c rows) (hp : parent.IsParentFree)
    (inside : AllCompounds
      (∀ s ∈ ·, ResolvesFree (fun argument => argument.resolveParents (some parent) false) s)
      c.items)
    (leading : AllCompounds (fun d => ∀ s ∈ d.tail, s.isParent = false) c.items) :
    ∀ row ∈ rows, AllCompounds Compound.IsParentFree row.items := by
  have own : c.containsParent = false → AllCompounds Compound.IsParentFree c.items := fun free =>
    Complex.isClearOf_iff.1 (Complex.containsParent_eq_false_iff.1 free)
  cases h with
  | @named stands _ each =>
    refine List.forall_mem_map.2 fun picked hpicked => allCompounds_joined fun part hpart => ?_
    obtain ⟨cs, hcs, hpart⟩ := exists_mem_of_forall₂ (mem_picks.1 hpicked) hpart
    have members := (List.forall₂_and_left c.items stands).2 ⟨fun _ => id, each⟩
    obtain ⟨item, -, hitem, stand⟩ := exists_mem_of_forall₂ members.flip hcs
    refine stand.isParentFree hp ?_ ?_ part hpart
    · rintro d rfl
      exact inside d hitem
    · rintro d rfl
      exact leading d hitem
  | nested free _ =>
    refine List.forall_mem_map.2 fun p hmem => allCompounds_joined ?_
    refine List.forall_mem_cons.2 ⟨?_, List.forall_mem_singleton.2 (own free)⟩
    exact Complex.isClearOf_iff.1 (SelectorList.isParentFree_iff_isClearOf.1 hp p hmem)
  | kept free _ => exact List.forall_mem_singleton.2 (own free)

/-- **No `&` is left at any depth**, if each stands first in its compound and the parent has
none. -/
theorem isParentFree_of_resolveParents {l r : SelectorList} {implicit : Bool}
    (hp : parent.IsParentFree) (leading : ∀ d ∈ compoundsOfList l, ∀ s ∈ d.tail, s.isParent = false)
    (h : l.resolveParents (some parent) implicit = .ok r) : r.IsParentFree := by
  obtain ⟨rows, hrows, rfl⟩ := resolveParents_members h
  refine SelectorList.isParentFree_iff_isClearOf.2 fun c' hc' => Complex.isClearOf_iff.2 ?_
  obtain ⟨row, hrow, hc'⟩ := mem_roundRobin.1 hc'
  obtain ⟨c, hc, resolved⟩ := exists_mem_of_forall₂ hrows.flip hrow
  refine resolved.isParentFree hp (fun d hd s hs argument r harg hr => ?_) (fun d hd => ?_) c' hc'
  · have deeper := nestingOfList_argument_lt hc hd hs harg
    refine isParentFree_of_resolveParents hp (fun e he => leading e ?_) hr
    rw [← Simple.innerCompounds_eq harg] at he
    exact mem_compoundsOfList.2 ⟨c, hc, mem_compoundsOfItems.2 ⟨d, hd, .inr ⟨s, hs, he⟩⟩⟩
  · exact leading d (mem_compoundsOfList.2 ⟨c, hc, mem_compoundsOfItems.2 ⟨d, hd, .inl rfl⟩⟩)
termination_by nestingOfList l

/-- **Nesting removes every `&`, and gives all combinations.**  Let `&` stand only first in
compounds, at any depth, and let the parent have none.  A choice with `&` gives one resolution for
each way to pick a parent for each of its compounds that begin with it, and a choice without gives
one for each parent, or stays. -/
theorem resolveParents_expands {l parent r : SelectorList} {implicit : Bool}
    (leading : ∀ d ∈ compoundsOfList l, ∀ s ∈ d.tail, s.isParent = false)
    (free : parent.IsParentFree) (h : l.resolveParents (some parent) implicit = .ok r) :
    r.IsParentFree ∧ r.length = (l.map fun c =>
      if c.containsParent then parent.length ^ c.compounds.countP Compound.beginsWithParent
      else if implicit then parent.length else 1).sum :=
  ⟨isParentFree_of_resolveParents free leading h, length_resolveParents h⟩

/-- The rule `& > &-b, .c :not(&.d:is(&)) &, .e` under `.x, .y ~ .z` has `2² + 2 + 2` choices. -/
theorem resolveParents_expands_nested :
    let x : Simple := .className "x"
    let z : Simple := .className "z"
    let itself : Simple := .parent none
    let around (name : String) (d : Compound) : Simple := .pseudo (.around name [.ofCompound d])
    let l : SelectorList :=
      [⟨[.compound [itself], .combinator .child, .compound [.parent (some "-b")]], false⟩,
        ⟨[.compound [.className "c"],
          .compound [around "not" [itself, .className "d", around "is" [itself]]],
          .compound [itself]], false⟩,
        .ofCompound [.className "e"]]
    let parent : SelectorList :=
      [.ofCompound [x],
        ⟨[.compound [.className "y"], .combinator .followingSibling, .compound [z]], true⟩]
    (∀ d ∈ compoundsOfList l, ∀ s ∈ d.tail, s.isParent = false) ∧ parent.IsParentFree ∧
      ∃ r, l.resolveParents (some parent) true = .ok r ∧ r.IsParentFree ∧ r.length = 8 := by
  intro x z itself around l parent
  have leading : ∀ d ∈ compoundsOfList l, ∀ s ∈ d.tail, s.isParent = false := by decide +kernel
  have free : parent.IsParentFree := SelectorList.isParentFree_iff.2 (by decide +kernel)
  have run : ∃ r, l.resolveParents (some parent) true = .ok r := ⟨_, by with_unfolding_all rfl⟩
  obtain ⟨r, hr⟩ := run
  obtain ⟨removed, count⟩ := resolveParents_expands leading free hr
  exact ⟨leading, free, r, hr, removed, count.trans (by decide +kernel)⟩

end SelectorAlgebra
