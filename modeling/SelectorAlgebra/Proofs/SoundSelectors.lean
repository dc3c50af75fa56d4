import SelectorAlgebra.Extension.OneShot
import SelectorAlgebra.Proofs.ValidWeaving

/-!
# Proofs/SoundSelectors — valid selectors without `:root`

A condition is **sound** if no argument inside it is bogus and `:root` is nowhere in it.  Validity
is a matter of rows then:

* `areSound_iff` — the choices of a list are valid rows of sound conditions exactly if the list is
  not bogus and no compound in it, at any depth, requires `:root`;
* `isSound_of_mem_withExtended` — a sound pseudo selector whose argument is extended to a sound list
  is replaced by sound ones.
-/

namespace SelectorAlgebra

/-! ## Compounds at every depth -/

mutual

/-- The compounds in the argument of a condition, at every depth. -/
def Simple.innerCompounds : Simple → List Compound
  | .pseudo ⟨_, _, some l⟩ => compoundsOfList l
  | _ => []

/-- The compounds in the arguments of conditions, at every depth. -/
def innerCompoundsOf : List Simple → List Compound
  | [] => []
  | s :: rest => s.innerCompounds ++ innerCompoundsOf rest

/-- The compounds of a row, at every depth. -/
def compoundsOfItems : List Item → List Compound
  | [] => []
  | .compound c :: rest => c :: innerCompoundsOf c ++ compoundsOfItems rest
  | .combinator _ :: rest => compoundsOfItems rest

/-- The compounds of a list, at every depth. -/
def compoundsOfList : List Complex → List Compound
  | [] => []
  | ⟨items, _⟩ :: rest => compoundsOfItems items ++ compoundsOfList rest

end

theorem Simple.innerCompounds_eq {s : Simple} {l : SelectorList} (h : s.argument? = some l) :
    s.innerCompounds = compoundsOfList l := by
  cases s with
  | pseudo p =>
    obtain ⟨name, argument, selector⟩ := p
    cases h
    rfl
  | _ => cases h

theorem mem_innerCompoundsOf {d : Compound} {c : List Simple} :
    d ∈ innerCompoundsOf c ↔ ∃ s ∈ c, d ∈ s.innerCompounds := by
  induction c with
  | nil => simp [innerCompoundsOf]
  | cons s c ih => simp [innerCompoundsOf, ih]

/-- The compounds of a row at every depth: its own, and those inside arguments. -/
theorem mem_compoundsOfItems {d : Compound} {row : List Item} : d ∈ compoundsOfItems row ↔
    ∃ c, .compound c ∈ row ∧ (d = c ∨ ∃ s ∈ c, d ∈ s.innerCompounds) := by
  induction row with
  | nil => simp [compoundsOfItems]
  | cons item row ih =>
    cases item with
    | compound c =>
      simp [compoundsOfItems, mem_innerCompoundsOf, ih, or_and_right, exists_or, or_assoc]
    | combinator k => simp [compoundsOfItems, ih]

/-- The compounds of a list. -/
theorem mem_compoundsOfList {d : Compound} : ∀ {l : SelectorList},
    d ∈ compoundsOfList l ↔ ∃ c ∈ l, d ∈ compoundsOfItems c.items
  | [] => by simp [compoundsOfList]
  | ⟨items, _⟩ :: l => by simp [compoundsOfList, mem_compoundsOfList (l := l)]

/-! ## Sound conditions -/

/-- No argument of the condition is bogus, and neither it nor a condition in its argument is
`:root`. -/
structure Simple.IsSound (s : Simple) : Prop where
  argument : s.hasBogusArgument = false
  rootless : Compound.isRoot [s] = false
  inner : ∀ c ∈ s.innerCompounds, Compound.isRoot c = false

/-- How many combinators may begin the argument of a pseudo selector. -/
def leadWithin (name : String) : ℕ := if name == "has" then 1 else 0

/-- Every choice is valid behind up to `n` combinators, and all conditions are sound. -/
def AreSound (n : ℕ) (l : SelectorList) : Prop := ∀ c ∈ l, IsValidRow Simple.IsSound n c.items

/-- Unification and weaving keep sound conditions sound. -/
theorem isStable_isSound : IsStable Simple.IsSound where
  element s hs := by
    cases s with
    | universal | type => exact ⟨rfl, rfl, nofun⟩
    | _ => cases hs
  rootless p h := by simpa [Compound.isRoot] using h.rootless

theorem isRoot_eq_false_iff {c : Compound} :
    Compound.isRoot c = false ↔ ∀ s ∈ c, Compound.isRoot [s] = false := by
  simp [Compound.isRoot]

/-- The executable test for arguments, read through members. -/
theorem hasBogusArgumentItems_eq_false_iff :
    ∀ {row : List Item}, hasBogusArgumentItems row = false ↔ ∀ c, .compound c ∈ row →
      ∀ s ∈ c, s.hasBogusArgument = false := by
  have compound : ∀ {c : List Simple}, hasBogusArgumentCompound c = false ↔
      ∀ s ∈ c, s.hasBogusArgument = false := by
    intro c
    induction c with
    | nil => simp [hasBogusArgumentCompound]
    | cons s c ih => simp [hasBogusArgumentCompound, ih]
  intro row
  induction row with
  | nil => simp [hasBogusArgumentItems]
  | cons item row ih =>
    cases item with
    | compound c => simp [hasBogusArgumentItems, ih, compound]
    | combinator k => simp [hasBogusArgumentItems, ih]

/-- **A row is valid with valid arguments if no combinator is out of place and no argument is
bogus.** -/
theorem isValidRow_arguments_iff {n : ℕ} {row : List Item} :
    IsValidRow (·.hasBogusArgument = false) n row ↔
      (isMisplaced n row || hasBogusArgumentItems row) = false := by
  rw [Bool.or_eq_false_iff, isValidRow_iff, hasBogusArgumentItems_eq_false_iff]

/-- A list is bogus when one of its choices is misplaced or has a bogus argument. -/
theorem isBogusList_eq_any (n : ℕ) (l : SelectorList) :
    isBogusList n l = l.any fun c => isMisplaced n c.items || hasBogusArgumentItems c.items := by
  induction l with
  | nil => rfl
  | cons c l ih =>
    obtain ⟨items, lineBreak⟩ := c
    rw [isBogusList, ih, List.any_cons]

/-- **A list is sound if it is not bogus and nothing in it requires `:root`.** -/
theorem areSound_iff {n : ℕ} {l : SelectorList} : AreSound n l ↔
    isBogusList n l = false ∧ ∀ c ∈ compoundsOfList l, Compound.isRoot c = false := by
  rw [isBogusList_eq_any, List.any_eq_false]
  constructor
  · intro h
    refine ⟨fun c hc => ?_, fun d hd => ?_⟩
    · obtain ⟨placed, sound⟩ := isValidRow_iff.1 (h c hc)
      have arguments := hasBogusArgumentItems_eq_false_iff.2 fun e he s hs =>
        (sound e he s hs).argument
      rw [placed, arguments]
      exact Bool.false_ne_true
    · obtain ⟨c, hc, hd⟩ := mem_compoundsOfList.1 hd
      have sound := (isValidRow_iff.1 (h c hc)).2
      obtain ⟨e, he, rfl | ⟨s, hs, hd⟩⟩ := mem_compoundsOfItems.1 hd
      · exact isRoot_eq_false_iff.2 fun s hs => (sound d he s hs).rootless
      · exact (sound e he s hs).inner d hd
  · rintro ⟨valid, rootless⟩ c hc
    obtain ⟨placed, arguments⟩ := Bool.or_eq_false_iff.1 (Bool.eq_false_iff.2 (valid c hc))
    refine isValidRow_iff.2 ⟨placed, fun e he s hs => ?_⟩
    have within : ∀ d, (d = e ∨ ∃ s ∈ e, d ∈ s.innerCompounds) → Compound.isRoot d = false :=
      fun d hd => rootless d (mem_compoundsOfList.2 ⟨c, hc, mem_compoundsOfItems.2 ⟨e, he, hd⟩⟩)
    exact ⟨hasBogusArgumentItems_eq_false_iff.1 arguments e he s hs,
      isRoot_eq_false_iff.1 (within e (.inl rfl)) s hs, fun d hd => within d (.inr ⟨s, hs, hd⟩)⟩

/-- A pseudo is sound when it is not the root and its argument is sound, with one leading combinator
allowed in `:has`. -/
theorem Simple.isSound_pseudo {p : Pseudo} : (Simple.pseudo p).IsSound ↔
    p.isRoot = false ∧ ∀ l, p.selector = some l → AreSound (leadWithin p.name) l := by
  have root : Compound.isRoot [.pseudo p] = p.isRoot := by simp [Compound.isRoot]
  obtain ⟨name, argument, _ | l⟩ := p
  · refine ⟨fun h => ⟨root ▸ h.rootless, ?_⟩, fun h => ⟨rfl, root.trans h.1, List.forall_mem_nil _⟩⟩
    rintro _ ⟨⟩
  · constructor
    · intro h
      refine ⟨root ▸ h.rootless, ?_⟩
      rintro _ ⟨⟩
      exact areSound_iff.2 ⟨h.argument, h.inner⟩
    · rintro ⟨rootless, sound⟩
      obtain ⟨valid, inner⟩ := areSound_iff.1 (sound l rfl)
      exact ⟨valid, root.trans rootless, inner⟩

/-! ## Arguments of pseudo selectors -/

/-- Only `:has` allows a leading combinator. -/
theorem leadWithin_eq_zero {p : Pseudo} (h : p.kind ≠ .has) : leadWithin p.name = 0 := by
  unfold leadWithin
  split
  · rename_i eq
    refine absurd ?_ h
    rw [Pseudo.kind, p.normalizedName_eq, eq_of_beq eq]
    rfl
  · rfl

/-- The argument of a pseudo selector that is all there is in a sound choice. -/
theorem areSound_of_singleCompound {n : ℕ} {c : Complex} (h : IsValidRow Simple.IsSound n c.items)
    {p : Pseudo} (single : c.singleCompound? = some [.pseudo p]) {l : SelectorList}
    (hl : p.selector = some l) : AreSound (leadWithin p.name) l := by
  have items : c.items = [.compound [.pseudo p]] := Complex.singleCompound?_eq_some_iff.1 single
  have sound := (isValidRow_iff.1 h).2 [.pseudo p] (by simp [items]) _ (List.mem_singleton_self _)
  exact (Simple.isSound_pseudo.1 sound).2 l hl

/-- Flattening an argument takes a sound list out of a sound pseudo. -/
theorem areSound_flattenChoice {p : Pseudo} {c : Complex}
    (h : IsValidRow Simple.IsSound (leadWithin p.name) c.items) :
    AreSound (leadWithin p.name) (p.flattenChoice c) := by
  have itself : AreSound (leadWithin p.name) [c] := List.forall_mem_singleton.2 h
  unfold Pseudo.flattenChoice
  split
  · rename_i inner single
    split
    · exact itself
    · rename_i l hl
      have sound := areSound_of_singleCompound h single hl
      have named : AreSound (leadWithin p.name)
          (if inner.name == p.name && inner.argument == p.argument then l else []) := by
        split
        · rename_i same
          rwa [← eq_of_beq (Bool.and_eq_true_iff.1 same).1]
        · exact List.forall_mem_nil _
      split
      · -- an argument taken out of `:is` or `:matches` has no leading combinator
        split
        · rename_i kinds
          have plain : inner.kind ≠ .has := by
            intro has
            rw [has] at kinds
            cases kinds
          rw [leadWithin_eq_zero plain] at sound
          exact fun d hd => (sound d hd).mono (Nat.zero_le _)
        · exact List.forall_mem_nil _
      any_goals exact named
      any_goals exact itself
      exact List.forall_mem_nil _
  · exact itself

/-- So the new choices of an argument are sound. -/
theorem areSound_choicesFor {p : Pseudo} {l extended : SelectorList}
    (h : AreSound (leadWithin p.name) extended) :
    AreSound (leadWithin p.name) (p.choicesFor l extended) := by
  intro d hd
  obtain ⟨c, hc, hd⟩ := List.mem_flatMap.1 hd
  refine areSound_flattenChoice (h c ?_) d hd
  split at hc
  · exact List.mem_of_mem_filter hc
  · exact hc

/-- What replaces a pseudo selector when its argument is extended is one with another argument. -/
theorem exists_of_mem_withExtended {p q : Pseudo} {l extended : SelectorList}
    {replaced : List Pseudo} (h : p.withExtended l extended = some replaced) (mem : q ∈ replaced) :
    ∃ choices ⊆ p.choicesFor l extended, q = p.withSelector choices := by
  unfold Pseudo.withExtended at h
  split at h
  · cases h
  · split at h
    · obtain rfl := Option.some.inj h
      obtain ⟨c, hc, rfl⟩ := List.mem_map.1 mem
      exact ⟨[c], List.cons_subset.2 ⟨hc, List.nil_subset _⟩, rfl⟩
    · obtain rfl := Option.some.inj h
      exact ⟨_, fun _ hc => hc, List.mem_singleton.1 mem⟩

/-- **Extending the argument of a sound pseudo selector gives sound ones.** -/
theorem isSound_of_mem_withExtended {p q : Pseudo} (hp : (Simple.pseudo p).IsSound)
    {l extended : SelectorList} (h : AreSound (leadWithin p.name) extended)
    {replaced : List Pseudo} (hr : p.withExtended l extended = some replaced) (mem : q ∈ replaced) :
    (Simple.pseudo q).IsSound := by
  obtain ⟨choices, sub, rfl⟩ := exists_of_mem_withExtended hr mem
  refine Simple.isSound_pseudo.2 ⟨(Simple.isSound_pseudo.1 hp).1, ?_⟩
  rintro _ ⟨⟩
  exact fun c hc => areSound_choicesFor h c (sub hc)

end SelectorAlgebra
