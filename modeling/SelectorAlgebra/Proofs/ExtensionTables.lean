import SelectorAlgebra.Proofs.Tables
import SelectorAlgebra.Store.Settle

/-!
# Proofs/ExtensionTables — what holds of every extension of a table

`EachExtension R m` says `R` of every extension in `m`, with the target and the extender it is
under.  As long as `R` is the same for equivalent targets and extenders (`IsFacing`), it is enough
to look at what is put in: `alter` for a change to the table of one target, `setExtension`, `addAll`
and `mapOfRules` from it.
-/

namespace SelectorAlgebra

variable {R : Simple → Complex → Extension → Prop}

/-- Equivalent targets and extenders make no difference. -/
structure IsFacing (R : Simple → Complex → Extension → Prop) : Prop where
  congr : ∀ {target target' extender extender' e}, (target == target') = true →
    (extender == extender') = true → R target extender e → R target' extender' e

/-- Every extension of one target is as asked. -/
def EachOfTarget (R : Simple → Complex → Extension → Prop) (target : Simple)
    (sources : OrderedMap Complex Extension) : Prop :=
  ∀ pair ∈ sources.entries, R target pair.1 pair.2

/-- Every extension is as asked. -/
def EachExtension (R : Simple → Complex → Extension → Prop) (m : ExtensionMap) : Prop :=
  ∀ entry ∈ m.entries, EachOfTarget R entry.1 entry.2

variable {m new : ExtensionMap} {target target' : Simple} {extender : Complex}
  {sources : OrderedMap Complex Extension} {e : Extension}

/-! ## The extensions of one target -/

/-- The table of a target serves every equal target. -/
theorem EachOfTarget.congr (facing : IsFacing R) (h : EachOfTarget R target sources)
    (same : (target == target') = true) : EachOfTarget R target' sources :=
  fun pair hpair => facing.congr same BEq.rfl (h pair hpair)

theorem eachOfTarget_empty (target : Simple) :
    EachOfTarget R target .empty := fun _ mem => by cases mem

/-- One more extension. -/
theorem EachOfTarget.insert (facing : IsFacing R) (h : EachOfTarget R target sources)
    (he : R target extender e) : EachOfTarget R target (sources.insert extender e) := by
  intro pair hpair
  rcases OrderedMap.mem_entries_alter hpair with old | ⟨_, -, same, value⟩ | rfl
  · exact h pair old
  · exact value ▸ facing.congr BEq.rfl (BEq.symm same) he
  · exact he

/-- Any number of them, by induction. -/
theorem EachOfTarget.insertAll (facing : IsFacing R) (h : EachOfTarget R target sources)
    {pairs : List (Complex × Extension)} (hp : ∀ pair ∈ pairs, R target pair.1 pair.2) :
    EachOfTarget R target (sources.insertAll pairs) := by
  induction pairs generalizing sources with
  | nil => exact h
  | cons pair pairs ih =>
    rw [List.forall_mem_cons] at hp
    exact ih (h.insert facing hp.1) hp.2

/-! ## All extensions -/

theorem eachExtension_empty : EachExtension R .empty := fun _ mem => by cases mem

/-- What is looked up has the property, also when it was stored under equal keys. -/
theorem EachExtension.of_get? (facing : IsFacing R) (h : EachExtension R m)
    (found : (m.get? target).bind (·.get? extender) = some e) : R target extender e := by
  obtain ⟨sources, hsources, found⟩ := Option.bind_eq_some_iff.1 found
  obtain ⟨target', hentry, ht⟩ := OrderedMap.exists_mem_of_get? hsources
  obtain ⟨extender', hpair, hc⟩ := OrderedMap.exists_mem_of_get? found
  exact facing.congr ht hc (h _ hentry _ hpair)

/-- A change to the table of one target. -/
theorem EachExtension.alter (facing : IsFacing R) (h : EachExtension R m)
    {change : Option (OrderedMap Complex Extension) → OrderedMap Complex Extension}
    (hc : ∀ old : Option _, EachOfTarget R target (old.getD .empty) →
      EachOfTarget R target (change old)) :
    EachExtension R (m.alter target change) := by
  intro entry hentry
  rcases OrderedMap.mem_entries_alter hentry with old | ⟨sources, mem, same, value⟩ | rfl
  · exact h entry old
  · exact value ▸ (hc (some sources) ((h _ mem).congr facing same)).congr facing (BEq.symm same)
  · exact hc none (eachOfTarget_empty target)

/-- Setting an extension is a change of one target's table. -/
theorem EachExtension.setExtension (facing : IsFacing R) (h : EachExtension R m)
    (he : R target extender e) : EachExtension R (Store.setExtension m target extender e) :=
  h.alter facing fun _ old => old.insert facing he

theorem EachExtension.insertNew (facing : IsFacing R) (h : EachExtension R m) (target : Simple) :
    EachExtension R (m.insertNew target .empty) :=
  h.alter facing fun _ old => old

theorem EachExtension.erase (facing : IsFacing R) (h : EachExtension R m) (target : Simple)
    (extender : Complex) :
    EachExtension R (m.alter target fun sources => (sources.getD .empty).erase extender) :=
  h.alter facing fun _ old pair hpair => old pair (List.mem_of_mem_eraseP hpair)

/-- Adding a whole table adds to the table of each of its targets. -/
theorem EachExtension.addAll (facing : IsFacing R) (h : EachExtension R m)
    (hn : EachExtension R new) :
    EachExtension R (Store.addAll m new) := by
  obtain ⟨entries⟩ := new
  simp only [Store.addAll]
  induction entries generalizing m with
  | nil => exact h
  | cons entry entries ih =>
    rw [EachExtension, List.forall_mem_cons] at hn
    exact ih (h.alter facing fun _ old => old.insertAll facing hn.1) hn.2

/-- Extensions that are put in one after the other. -/
theorem EachExtension.foldl_setExtension {α : Type} (facing : IsFacing R) {target : α → Simple}
    {extender : α → Complex} {e : α → Extension} {xs : List α} (h : EachExtension R m)
    (hx : ∀ x ∈ xs, R (target x) (extender x) (e x)) :
    EachExtension R
      (xs.foldl (fun m x => Store.setExtension m (target x) (extender x) (e x)) m) := by
  induction xs generalizing m with
  | nil => exact h
  | cons x xs ih =>
    rw [List.forall_mem_cons] at hx
    exact ih (h.setExtension facing hx.1) hx.2

/-- A table made of rules has the property when each rule's own extension has it. -/
theorem eachExtension_mapOfRules (facing : IsFacing R) {rules : List ExtendRule}
    (h : ∀ r ∈ rules, R r.target r.extender (.rule r)) : EachExtension R (Store.mapOfRules rules) :=
  eachExtension_empty.foldl_setExtension facing h

/-! ## Rules by what their extenders mention -/

/-- The rules that the index has under a condition of their extenders. -/
def Store.rulesUnder (s : Store) (x : Simple) : List ExtendRule := (s.byExtender.get? x).getD []

/-- A rule is added once for every condition it is put under. -/
theorem Store.rulesUnder_indexRule (s : Store) (r : ExtendRule) (conditions : List Simple)
    (x : Simple) : (s.indexRule r conditions).rulesUnder x =
      s.rulesUnder x ++ (conditions.filter (· == x)).map fun _ => r := by
  simp only [rulesUnder, indexRule]
  generalize s.byExtender = index
  induction conditions generalizing index with
  | nil => simp
  | cons y conditions ih =>
    rw [List.foldl_cons, ih, OrderedMap.get?_alter]
    by_cases same : (y == x) = true
    · simp [same, index.get?_congr same]
    · simp [same]

theorem Store.mem_rulesUnder_indexRule {s : Store} {r r' : ExtendRule} {conditions : List Simple}
    {x : Simple} : r' ∈ (s.indexRule r conditions).rulesUnder x ↔
      r' ∈ s.rulesUnder x ∨ conditions.contains x = true ∧ r' = r := by
  rw [rulesUnder_indexRule, List.mem_append, List.mem_map, List.contains_iff_exists_mem_beq]
  simp only [List.mem_filter]
  refine or_congr_right ⟨?_, ?_⟩
  · rintro ⟨y, ⟨mem, same⟩, rfl⟩
    exact ⟨⟨y, mem, BEq.symm same⟩, rfl⟩
  · rintro ⟨⟨y, mem, same⟩, rfl⟩
    exact ⟨y, ⟨mem, BEq.symm same⟩, rfl⟩

end SelectorAlgebra
