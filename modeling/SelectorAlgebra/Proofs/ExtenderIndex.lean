import Mathlib
import SelectorAlgebra.Proofs.Changes
import SelectorAlgebra.Proofs.ExtensionTables
import SelectorAlgebra.Proofs.Merging
import SelectorAlgebra.Proofs.Tables

/-!
# Proofs/ExtenderIndex — which conditions of an extender lead to its extension

* `extenders_listed` — in every store that calls can reach, an extension is listed under the
  conditions of its extender: under those at any depth if it was written, and under those outside
  selector arguments if it was found by extending an extender.  Only an extension that another store
  brought may not be listed at all.

An extension is listed under all conditions of its extender, or under none inside a selector
argument only.  The index never forgets, so what it lists once it lists for ever (`Reaches.lists`).
-/

namespace SelectorAlgebra

/-! ## Conditions of equivalent selectors -/

mutual

/-- The conditions of a canonical form, at any depth, are the canonical forms of the conditions. -/
theorem Simple.simples_canonical :
    ∀ s : Simple, s.canonical.simples = s.simples.map Simple.canonical
  | .pseudo ⟨_, _, none⟩ => rfl
  | .pseudo ⟨_, _, some l⟩ => by
    rw [Simple.canonical, Simple.simples, Simple.simples, List.map_cons, simplesOfList_canonical l,
      Simple.canonical]
  | .universal _ | .type _ | .className _ | .idName _ | .attr _ | .placeholder _ | .parent _ => rfl

theorem simplesOfCompound_canonical : ∀ c : List Simple,
    simplesOfCompound (canonicalCompound c) = (simplesOfCompound c).map Simple.canonical
  | [] => rfl
  | s :: c => by
    rw [canonicalCompound, simplesOfCompound, simplesOfCompound, List.map_append,
      Simple.simples_canonical s, simplesOfCompound_canonical c]

theorem simplesOfItems_canonical : ∀ row : List Item,
    simplesOfItems (canonicalItems row) = (simplesOfItems row).map Simple.canonical
  | [] => rfl
  | .compound c :: row => by
    rw [canonicalItems, simplesOfItems, simplesOfItems, List.map_append,
      simplesOfCompound_canonical c, simplesOfItems_canonical row]
  | .combinator _ :: row => by
    rw [canonicalItems, simplesOfItems, simplesOfItems, simplesOfItems_canonical row]

theorem simplesOfList_canonical : ∀ l : List Complex,
    simplesOfList (canonicalList l) = (simplesOfList l).map Simple.canonical
  | [] => rfl
  | ⟨row, _⟩ :: l => by
    rw [canonicalList, simplesOfList, simplesOfList, List.map_append, simplesOfItems_canonical row,
      simplesOfList_canonical l]

end

/-- The conditions of a selector outside selector arguments. -/
def Complex.topSimples (c : Complex) : List Simple := c.compounds.flatten

theorem flatten_compounds_canonicalItems : ∀ row : List Item,
    ((canonicalItems row).filterMap Item.compound?).flatten
      = (row.filterMap Item.compound?).flatten.map Simple.canonical
  | [] => rfl
  | .compound c :: row => by
    simp [canonicalItems, Item.compound?, flatten_compounds_canonicalItems row,
      canonicalCompound_eq_map]
  | .combinator _ :: row => flatten_compounds_canonicalItems row

/-- Being in a list up to equality is having the canonical form among theirs. -/
theorem contains_iff_canonical {l : List Simple} {x : Simple} :
    l.contains x = true ↔ x.canonical ∈ l.map Simple.canonical := by
  rw [List.contains_iff_exists_mem_beq, List.mem_map]
  exact exists_congr fun y => and_congr_right fun _ => Simple.beq_iff.trans eq_comm

/-- Equal selectors have the same conditions at any depth. -/
theorem contains_simples_congr {c d : Complex} (h : (c == d) = true) (x : Simple) :
    c.simples.contains x = true ↔ d.simples.contains x = true := by
  have same : canonicalItems c.items = canonicalItems d.items :=
    congrArg Complex.items (Complex.beq_iff.1 h)
  rw [contains_iff_canonical, contains_iff_canonical, Complex.simples, Complex.simples,
    ← simplesOfItems_canonical, ← simplesOfItems_canonical, same]

/-- And the same ones outside arguments. -/
theorem contains_topSimples_congr {c d : Complex} (h : (c == d) = true) (x : Simple) :
    c.topSimples.contains x = true ↔ d.topSimples.contains x = true := by
  have same : canonicalItems c.items = canonicalItems d.items :=
    congrArg Complex.items (Complex.beq_iff.1 h)
  rw [contains_iff_canonical, contains_iff_canonical, Complex.topSimples, Complex.topSimples,
    Complex.compounds, Complex.compounds, ← flatten_compounds_canonicalItems,
    ← flatten_compounds_canonicalItems, same]

/-- What stands outside arguments stands somewhere. -/
theorem topSimples_subset_simples (c : Complex) : c.topSimples ⊆ c.simples := by
  have self : ∀ s : Simple, s ∈ s.simples := by
    rintro (_ | _ | _ | _ | _ | _ | _ | ⟨_, _, _ | _⟩) <;> simp [Simple.simples]
  have rows : ∀ row : List Item, (row.filterMap Item.compound?).flatten ⊆ simplesOfItems row := by
    intro row
    induction row with
    | nil => exact List.nil_subset _
    | cons item row ih =>
      rcases item with d | k
      · have own : d ⊆ simplesOfCompound d := fun s hs => by
          rw [simplesOfCompound_eq_flatMap]
          exact List.mem_flatMap.2 ⟨s, hs, self s⟩
        exact List.append_subset.2 ⟨List.subset_append_of_subset_left _ own,
          List.subset_append_of_subset_right _ ih⟩
      · exact ih
  exact rows c.items

namespace Store

/-! ## The index -/

/-- The index lists the extension of `target` by `extender` under the condition `x`. -/
def Lists (s : Store) (x target : Simple) (extender : Complex) : Prop :=
  ∃ r ∈ s.rulesUnder x, (r.target == target) = true ∧ (r.extender == extender) = true

variable {brings : Simple → Complex → Prop} {s s' : Store} {x y target target' : Simple}
  {extender extender' : Complex} {e : Extension}

/-- The index does not see what equality ignores. -/
theorem Lists.congr (h : s.Lists x target extender) (hx : (x == y) = true)
    (ht : (target == target') = true) (he : (extender == extender') = true) :
    s.Lists y target' extender' := by
  obtain ⟨r, mem, target, extender⟩ := h
  rw [rulesUnder, s.byExtender.get?_congr hx] at mem
  exact ⟨r, mem, BEq.trans target ht, BEq.trans extender he⟩

/-- Being listed under each of some conditions, up to equality. -/
theorem Lists.of_contains {conditions : List Simple}
    (h : ∀ x ∈ conditions, s.Lists x target extender) (hy : conditions.contains y = true) :
    s.Lists y target extender := by
  obtain ⟨x, mem, same⟩ := List.contains_iff_exists_mem_beq.1 hy
  exact (h x mem).congr (BEq.symm same) BEq.rfl BEq.rfl

/-- A rule put into the index is listed where it was put, and everything else as before. -/
theorem lists_indexRule {r : ExtendRule} {conditions : List Simple} :
    (s.indexRule r conditions).Lists x target extender ↔ s.Lists x target extender ∨
      conditions.contains x = true ∧ (r.target == target) = true ∧
        (r.extender == extender) = true := by
  simp only [Lists, mem_rulesUnder_indexRule]
  constructor
  · rintro ⟨r', old | ⟨mem, rfl⟩, same⟩
    · exact .inl ⟨r', old, same⟩
    · exact .inr ⟨mem, same⟩
  · rintro (⟨r', old, same⟩ | ⟨mem, same⟩)
    · exact ⟨r', .inl old, same⟩
    · exact ⟨r, .inr ⟨mem, rfl⟩, same⟩

/-- **The index never forgets.** -/
theorem Change.lists (h : Change brings s s') (listed : s.Lists x target extender) :
    s'.Lists x target extender := by
  cases h with
  | note | push | select | target | drop | merge | bring => exact listed
  | write | derive => exact lists_indexRule.2 (.inl listed)

/-- What is listed stays listed. -/
theorem Reaches.lists (h : Reaches brings s s') (listed : s.Lists x target extender) :
    s'.Lists x target extender :=
  h.keeps (fun _ _ change => change.lists) listed

/-! ## What each change does to the extensions -/

/-- An entry of the changed table was there before or is the one that was set. -/
theorem mem_setExtension {m : ExtensionMap} {entry : Simple × OrderedMap Complex Extension}
    {pair : Complex × Extension} (hentry : entry ∈ (setExtension m target extender e).entries)
    (hpair : pair ∈ entry.2.entries) :
    (∃ old ∈ m.entries, old.1 = entry.1 ∧ pair ∈ old.2.entries) ∨
      (entry.1 == target) = true ∧ (pair.1 == extender) = true ∧ pair.2 = e := by
  have inner : ∀ {sources : OrderedMap Complex Extension},
      pair ∈ (sources.insert extender e).entries →
      pair ∈ sources.entries ∨ (pair.1 == extender) = true ∧ pair.2 = e := by
    intro sources h
    rcases OrderedMap.mem_entries_alter h with old | ⟨_, _, same, value⟩ | rfl
    · exact .inl old
    · exact .inr ⟨same, value⟩
    · exact .inr ⟨BEq.rfl, rfl⟩
  rcases OrderedMap.mem_entries_alter hentry with old | ⟨sources, mem, same, value⟩ | rfl
  · exact .inl ⟨entry, old, rfl, hpair⟩
  · rw [value] at hpair
    rcases inner hpair with old | new
    · exact .inl ⟨(entry.1, sources), mem, rfl, old⟩
    · exact .inr ⟨same, new⟩
  · rcases inner hpair with absent | new
    · cases absent
    · exact .inr ⟨BEq.rfl, new⟩

/-- A change that only takes extensions out of the entry of a target. -/
theorem mem_alter_of_subset {m : ExtensionMap}
    {change : Option (OrderedMap Complex Extension) → OrderedMap Complex Extension}
    (empty : (change none).entries = [])
    (subset : ∀ sources, (change (some sources)).entries ⊆ sources.entries)
    {entry : Simple × OrderedMap Complex Extension} {pair : Complex × Extension}
    (hentry : entry ∈ (m.alter target change).entries) (hpair : pair ∈ entry.2.entries) :
    ∃ old ∈ m.entries, old.1 = entry.1 ∧ pair ∈ old.2.entries := by
  rcases OrderedMap.mem_entries_alter hentry with old | ⟨sources, mem, -, value⟩ | rfl
  · exact ⟨entry, old, rfl, hpair⟩
  · rw [value] at hpair
    exact ⟨(entry.1, sources), mem, rfl, subset sources hpair⟩
  · rw [empty] at hpair
    cases hpair

/-! ## The invariant -/

/-- The extension is one by `extender`, and listed under the conditions outside arguments. -/
def IsListed (s : Store) (target : Simple) (extender : Complex) (e : Extension) : Prop :=
  (e.extender == extender) = true ∧ ∀ x ∈ extender.topSimples, s.Lists x target extender

/-- Every extension is listed unless another store may have brought it; and nothing is listed under
a condition inside an argument without being listed under all conditions. -/
structure IsIndexed (brings : Simple → Complex → Prop) (s : Store) : Prop where
  listed : ∀ entry ∈ s.extensions.entries, ∀ pair ∈ entry.2.entries,
    brings entry.1 pair.1 ∨ s.IsListed entry.1 pair.1 pair.2
  depth : ∀ target extender, (∀ x ∈ extender.simples, s.Lists x target extender) ∨
    ∀ x, s.Lists x target extender → extender.topSimples.contains x = true

/-- Being listed does not see what equality ignores. -/
theorem IsListed.congr (h : s.IsListed target extender e) (ht : (target == target') = true)
    (he : (extender == extender') = true) : s.IsListed target' extender' e := by
  refine ⟨BEq.trans h.1 he, fun x mem => ?_⟩
  have hx := (contains_topSimples_congr he x).2 (List.elem_eq_true_of_mem mem)
  exact (Lists.of_contains h.2 hx).congr BEq.rfl ht he

theorem extender_of_merge {left right m : Extension} (h : left.merge right = .ok m) :
    (m.extender == left.extender) = true :=
  BEq.trans (Extension.pair_of_merge h).1 (BEq.symm (Extension.alike_of_merge h).1)

section Invariant

variable (congr : ∀ {t t' : Simple} {c c' : Complex}, (t == t') = true → (c == c') = true →
  brings t c → brings t' c')

include congr

/-- An extension may be put when it is brought or listed. -/
theorem IsIndexed.put (h : IsIndexed brings s)
    (good : brings target extender ∨ s.IsListed target extender e) :
    IsIndexed brings (s.putExtension target extender e) := by
  refine ⟨fun entry hentry pair hpair => ?_, h.depth⟩
  rcases mem_setExtension hentry hpair with ⟨old, mem, same, mem'⟩ | ⟨ht, hc, rfl⟩
  · rw [← same]
    exact h.listed old mem pair mem'
  · exact good.imp (congr (BEq.symm ht) (BEq.symm hc)) fun listed =>
      listed.congr (BEq.symm ht) (BEq.symm hc)

/-- Merging keeps the extender, so what was listed for it is enough. -/
theorem IsIndexed.merge (h : IsIndexed brings s) {existing merged : Extension}
    (known : s.extension? target extender = some existing) (hm : existing.merge e = .ok merged) :
    IsIndexed brings (s.putExtension target extender merged) := by
  obtain ⟨sources, hsources, hexisting⟩ := Option.bind_eq_some_iff.1 known
  obtain ⟨target', hentry, ht⟩ := OrderedMap.exists_mem_of_get? hsources
  obtain ⟨extender', hpair, he⟩ := OrderedMap.exists_mem_of_get? hexisting
  refine h.put congr ((h.listed _ hentry _ hpair).imp (congr ht he) fun listed => ?_)
  obtain ⟨same, lists⟩ := listed.congr ht he
  exact ⟨BEq.trans (extender_of_merge hm) same, lists⟩

omit congr in
/-- A rule goes into the index under all conditions of its extender, or under those outside
arguments. -/
theorem IsIndexed.index (h : IsIndexed brings s) {r : ExtendRule} {conditions : List Simple}
    (hc : conditions = r.extender.simples ∨ conditions = r.extender.topSimples) :
    IsIndexed brings (s.indexRule r conditions) := by
  refine ⟨fun entry hentry pair hpair => ?_, fun target extender => ?_⟩
  · exact (h.listed entry hentry pair hpair).imp_right fun ⟨same, lists⟩ =>
      ⟨same, fun x mem => lists_indexRule.2 (.inl (lists x mem))⟩
  rcases h.depth target extender with all | top
  · exact .inl fun x mem => lists_indexRule.2 (.inl (all x mem))
  by_cases own : (r.target == target) = true ∧ (r.extender == extender) = true
  · rcases hc with rfl | rfl
    · exact .inl fun x mem => lists_indexRule.2 (.inr
        ⟨(contains_simples_congr own.2 x).2 (List.elem_eq_true_of_mem mem), own⟩)
    · refine .inr fun x listed => ?_
      rcases lists_indexRule.1 listed with old | ⟨mem, -⟩
      · exact top x old
      · exact (contains_topSimples_congr own.2 x).1 mem
  · exact .inr fun x listed => top x ((lists_indexRule.1 listed).resolve_right fun new => own new.2)

omit congr in
/-- A new rule is listed where it was put. -/
theorem isListed_indexRule {r : ExtendRule} {conditions : List Simple}
    (h : r.extender.topSimples ⊆ conditions) :
    (s.indexRule r conditions).IsListed r.target r.extender (.rule r) :=
  ⟨BEq.rfl, fun _ mem => lists_indexRule.2 (.inr
    ⟨List.elem_eq_true_of_mem (h mem), BEq.rfl, BEq.rfl⟩)⟩

omit congr in
/-- A change that only drops extensions keeps the invariant. -/
theorem IsIndexed.alter_of_subset (h : IsIndexed brings s)
    {change : Option (OrderedMap Complex Extension) → OrderedMap Complex Extension}
    (empty : (change none).entries = [])
    (subset : ∀ sources, (change (some sources)).entries ⊆ sources.entries) :
    IsIndexed brings { s with extensions := s.extensions.alter target change } := by
  refine ⟨fun entry hentry pair hpair => ?_, h.depth⟩
  obtain ⟨old, mem, same, mem'⟩ := mem_alter_of_subset empty subset hentry hpair
  rw [← same]
  exact h.listed old mem pair mem'

/-- **Every change keeps the index as it should be.** -/
theorem IsIndexed.change (change : Change brings s s') (h : IsIndexed brings s) :
    IsIndexed brings s' := by
  cases change with
  | note | push | select => exact ⟨h.listed, h.depth⟩
  | target target =>
    exact h.alter_of_subset rfl fun sources => List.Subset.refl sources.entries
  | drop target extender =>
    exact h.alter_of_subset rfl fun sources => List.eraseP_subset
  | merge known hm => exact h.merge congr known hm
  | @write r new =>
    exact (h.index (.inl rfl)).put congr
      (.inr (isListed_indexRule (topSimples_subset_simples r.extender)))
  | derive new =>
    exact (h.index (.inr rfl)).put congr (.inr (isListed_indexRule (List.Subset.refl _)))
  | bring brought e => exact h.put congr (.inl brought)

end Invariant

theorem isIndexed_empty (mode : ExtendMode) (limit : ℕ) : IsIndexed brings (.empty mode limit) := by
  refine ⟨fun entry hentry => ?_, fun target extender => .inr fun x listed => ?_⟩
  · cases hentry
  · obtain ⟨r, mem, -⟩ := listed
    cases mem

theorem Imports.congr {calls : List Call} (ht : (target == target') = true)
    (he : (extender == extender') = true) (h : Imports calls target extender) :
    Imports calls target' extender' := by
  obtain ⟨others, mem, other, mem', entry, hentry, same, pair, hpair, same'⟩ := h
  exact ⟨others, mem, other, mem', entry, hentry, BEq.trans same ht, pair, hpair,
    BEq.trans same' he⟩

/-- **Every store reached from the empty one is indexed**, by the changes its calls make. -/
theorem afterCalls_isIndexed (mode : ExtendMode) (limit : ℕ) (calls : List Call) :
    IsIndexed (Imports calls) (afterCalls calls (.empty mode limit)) :=
  (afterCalls_reaches fun _ _ h => h).keeps (fun _ _ => IsIndexed.change Imports.congr)
    (isIndexed_empty mode limit)

/-! ## Written extensions -/

/-- Looking an extension up does not see what equality ignores. -/
theorem extension?_congr (s : Store) (ht : (target == target') = true)
    (he : (extender == extender') = true) :
    s.extension? target extender = s.extension? target' extender' := by
  rw [extension?, extension?, s.extensions.get?_congr ht]
  exact congrArg _ (funext fun sources => sources.get?_congr he)

/-- What is found after an extension was put. -/
theorem extension?_putExtension (s : Store) (target target' : Simple) (extender extender' : Complex)
    (e : Extension) : (s.putExtension target extender e).extension? target' extender' =
      if (target == target' && extender == extender') = true then some e
      else s.extension? target' extender' := by
  rw [extension?, putExtension, setExtension, OrderedMap.get?_alter]
  by_cases ht : (target == target') = true
  · rw [if_pos ht, Option.bind_some, OrderedMap.insert, OrderedMap.get?_alter, ht, Bool.true_and,
      extension?, s.extensions.get?_congr ht]
    by_cases he : (extender == extender') = true
    · rw [if_pos he, if_pos he]
    · rw [if_neg he, if_neg he]
      cases s.extensions.get? target' <;> rfl
  · rw [if_neg ht, Bool.eq_false_iff.2 ht, Bool.false_and, if_neg Bool.false_ne_true, extension?]

theorem extension?_ensureTarget (s : Store) (target target' : Simple) (extender : Complex) :
    (s.ensureTarget target).extension? target' extender = s.extension? target' extender := by
  rw [extension?, ensureTarget, OrderedMap.insertNew, OrderedMap.get?_alter]
  by_cases ht : (target == target') = true
  · rw [if_pos ht, extension?, s.extensions.get?_congr ht]
    cases s.extensions.get? target' <;> rfl
  · rw [if_neg ht, extension?]

/-- The extension is listed under every condition of its extender. -/
def IsListedDeeply (s : Store) (target : Simple) (extender : Complex) : Prop :=
  ∀ x ∈ extender.simples, s.Lists x target extender

theorem IsListedDeeply.congr (h : s.IsListedDeeply target extender)
    (ht : (target == target') = true) (he : (extender == extender') = true) :
    s.IsListedDeeply target' extender' := fun x mem =>
  (Lists.of_contains h ((contains_simples_congr he x).2 (List.elem_eq_true_of_mem mem))).congr
    BEq.rfl ht he

/-- Extensions of `target` that are new in the second store are listed under all conditions. -/
def ListsNew (target : Simple) (s s' : Store) : Prop :=
  ∀ extender, (s.IsListedDeeply target extender → s'.IsListedDeeply target extender) ∧
    (s.extension? target extender = none →
      s'.extension? target extender = none ∨ s'.IsListedDeeply target extender)

instance : Std.Refl (ListsNew target) := ⟨fun _ _ => ⟨id, .inl⟩⟩

instance : IsTrans Store (ListsNew target) where
  trans _ _ _ h h' extender :=
    ⟨(h' extender).1 ∘ (h extender).1, fun missing =>
      ((h extender).2 missing).elim (h' extender).2 fun deep => .inr ((h' extender).1 deep)⟩

/-- One more rule for a pair that is there makes no new pair. -/
theorem listsNew_put {existing : Extension} (known : s.extension? target extender = some existing)
    (e : Extension) : ListsNew target s (s.putExtension target extender e) := by
  refine fun extender' => ⟨id, fun missing => .inl ?_⟩
  rw [extension?_putExtension, missing, ite_eq_right_iff]
  intro same
  rw [Bool.and_eq_true] at same
  rw [s.extension?_congr same.1 same.2, missing] at known
  cases known

/-- A rule is listed under the conditions of its extender at every depth. -/
theorem isListedDeeply_write (s : Store) (r : ExtendRule) :
    (s.indexRule r r.extender.simples).IsListedDeeply r.target r.extender := fun _ mem =>
  lists_indexRule.2 (.inr ⟨List.elem_eq_true_of_mem mem, BEq.rfl, BEq.rfl⟩)

/-- A new pair is listed at once. -/
theorem listsNew_write (s : Store) (r : ExtendRule) : ListsNew r.target s
    (((s.putExtension r.target r.extender (.rule r)).indexRule r r.extender.simples).noteSources
      r.extender) := by
  refine fun extender =>
    ⟨fun deep x mem => lists_indexRule.2 (.inl (deep x mem)), fun missing => ?_⟩
  by_cases same : (r.extender == extender) = true
  · exact .inr ((isListedDeeply_write s r).congr BEq.rfl same)
  · refine .inl (Eq.trans (extension?_putExtension s _ _ _ _ _) ?_)
    rw [Bool.eq_false_iff.2 same, Bool.and_false, if_neg Bool.false_ne_true, missing]

/-- A rule that is added is listed under all conditions of its extender, if its pair is new. -/
theorem addRule_listsNew {r : ExtendRule} (hr : r.target = target) :
    Ensures (ListsNew target) (addRule r) s fun _ s' =>
      s.extension? target r.extender = none → s'.IsListedDeeply target r.extender := by
  subst hr
  refine Ensures.get_bind ?_
  split
  · rename_i existing known
    have known : s.extension? r.target r.extender = some existing := known
    refine (Ensures.ofExcept (Q := fun _ s' => s' = s) fun _ _ => rfl).bind fun merged s' _ hs => ?_
    subst hs
    refine (Ensures.modify (Q := fun _ _ => True) (listsNew_put known merged) trivial).bind
      fun _ _ _ _ => .pure fun missing => ?_
    rw [known] at missing
    cases missing
  · exact (Ensures.modify (Q := fun _ s' => s'.IsListedDeeply r.target r.extender)
      (listsNew_write s r) (isListedDeeply_write s r)).bind fun _ _ _ deep => .pure fun _ => deep

/-- All the rules of one extension, by induction on the extender's choices. -/
theorem addRules_listsNew {rule : Complex → ExtendRule} (hrule : ∀ c, (rule c).target = target)
    (hextender : ∀ c, (rule c).extender = c) : ∀ (choices : SelectorList) {s : Store},
    Ensures (ListsNew target) (choices.mapM fun c => addRule (rule c)) s fun _ s' =>
      ∀ c ∈ choices, s.extension? target c = none → s'.IsListedDeeply target c
  | [], _ => by
    rw [List.mapM_nil]
    exact .pure fun _ mem => nomatch mem
  | c :: choices, s => by
    rw [List.mapM_cons]
    have first := addRule_listsNew (s := s) (hrule c)
    rw [hextender] at first
    refine first.bind fun _ s₁ new₁ own => ?_
    refine (addRules_listsNew hrule hextender choices).bind fun _ s₂ new₂ others => .pure ?_
    rintro d mem missing
    rcases List.mem_cons.1 mem with rfl | mem
    · exact (new₂ d).1 (own missing)
    · exact ((new₁ d).2 missing).elim (others d mem) (new₂ d).1

/-- **An extension that is written is listed under all conditions of its extender.** -/
theorem addExtension_lists {choices : SelectorList} {extenderSpan span : Span}
    {media : Option MediaContext} {optional : Bool}
    (h : outcomeFrom (addExtension choices extenderSpan target span media optional) s
      = (.ok (), s'))
    (mem : extender ∈ choices) (useful : extender.isUseless = false)
    (new : s.extension? target extender = none) : s'.IsListedDeeply target extender := by
  have ensured : Ensures (fun _ _ => True)
      (addExtension choices extenderSpan target span media optional) s
      fun _ s' => s'.IsListedDeeply target extender := by
    refine Ensures.get_bind ?_
    dsimp only
    refine Ensures.bind_from (Q := fun _ s₁ => s₁ = s.ensureTarget target) ⟨trivial, fun _ _ => rfl⟩
      fun _ s₁ _ hs₁ => ?_
    subst hs₁
    rw [← extension?_ensureTarget s target] at new
    have useful : extender ∈ choices.filter (!·.isUseless) :=
      List.mem_filter.2 ⟨mem, by simp [useful]⟩
    refine (@addRules_listsNew target (.written · extenderSpan target span media optional)
      (fun _ => rfl) (fun _ => rfl) (choices.filter (!·.isUseless)) _).result.bind_from
        fun added s₂ _ listed => ?_
    have deep := listed extender useful new
    split
    · exact .pure_of trivial deep
    split
    · exact .pure_of trivial deep
    · have applied := @applyRules_reaches (fun _ _ => False) s₂
        ((s.byExtender.get? target).getD []) (mapOfRules (added.filterMap id)) target
      exact (applied.mono fun _ _ reached _ x hx => reached.lists (deep x hx)).result
  have post := ensured.2 ()
  rw [h] at post
  exact post rfl

/-! ## Every reachable store -/

/-- Some call that did not fail wrote an extension of the pair when there was none. -/
def Writes (s : Store) (calls : List Call) (target : Simple) (extender : Complex) : Prop :=
  ∃ before after choices extenderSpan target' span media optional, ∃ c ∈ choices,
    calls = before ++ .addExtension choices extenderSpan target' span media optional :: after ∧
      (target' == target) = true ∧ (c == extender) = true ∧ c.isUseless = false ∧
      (afterCalls before s).extension? target' c = none ∧
      (outcomeFrom (addExtension choices extenderSpan target' span media optional)
        (afterCalls before s)).1 = .ok ()

/-- What is written by some call is listed in the end, since later calls only add. -/
theorem Writes.isListedDeeply {calls : List Call} (h : Writes s calls target extender) :
    (afterCalls calls s).IsListedDeeply target extender := by
  obtain ⟨before, after, choices, extenderSpan, target', span, media, optional, c, mem, rfl, ht, he,
    useful, new, ok⟩ := h
  have written := addExtension_lists (Prod.ext ok rfl) mem useful new
  have later : ∀ s', Reaches (Imports after) s' (afterCalls after s') := fun _ =>
    afterCalls_reaches fun _ _ h => h
  rw [afterCalls, List.foldl_append, List.foldl_cons]
  exact IsListedDeeply.congr (fun x hx => (later _).lists (written x hx)) ht he

/-- **Where the extensions of a store are listed.**  One that no other store brought is listed
under the conditions of its extender outside selector arguments, and one that was written
under all of them.  One that is not listed under all of them is listed under none that only
occurs inside an argument. -/
theorem extenders_listed (mode : ExtendMode) (limit : ℕ) (calls : List Call) :
    ∀ entry ∈ (afterCalls calls (.empty mode limit)).extensions.entries,
      ∀ pair ∈ entry.2.entries,
        (Imports calls entry.1 pair.1 ∨ (pair.2.extender == pair.1) = true ∧
          ∀ x ∈ pair.1.topSimples,
            (afterCalls calls (.empty mode limit)).Lists x entry.1 pair.1) ∧
        (Writes (.empty mode limit) calls entry.1 pair.1 → ∀ x ∈ pair.1.simples,
          (afterCalls calls (.empty mode limit)).Lists x entry.1 pair.1) ∧
        ((∀ x ∈ pair.1.simples, (afterCalls calls (.empty mode limit)).Lists x entry.1 pair.1) ∨
          ∀ x, (afterCalls calls (.empty mode limit)).Lists x entry.1 pair.1 →
            pair.1.topSimples.contains x = true) := by
  intro entry hentry pair hpair
  have indexed := afterCalls_isIndexed mode limit calls
  exact ⟨indexed.listed entry hentry pair hpair, fun written => written.isListedDeeply,
    indexed.depth entry.1 pair.1⟩

/-- After `.k:not(.n)` extended `.t`, the extension is listed under `.n`. -/
theorem extenders_listed_argument :
    let n : Simple := .className "n"
    let t : Simple := .className "t"
    let c : Complex := .ofCompound [.className "k", .pseudo (.around "not" [.ofCompound [n]])]
    let calls : List Call := [.addExtension [c] default t default none false]
    let s := afterCalls calls (.empty .normal 1)
    s.extensions = ⟨[(t, ⟨[(c, .rule (.written c default t default none false))]⟩)]⟩ ∧
      s.Lists n t c := by
  intro n t c calls s
  have stored : s.extensions
      = ⟨[(t, ⟨[(c, .rule (.written c default t default none false))]⟩)]⟩ := by
    unfold s calls c t n
    cbv
  refine ⟨stored, ?_⟩
  have written : Writes (.empty .normal 1) calls t c :=
    ⟨[], [], [c], default, t, default, none, false, c, List.mem_singleton_self _, rfl,
      BEq.rfl, BEq.rfl, by unfold c n; cbv, rfl, by unfold c t n; cbv⟩
  have mem : (t, ⟨[(c, .rule (.written c default t default none false))]⟩)
      ∈ s.extensions.entries := by
    rw [stored]
    exact List.mem_singleton_self _
  have listed := extenders_listed .normal 1 calls _ mem _ (List.mem_singleton_self _)
  exact listed.2.1 written n (by simp [c, n, Complex.simples, Complex.ofCompound, simplesOfItems,
    Simple.simples, Pseudo.around, Pseudo.written])

/-- An extension found by extending an extender is not listed under a condition inside an argument,
and one from another store not at all: after `.a` extended `.t` and `.k:not(.n)` extended `.a`,
nothing leads from `.n` to the extension of `.t` by `.k:not(.n)`; nor does anything lead from `.a`
to the extension of `.t` by `.a` in a store that got it from another one. -/
theorem extenders_unlisted :
    let n : Simple := .className "n"
    let t : Simple := .className "t"
    let a : Complex := .ofCompound [.className "a"]
    let c : Complex := .ofCompound [.className "k", .pseudo (.around "not" [.ofCompound [n]])]
    let first : Call := .addExtension [a] default t default none false
    let second : Call := .addExtension [c] default (.className "a") default none false
    let s₀ := Store.empty .normal 1
    let s₁ := afterCalls [first] s₀
    let s := afterCalls [first, second] s₀
    let s' := afterCalls [.addExtensions [s₁]] s₀
    ((outcomeFrom first.operation s₀).1.isOk = true ∧
        (outcomeFrom second.operation s₁).1.isOk = true ∧
        (s.extension? t c).isSome = true ∧ n ∈ c.simples ∧ ¬ s.Lists n t c) ∧
      (outcomeFrom (Call.addExtensions [s₁]).operation s₀).1.isOk = true ∧
        (s'.extension? t a).isSome = true ∧ .className "a" ∈ a.simples ∧
        ¬ s'.Lists (.className "a") t a := by
  intro n t a c first second s₀ s₁ s s'
  have under : s.byExtender.get? n
      = some [.written c default (.className "a") default none false] := by
    unfold s s₀ first second a c t n
    cbv
  have under' : s'.byExtender.get? (.className "a") = none := by
    unfold s' s₁ s₀ first a t
    cbv
  refine ⟨⟨by unfold s₀ first a t; cbv, by unfold s₁ s₀ first second a c t n; cbv,
      by unfold s s₀ first second a c t n; cbv, ?_, fun listed => ?_⟩,
    by unfold s₁ s₀ first a t; cbv, by unfold s' s₁ s₀ first a t; cbv, List.mem_singleton_self _,
    fun listed => ?_⟩
  · simp [c, n, Complex.simples, Complex.ofCompound, simplesOfItems, Simple.simples, Pseudo.around,
      Pseudo.written]
  · obtain ⟨r, mem, same, -⟩ := listed
    rw [rulesUnder, under] at mem
    obtain rfl := List.mem_singleton.1 mem
    have apart : (Simple.className "a" == Simple.className "t") = false := by cbv
    exact Bool.false_ne_true (apart.symm.trans same)
  · obtain ⟨r, mem, -⟩ := listed
    rw [rulesUnder, under'] at mem
    cases mem

end Store

end SelectorAlgebra
