import SelectorAlgebra.Proofs.LoneSelectors
import SelectorAlgebra.Proofs.PlainCompound

/-!
# Proofs/ClassCompounds — compounds of classes

A compound of classes is the set of their names:

* `isSuperselector_iff_subset` — it is above another one exactly if its names are a part of the
  other's;
* `exists_subset_trim` — trimming leaves, for each of them, one with a part of its names;
* `unifyRows_classes` — compounds of classes always unify, to the compound of all their names.

So what a compound becomes is known from its selections, if whatever may stand for its conditions is
a compound of classes (`exists_complexesOfChoices`): every selector asks for the names of one
selection, and every selection has a selector above it.
-/

namespace SelectorAlgebra

/-! ## Compounds of classes -/

/-- The compound of the classes with the given names. -/
def classes (names : List String) : Compound := names.map .className

/-- The name, of a class. -/
def Simple.className? : Simple → Option String
  | .className name => some name
  | _ => none

/-- The names of all classes in the compounds of a selector. -/
def Complex.classNames (c : Complex) : List String :=
  c.compounds.flatten.filterMap Simple.className?

/-- The selector is a single compound of classes. -/
def Complex.IsClassCompound (c : Complex) : Prop := ∃ names, c.items = [.compound (classes names)]

/-- All selectors of the list are single compounds of classes. -/
def AreClassCompounds (l : SelectorList) : Prop := ∀ c ∈ l, c.IsClassCompound

theorem classNames_of_items {c : Complex} {names : List String}
    (h : c.items = [.compound (classes names)]) : c.classNames = names := by
  have compounds : c.compounds.flatten = classes names := by
    simp [Complex.compounds, h, Item.compound?]
  rw [Complex.classNames, compounds, classes, List.filterMap_map]
  exact List.filterMap_some

@[simp] theorem classNames_ofCompound (names : List String) :
    (Complex.ofCompound (classes names)).classNames = names :=
  classNames_of_items rfl

@[simp] theorem isClassCompound_ofCompound (names : List String) :
    (Complex.ofCompound (classes names)).IsClassCompound :=
  ⟨names, rfl⟩

theorem Complex.IsClassCompound.items_eq {c : Complex} (h : c.IsClassCompound) :
    c.items = [.compound (classes c.classNames)] := by
  obtain ⟨names, hc⟩ := h
  rw [classNames_of_items hc, hc]

@[simp] theorem className_beq (name name' : String) :
    (Simple.className name == .className name') = (name == name') := by
  rw [Bool.eq_iff_iff, Simple.beq_iff, beq_iff_eq]
  simp [Simple.canonical]

/-- Looking a class up in a compound is looking its name up. -/
@[simp] theorem contains_classes (names : List String) (name : String) :
    (classes names).contains (.className name) = names.contains name := by
  simp only [List.contains_eq_any_beq, classes, List.any_map, Function.comp_def, className_beq]

/-- Classes have no argument, so a compound of them is covered condition by condition. -/
theorem isSelfContained_classes (names : List String) :
    ∀ s ∈ classes names, Simple.isSelfContained s = true := by
  intro s hs
  obtain ⟨name, -, rfl⟩ := List.mem_map.1 hs
  rfl

/-- **One compound of classes is above another exactly if it has a part of its names.** -/
theorem isSuperselector_iff_subset {c d : Complex} (hc : c.IsClassCompound)
    (hd : d.IsClassCompound) :
    c.isSuperselector d = true ↔ c.classNames ⊆ d.classNames := by
  rw [Complex.isSuperselector, hc.items_eq, hd.items_eq, itemsSuperselector_compound,
    Compound.isSuperselector, covers_eq_all (isSelfContained_classes _) (isSelfContained_classes _)]
  simp [classes, List.subset_def]

theorem canonicalCompound_classes (names : List String) :
    canonicalCompound (classes names) = classes names := by
  rw [canonicalCompound_eq_map, classes, List.map_map]
  rfl

/-- Equivalent compounds of classes have the same names. -/
theorem classNames_congr {c d : Complex} (hc : c.IsClassCompound) (hd : d.IsClassCompound)
    (same : (c == d) = true) : c.classNames = d.classNames := by
  have items := congrArg Complex.items (Complex.beq_iff.1 same)
  simp only [Complex.canonical, hc.items_eq, hd.items_eq, canonicalItems, canonicalCompound_classes,
    List.cons.injEq, Item.compound.injEq, and_true] at items
  exact List.map_injective_iff.2 (fun _ _ h => by simpa using h) items

/-- **Trimming leaves, for each compound of classes, one with a part of its names.** -/
theorem exists_subset_trim {l : SelectorList} (hl : AreClassCompounds l) {d : Complex} (mem : d ∈ l)
    (sources : SourceSpecificity) (authored : Complex → Bool) :
    ∃ c ∈ trim sources authored l, c.classNames ⊆ d.classNames := by
  have : IsTrans Complex fun c d => c.classNames ⊆ d.classNames := ⟨fun _ _ _ => List.Subset.trans⟩
  refine exists_above_trim (P := fun c d => c.classNames ⊆ d.classNames) (fun c hc d hd same => ?_)
    (fun c hc d hd dominated => ?_) mem
  · rw [classNames_congr (hl c hc) (hl d hd) same]
    exact List.Subset.refl _
  · rw [Complex.dominatedBy, Bool.and_eq_true] at dominated
    exact (isSuperselector_iff_subset (hl d hd) (hl c hc)).1 dominated.2

/-! ## Unifying compounds of classes -/

/-- Adding names one by one, leaving out those that are there, adds up to the union. -/
theorem mem_foldl_addDistinct {names found : List String} {name : String} :
    name ∈ names.foldl addDistinct found ↔ name ∈ found ∨ name ∈ names := by
  induction names generalizing found with
  | nil => simp
  | cons name' names ih => rw [List.foldl_cons, ih, mem_addDistinct, List.mem_cons, or_assoc]

theorem classes_addDistinct (names : List String) (name : String) :
    addDistinct (classes names) (.className name) = classes (addDistinct names name) := by
  unfold addDistinct
  rw [contains_classes]
  split
  · rfl
  · simp [classes]

/-- A class unifies with a compound of classes by being added. -/
theorem unify_className (name : String) (names : List String) :
    (Simple.className name).unify (classes names) = some (classes (addDistinct names name)) := by
  have plain : Compound.IsPlain (classes names) := by
    intro s hs
    obtain ⟨name, -, rfl⟩ := List.mem_map.1 hs
    rfl
  have before : ∀ s ∈ classes names, (!s.isPseudo) = true := by
    intro s hs
    obtain ⟨name, -, rfl⟩ := List.mem_map.1 hs
    rfl
  have inserted : insertBeforePseudos (.className name) (classes names)
      = addDistinct (classes names) (.className name) := by
    rw [insertBeforePseudos, List.takeWhile_eq_self_iff.2 before,
      List.dropWhile_eq_nil_iff.2 before]
    rfl
  have ordinary : (Simple.className name).unify (classes names)
      = some (insertBeforePseudos (.className name) (classes names)) := by
    show unifyOrdinary _ _ = _
    rw [unifyOrdinary, unifyWithLone_plain plain]
  rw [ordinary, inserted, classes_addDistinct]

/-- Two compounds of classes unify. -/
theorem unify_classes (names found : List String) :
    Compound.unify (classes names) (classes found)
      = some (classes (names.foldl addDistinct found)) := by
  induction names generalizing found with
  | nil => rfl
  | cons name names ih =>
    rw [classes, List.map_cons, Compound.unify, List.foldlM_cons, unify_className]
    exact ih _

/-- The row of a compound of classes. -/
def classRow (names : List String) : List Item := [.compound (classes names)]

/-- The names of all of several compounds. -/
def joinNames (first : List String) (rest : List (List String)) : List String :=
  rest.foldl (fun found names => names.foldl addDistinct found) first

theorem mem_joinNames {first : List String} {rest : List (List String)} {name : String} :
    name ∈ joinNames first rest ↔ ∃ names ∈ first :: rest, name ∈ names := by
  induction rest generalizing first with
  | nil => simp [joinNames]
  | cons names rest ih =>
    rw [joinNames, List.foldl_cons, ← joinNames, ih]
    simp [mem_foldl_addDistinct, or_assoc]

/-- Compounds of classes always unify, to the compound of the joined names. -/
theorem unifyBases_classes (first : List String) (rest : List (List String)) :
    unifyBases ((first :: rest).map classRow) = some (classes (joinNames first rest)) := by
  show (rest.map classRow).foldlM _ (classes first) = _
  induction rest generalizing first with
  | nil => rfl
  | cons names rest ih =>
    rw [List.map_cons, List.foldlM_cons]
    have step : (do Compound.unify (← baseOfRow (classRow names)) (classes first))
        = some (classes (names.foldl addDistinct first)) := unify_classes names first
    rw [step]
    exact ih _

/-- Rows of one compound have no parents, so weaving them leaves the unified end alone. -/
theorem foldl_weaveRow_withBase {merge : List Item → List Item → Option (List (List Item))}
    (base : Compound) (first : List String) (rest : List (List String)) :
    (withBase base ((first :: rest).map classRow)).foldl (weaveRow merge) [[]]
      = [[.compound base]] := by
  induction rest generalizing first with
  | nil => rfl
  | cons names rest ih => exact ih names

/-- **Compounds of classes unify to the compound of all their names.** -/
theorem unifyRows_classes (first : List String) (rest : List (List String)) :
    unifyRows ((first :: rest).map classRow) = some [classRow (joinNames first rest)] := by
  cases rest with
  | nil => rfl
  | cons names rest =>
    have base := unifyBases_classes first (names :: rest)
    show (unifyBases ((first :: names :: rest).map classRow)).map _ = _
    rw [base]
    exact congrArg some (foldl_weaveRow_withBase _ names rest)

/-! ## Selections of compounds of classes -/

/-- The substitute is a compound of classes that may stand inside all media queries. -/
structure Substitute.IsClassy (o : Substitute) : Prop where
  compound : o.complex.IsClassCompound
  media : ∀ media, o.checkMedia media = .ok ()
  filled : o ≠ .kept []

/-- The names that a selection asks for. -/
def namesOf (selection : List Substitute) : List String :=
  selection.flatMap fun o => o.complex.classNames

/-- The selector is the compound of the names that a selection asks for. -/
def Asks (selection : List Substitute) (c : Complex) : Prop :=
  c.IsClassCompound ∧ ∀ name, name ∈ c.classNames ↔ name ∈ namesOf selection

/-- What a classy substitute keeps is a compound of its own names. -/
theorem Substitute.IsClassy.kept {conditions : Compound}
    (h : (Substitute.kept conditions).IsClassy) :
    conditions = classes (Complex.ofCompound conditions).classNames := by
  simpa [Substitute.complex, Complex.ofCompound] using h.compound.items_eq

/-- What a selection of compounds of classes keeps and what it brings in. -/
theorem exists_parts {selection : List Substitute} (h : ∀ o ∈ selection, o.IsClassy) :
    ∃ kept brought, selection.flatMap Substitute.keptConditions = classes kept ∧
      selection.filterMap Substitute.extenderRow? = brought.map classRow ∧
      (∀ name, name ∈ namesOf selection ↔ name ∈ kept ∨ ∃ names ∈ brought, name ∈ names) ∧
      (selection ≠ [] → kept ≠ [] ∨ brought ≠ []) := by
  induction selection with
  | nil => exact ⟨[], [], rfl, rfl, by simp [namesOf], fun h => absurd rfl h⟩
  | cons o selection ih =>
    rw [List.forall_mem_cons] at h
    obtain ⟨kept, brought, hkept, hbrought, names, -⟩ := ih h.2
    have cons : namesOf (o :: selection) = o.complex.classNames ++ namesOf selection := rfl
    cases o with
    | kept conditions =>
      have own := h.1.kept
      refine ⟨(Complex.ofCompound conditions).classNames ++ kept, brought, ?_,
        hbrought, fun name => ?_, fun _ => .inl fun empty => ?_⟩
      · rw [List.flatMap_cons, hkept]
        exact (congrArg (· ++ classes kept) own).trans (List.map_append ..).symm
      · rw [cons, List.mem_append, List.mem_append, names, or_assoc]
        rfl
      · rw [List.append_eq_nil_iff] at empty
        rw [empty.1] at own
        exact h.1.filled (congrArg _ own)
    | extended e =>
      refine ⟨kept, e.extender.classNames :: brought, hkept, ?_, fun name => ?_,
        fun _ => .inr (by simp)⟩
      · have own : e.extender.items = classRow e.extender.classNames := h.1.compound.items_eq
        rw [List.map_cons, ← own, ← hbrought]
        rfl
      · rw [cons, List.mem_append, names]
        simp only [List.mem_cons, exists_eq_or_imp]
        exact or_left_comm

/-- **A selection unifies to the compound of all names it asks for.** -/
theorem exists_unifySelection {selection : List Substitute} (h : ∀ o ∈ selection, o.IsClassy)
    (nonempty : selection ≠ []) :
    ∃ names, ExtendContext.unifySelection selection = some [classRow names] ∧
      ∀ name, name ∈ names ↔ name ∈ namesOf selection := by
  obtain ⟨kept, brought, hkept, hbrought, asked, filled⟩ := exists_parts h
  have rows : ∀ first rest,
      ExtendContext.unifySelection selection = unifyRows ((first :: rest).map classRow) →
      (∀ name, name ∈ namesOf selection ↔ ∃ names ∈ first :: rest, name ∈ names) →
      ∃ names, ExtendContext.unifySelection selection = some [classRow names] ∧
        ∀ name, name ∈ names ↔ name ∈ namesOf selection := by
    intro first rest unified same
    refine ⟨joinNames first rest, unified.trans (unifyRows_classes first rest), fun name => ?_⟩
    rw [mem_joinNames, same]
  cases kept with
  | nil =>
    obtain ⟨first, rest, rfl⟩ :=
      List.exists_cons_of_ne_nil ((filled nonempty).resolve_left (by simp))
    refine rows first rest ?_ (by simpa using asked)
    rw [ExtendContext.unifySelection, hkept, hbrought]
    rfl
  | cons name kept =>
    refine rows (name :: kept) brought ?_ (by simpa using asked)
    rw [ExtendContext.unifySelection, hkept, hbrought]
    rfl

/-- A selection kept as it is gives the compound of its names. -/
theorem keptSelection_classes {selection : List Substitute} (h : ∀ o ∈ selection, o.IsClassy) :
    ExtendContext.keptSelection selection = some [classRow (namesOf selection)] := by
  have last : ∀ o ∈ selection, o.complex.lastCompound?.getD [] = classes o.complex.classNames := by
    intro o ho
    rw [Complex.lastCompound?, (h o ho).compound.items_eq]
    rfl
  rw [ExtendContext.keptSelection, List.flatMap_congr last, classRow, namesOf, classes,
    List.map_flatMap]
  rfl

namespace ExtendContext

variable {ctx : ExtendContext} {choices : List (List Substitute)}

/-- Each selection gives one selector, which asks for the selection's names. -/
theorem exists_complexesOf (ctx : ExtendContext) {selection : List Substitute}
    (h : ∀ o ∈ selection, o.IsClassy) {names : List String}
    (asked : ∀ name, name ∈ names ↔ name ∈ namesOf selection) :
    ∃ c, ctx.complexesOf selection (some [classRow names]) = .ok (some [c]) ∧ Asks selection c := by
  have allowed : selection.forM (Substitute.checkMedia ctx.media) = .ok () :=
    forM_checkMedia fun o ho => (h o ho).media ctx.media
  refine ⟨⟨classRow names, selection.any (·.complex.lineBreak)⟩, ?_, ⟨names, rfl⟩, fun name => ?_⟩
  · rw [complexesOf, allowed]
    rfl
  · rw [classNames_of_items (c := ⟨classRow names, _⟩) rfl, asked]

/-- Every selection gives one compound, that of the names it asks for. -/
theorem exists_complexesOfSelections (filled : choices ≠ [])
    (h : ∀ choice ∈ choices, ∀ o ∈ choice, o.IsClassy) :
    ∃ found, ctx.complexesOfSelections choices = .ok found ∧
      List.Forall₂ (fun selection part => ∃ c, part = some [c] ∧ Asks selection c)
        (selections choices) found := by
  have each : ∀ p ∈ ctx.candidates choices, ∃ part, ctx.complexesOf p.1 p.2 = .ok part ∧
      ∃ c, part = some [c] ∧ Asks p.1 c := by
    intro p hp
    obtain ⟨mem, given⟩ := mem_candidates hp
    have classy := forall_mem_of_mem_selections h mem
    rcases given with eq | ⟨-, -, eq⟩
    · have nonempty : p.1 ≠ [] := fun empty => by
        rw [empty, mem_selections, List.forall₂_nil_left_iff] at mem
        exact filled mem
      obtain ⟨names, hnames, asked⟩ := exists_unifySelection classy nonempty
      obtain ⟨c, hc, asks⟩ := exists_complexesOf ctx classy asked
      exact ⟨some [c], by rw [eq, hnames, hc], c, rfl, asks⟩
    · obtain ⟨c, hc, asks⟩ := exists_complexesOf ctx classy fun _ => Iff.rfl
      exact ⟨some [c], by rw [eq, keptSelection_classes classy, hc], c, rfl, asks⟩
  obtain ⟨found, hfound, parts⟩ := exists_mapM_ok each
  refine ⟨found, (ctx.complexesOfSelections_eq choices).trans hfound, ?_⟩
  rw [← ctx.map_fst_candidates choices, List.forall₂_map_left_iff]
  exact parts

/-- **What a compound becomes, by its selections**: each choice is one, and each selection
has a choice above it. -/
theorem exists_complexesOfChoices (filled : choices ≠ [])
    (h : ∀ choice ∈ choices, ∀ o ∈ choice, o.IsClassy) (own : Bool) :
    ∃ found, ctx.complexesOfChoices own choices = .ok found ∧
      (∀ c ∈ found, ∃ selection ∈ selections choices, Asks selection c) ∧
      ∀ selection ∈ selections choices, ∃ c ∈ found, c.classNames ⊆ namesOf selection := by
  unfold complexesOfChoices
  split
  · -- a single choice is not unified with anything, and not trimmed
    rename_i only
    rw [List.forall_mem_singleton] at h
    have single : ∀ o, namesOf [o] = o.complex.classNames := by simp [namesOf]
    refine ⟨only.map Substitute.complex, mapM_ok fun o ho => ?_, fun c hc => ?_,
      fun selection mem => ?_⟩
    · rw [(h o ho).media]
      rfl
    · obtain ⟨o, ho, rfl⟩ := List.mem_map.1 hc
      refine ⟨[o], mem_selections.2 (.cons ho .nil), (h o ho).compound, fun name => ?_⟩
      rw [single]
    · obtain ⟨o, rest, ho, hrest, rfl⟩ := List.forall₂_cons_right_iff.1 (mem_selections.1 mem)
      obtain rfl := List.forall₂_nil_right_iff.1 hrest
      exact ⟨o.complex, List.mem_map_of_mem ho, by rw [single]; exact List.Subset.refl _⟩
  · obtain ⟨found, hfound, parts⟩ := exists_complexesOfSelections filled h
    rw [hfound]
    have asked : ∀ c ∈ found.flatMap (·.getD []),
        ∃ selection ∈ selections choices, Asks selection c := by
      intro c hc
      obtain ⟨l, hl, hc⟩ := mem_flatMap_getD.1 hc
      obtain ⟨selection, mem, d, eq, asks⟩ := exists_mem_of_forall₂ parts.flip hl
      obtain rfl := Option.some.inj eq
      obtain rfl := List.mem_singleton.1 hc
      exact ⟨selection, mem, asks⟩
    have areClasses : AreClassCompounds (found.flatMap (·.getD [])) := fun c hc =>
      have ⟨_, _, asks⟩ := asked c hc
      asks.1
    refine ⟨_, rfl, fun c hc => asked c (mem_of_mem_trim hc), fun selection mem => ?_⟩
    obtain ⟨part, hpart, d, rfl, asks⟩ := exists_mem_of_forall₂ parts mem
    obtain ⟨c, hc, above⟩ := exists_subset_trim areClasses
      (mem_flatMap_getD.2 ⟨[d], hpart, List.mem_singleton_self d⟩) ctx.sources _
    exact ⟨c, hc, fun name hname => (asks.2 name).1 (above hname)⟩

end ExtendContext

end SelectorAlgebra
