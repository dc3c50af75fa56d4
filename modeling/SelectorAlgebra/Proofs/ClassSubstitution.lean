import SelectorAlgebra.Proofs.ClassCompounds
import SelectorAlgebra.Proofs.MetTargets

/-!
# Proofs/ClassSubstitution — extending compounds of classes is a substitution

Outside a style sheet, let compounds of classes extend a compound of classes.  The list
`l.substituted source target` has the selectors of `l`, and each of them that has all names of the
target with these taken out and the names of a choice of the source put in.

`extend_equiv_substituted` says that extending gives that list, up to selectors that others are
above.  A selection that replaces only some conditions of the target, or replaces them by different
choices of the source, is below one that replaces all of them by one choice
(`subset_namesOf_of_selection`); and a compound that has only some conditions of the target is left
alone (`enoughTargets_classes`).
-/

namespace SelectorAlgebra

/-! ## The choices for a compound of classes -/

/-- Where the conditions of the target are all to be met, and the choices of `source` extend
each. -/
def substitution (source : SelectorList) (target : List String) (span : Span) : ExtendContext :=
  ⟨.allTargets, .empty, extensionsOf source (classes target) span, none⟩

section Choices

variable {source : SelectorList} {target names : List String} {span : Span} {name : String}

/-- The table of one substitution lists the target's classes, each with the source's choices as
extenders. -/
theorem extensionsOf_classes : extensionsOf source (classes target) span
    = .ofList
      (target.map fun name => (.className name, extendersOf source (.className name) span)) := by
  rw [extensionsOf, classes, List.map_map]
  rfl

/-- A class has extenders in it when it is in the target. -/
theorem get?_extensionsOf : (extensionsOf source (classes target) span).get? (.className name)
    = if name ∈ target then some (extendersOf source (.className name) span) else none := by
  rw [extensionsOf_classes]
  split
  · rename_i mem
    obtain ⟨e, he, same, found⟩ := OrderedMap.exists_get?_ofList
      (List.mem_map_of_mem
        (f := fun name => (Simple.className name, extendersOf source (.className name) span)) mem)
    obtain ⟨name', -, rfl⟩ := List.mem_map.1 he
    obtain rfl : name' = name := by simpa using same
    exact found
  · rename_i other
    rw [OrderedMap.ofList, OrderedMap.get?_insertAll, List.find?_eq_none.2]
    · rfl
    · intro e he same
      obtain ⟨name', mem, rfl⟩ := List.mem_map.1 (List.mem_reverse.1 he)
      obtain rfl : name' = name := by simpa using same
      exact other mem

/-- Each extension of a class is by a choice of the source, and holds everywhere. -/
theorem extender_of_mem_extendersOf {e : Extension}
    (h : e ∈ (extendersOf source (.className name) span).values) :
    e.extender ∈ source ∧ e.asRule.media = none := by
  have put := (OrderedMap.mem_values_insertAll h).resolve_left
    (by simp [OrderedMap.empty, OrderedMap.values])
  obtain ⟨entry, mem, rfl⟩ := List.mem_map.1 put
  obtain ⟨c, hc, rfl⟩ := List.mem_map.1 mem
  exact ⟨hc, rfl⟩

/-- Each choice of the source extends the class, or an equivalent one does. -/
theorem exists_extender_classNames (hs : AreClassCompounds source) {c : Complex} (hc : c ∈ source)
    (span : Span) (name : String) :
    ∃ e ∈ (extendersOf source (.className name) span).values,
      e.extender.classNames = c.classNames := by
  obtain ⟨e, he, mem, same⟩ := exists_extender_of_mem hc (.className name) span
  exact ⟨e, he, classNames_congr (hs _ mem) (hs c hc) same⟩

/-- What may stand for a class. -/
abbrev classOptions (source : SelectorList) (target : List String) (span : Span) (name : String) :
    List Substitute :=
  (substitution source target span).optionsFor (.className name)

/-- The substitutes for a class: itself, and the extenders if it is in the target. -/
theorem substitutes?_className : (substitution source target span).substitutes? (.className name)
    = if name ∈ target then some (.kept (classes [name]) ::
        (extendersOf source (.className name) span).values.map .extended) else none := by
  rw [ExtendContext.substitutes?, substitution, get?_extensionsOf]
  by_cases mem : name ∈ target <;> simp [mem, classes]

theorem classOptions_eq : classOptions source target span name
    = .kept (classes [name]) :: if name ∈ target then
        (extendersOf source (.className name) span).values.map .extended else [] := by
  rw [classOptions, ExtendContext.optionsFor, substitutes?_className]
  split <;> rfl

theorem kept_mem_classOptions : .kept (classes [name]) ∈ classOptions source target span name := by
  rw [classOptions_eq]
  exact List.mem_cons_self

@[simp] theorem classNames_kept (names : List String) :
    (Substitute.kept (classes names)).complex.classNames = names :=
  classNames_ofCompound names

theorem isClassy_kept (filled : names ≠ []) : (Substitute.kept (classes names)).IsClassy :=
  ⟨⟨names, rfl⟩, fun _ => rfl,
    fun bare => filled (List.map_eq_nil_iff.1 (Substitute.kept.inj bare))⟩

/-- A class stands for itself, or a choice of the source does for one of the target. -/
theorem mem_classOptions_cases {o : Substitute} (h : o ∈ classOptions source target span name) :
    o = .kept (classes [name]) ∨ name ∈ target ∧ ∃ e : Extension, o = .extended e ∧
      e.extender ∈ source ∧ e.asRule.media = none := by
  rw [classOptions_eq] at h
  refine (List.mem_cons.1 h).imp_right fun h => ?_
  split at h
  · rename_i mem
    obtain ⟨e, he, rfl⟩ := List.mem_map.1 h
    exact ⟨mem, e, rfl, extender_of_mem_extendersOf he⟩
  · cases h

theorem isClassy_of_mem_classOptions (hs : AreClassCompounds source) {o : Substitute}
    (h : o ∈ classOptions source target span name) : o.IsClassy := by
  rcases mem_classOptions_cases h with rfl | ⟨-, e, rfl, he, media⟩
  · exact isClassy_kept (by simp)
  · refine ⟨hs _ he, fun m => ?_, by simp⟩
    rw [Substitute.checkMedia, ExtendRule.checkMedia, media]

/-- The names of a compound with those of the target taken out and others put in. -/
def exchange (target names added : List String) : List String := names.filter (· ∉ target) ++ added

theorem mem_exchange {added : List String} :
    name ∈ exchange target names added ↔ name ∈ names ∧ name ∉ target ∨ name ∈ added := by
  simp [exchange]

/-- A class of the target may become a choice of the source, and any other class stays. -/
theorem exists_classOptions (hs : AreClassCompounds source) {c : Complex} (hc : c ∈ source)
    (span : Span) (mem : name ∈ names) : ∃ o ∈ classOptions source target span name,
      o.complex.classNames ⊆ exchange target names c.classNames := by
  by_cases targeted : name ∈ target
  · obtain ⟨e, he, same⟩ := exists_extender_classNames hs hc span name
    refine ⟨.extended e, ?_, fun x hx => mem_exchange.2 (.inr (same ▸ hx))⟩
    rw [classOptions_eq, if_pos targeted]
    exact List.mem_cons_of_mem _ (List.mem_map_of_mem he)
  · refine ⟨_, kept_mem_classOptions, ?_⟩
    rw [classNames_kept]
    exact List.cons_subset.2 ⟨mem_exchange.2 (.inl ⟨mem, targeted⟩), List.nil_subset _⟩

/-- The classes before the first one of the target. -/
def classesBefore (target names : List String) : List String := names.takeWhile (· ∉ target)

/-- The choices for a compound of classes. -/
def classChoices (source : SelectorList) (target : List String) (span : Span)
    (names : List String) :
    List (List Substitute) :=
  (if (classesBefore target names).isEmpty then []
    else [[.kept (classes (classesBefore target names))]]) ++
    (names.dropWhile (· ∉ target)).map (classOptions source target span)

/-- A class is untouched when it is not in the target. -/
theorem isNone_choicesFor_className :
    ((substitution source target span).choicesFor (.className name, none)).isNone
      = decide (name ∉ target) := by
  show (((substitution source target span).substitutes? (.className name)).map ([·])).isNone = _
  rw [substitutes?_className]
  by_cases mem : name ∈ target <;> simp [mem]

/-- The conditions of a compound of classes, none of which has an argument to extend. -/
def classParts (names : List String) : List (Simple × Option (List Simple)) :=
  names.map fun name => (.className name, none)

/-- A compound of classes has choices if one of them is of the target. -/
theorem compoundChoices_classes :
    (substitution source target span).compoundChoices (classParts names)
    = if ∃ name ∈ names, name ∈ target then some (classChoices source target span names)
      else none := by
  have untouched : (fun part => ((substitution source target span).choicesFor part).isNone) ∘
      (fun name => (.className name, none)) = fun name => decide (name ∉ target) := by
    funext name
    exact isNone_choicesFor_className
  have each : ∀ name, ((substitution source target span).choicesFor (.className name, none)).getD
      [[.kept [.className name]]] = [classOptions source target span name] := fun name =>
    ExtendContext.choicesFor_getD _ (.className name, none)
  rw [ExtendContext.compoundChoices, classParts]
  simp only [List.takeWhile_map, List.dropWhile_map, untouched]
  cases rest : names.dropWhile fun name => decide (name ∉ target) with
  | nil =>
    have others : ¬ ∃ name ∈ names, name ∈ target := by
      simpa using List.dropWhile_eq_nil_iff.1 rest
    rw [if_neg others]
    rfl
  | cons name rest' =>
    have meets : ∃ name ∈ names, name ∈ target := by
      by_contra untargeted
      rw [List.dropWhile_eq_nil_iff.2 (by simpa using untargeted)] at rest
      cases rest
    have choices : (classParts (name :: rest')).flatMap (fun part =>
        ((substitution source target span).choicesFor part).getD [[.kept [part.1]]])
          = (name :: rest').map (classOptions source target span) := by
      rw [classParts, List.flatMap_map, List.map_eq_flatMap]
      exact List.flatMap_congr fun name _ => each name
    have before : (classParts (classesBefore target names)).map Prod.fst
        = classes (classesBefore target names) := by
      rw [classParts, List.map_map]
      rfl
    have empty : (classes (classesBefore target names)).isEmpty
        = (classesBefore target names).isEmpty := List.isEmpty_map
    rw [if_pos meets, classChoices, rest, ← choices, ← empty, ← before]
    rfl

/-- Every choice is what stands before the target, or the options for one class. -/
theorem mem_classChoices {choice : List Substitute}
    (h : choice ∈ classChoices source target span names) :
    (classesBefore target names ≠ [] ∧ choice = [.kept (classes (classesBefore target names))]) ∨
      ∃ name ∈ names, choice = classOptions source target span name := by
  rcases List.mem_append.1 h with h | h
  · split at h
    · cases h
    · rename_i filled
      exact .inl ⟨by simpa using filled, List.mem_singleton.1 h⟩
  · obtain ⟨name, mem, rfl⟩ := List.mem_map.1 h
    exact .inr ⟨name, (List.dropWhile_suffix _).subset mem, rfl⟩

/-- Every class is among those before the target, or has a choice of its own. -/
theorem exists_classChoice (h : name ∈ names) :
    (name ∈ classesBefore target names ∧ [.kept (classes (classesBefore target names))] ∈
      classChoices source target span names) ∨
      classOptions source target span name ∈ classChoices source target span names := by
  rw [← List.takeWhile_append_dropWhile (p := (· ∉ target)) (l := names), List.mem_append] at h
  rcases h with h | h
  · refine .inl ⟨h, List.mem_append_left _ ?_⟩
    have filled : (classesBefore target names).isEmpty = false :=
      List.isEmpty_eq_false_iff.2 (List.ne_nil_of_mem h)
    simp [filled]
  · exact .inr (List.mem_append_right _ (List.mem_map_of_mem h))

theorem mem_classesBefore (h : name ∈ classesBefore target names) : name ∈ names ∧ name ∉ target :=
  ⟨(List.takeWhile_prefix _).subset h, by simpa using List.mem_takeWhile_imp h⟩

theorem isClassy_of_mem_classChoices (hs : AreClassCompounds source) {choice : List Substitute}
    (h : choice ∈ classChoices source target span names) : ∀ o ∈ choice, o.IsClassy := by
  rcases mem_classChoices h with ⟨filled, rfl⟩ | ⟨name, -, rfl⟩
  · rw [List.forall_mem_singleton]
    exact isClassy_kept filled
  · exact fun o => isClassy_of_mem_classOptions hs

/-! ## What the selections ask for -/

theorem mem_namesOf {selection : List Substitute} :
    name ∈ namesOf selection ↔ ∃ o ∈ selection, name ∈ o.complex.classNames :=
  List.mem_flatMap

/-- If each choice has a member within `asked`, some selection is within it. -/
theorem exists_selection {asked : List String} {choices : List (List Substitute)}
    (h : ∀ choice ∈ choices, ∃ o ∈ choice, o.complex.classNames ⊆ asked) :
    ∃ selection ∈ selections choices, namesOf selection ⊆ asked := by
  obtain ⟨selection, mem, parts⟩ := exists_mem_selections h
  refine ⟨selection, mem, fun name hname => ?_⟩
  obtain ⟨o, ho, hname⟩ := mem_namesOf.1 hname
  exact parts o ho hname

/-- Some selection asks for the compound itself. -/
theorem exists_selection_kept :
    ∃ selection ∈ selections (classChoices source target span names),
      namesOf selection ⊆ names := by
  refine exists_selection fun choice hchoice => ?_
  rcases mem_classChoices hchoice with ⟨-, rfl⟩ | ⟨name, mem, rfl⟩
  · refine ⟨_, List.mem_singleton_self _, ?_⟩
    rw [classNames_kept]
    exact fun name h => (mem_classesBefore h).1
  · refine ⟨_, kept_mem_classOptions, ?_⟩
    rw [classNames_kept]
    exact List.cons_subset.2 ⟨mem, List.nil_subset _⟩

/-- Some selection has all of the target replaced by one choice of the source. -/
theorem exists_selection_exchange (hs : AreClassCompounds source) {c : Complex} (hc : c ∈ source) :
    ∃ selection ∈ selections (classChoices source target span names),
      namesOf selection ⊆ exchange target names c.classNames := by
  refine exists_selection fun choice hchoice => ?_
  rcases mem_classChoices hchoice with ⟨-, rfl⟩ | ⟨name, mem, rfl⟩
  · refine ⟨_, List.mem_singleton_self _, ?_⟩
    rw [classNames_kept]
    exact fun name h => mem_exchange.2 (.inl (mem_classesBefore h))
  · exact exists_classOptions hs hc span mem

/-- A class is asked for, unless it is of the target and something replaces it. -/
theorem mem_namesOf_or_extended {selection : List Substitute}
    (h : selection ∈ selections (classChoices source target span names)) (mem : name ∈ names) :
    name ∈ namesOf selection ∨ name ∈ target ∧ ∃ e : Extension, .extended e ∈ selection := by
  have parts := (mem_selections.1 h).flip
  rcases exists_classChoice mem with ⟨before, hchoice⟩ | hchoice
  · obtain ⟨o, ho, option⟩ := exists_mem_of_forall₂ parts hchoice
    obtain rfl := List.mem_singleton.1 option
    exact .inl (mem_namesOf.2 ⟨_, ho, by rwa [classNames_kept]⟩)
  · obtain ⟨o, ho, option⟩ := exists_mem_of_forall₂ parts hchoice
    rcases mem_classOptions_cases option with rfl | ⟨targeted, e, rfl, -⟩
    · exact .inl
        (mem_namesOf.2 ⟨_, ho, by rw [classNames_kept]; exact List.mem_singleton_self name⟩)
    · exact .inr ⟨targeted, e, ho⟩

/-- What replaces a class is a choice of the source. -/
theorem extender_mem_of_selection {selection : List Substitute} {e : Extension}
    (h : selection ∈ selections (classChoices source target span names))
    (he : .extended e ∈ selection) : e.extender ∈ source := by
  obtain ⟨choice, hchoice, option⟩ := exists_mem_of_forall₂ (mem_selections.1 h) he
  rcases mem_classChoices hchoice with ⟨-, rfl⟩ | ⟨name, -, rfl⟩
  · cases List.mem_singleton.1 option
  · rcases mem_classOptions_cases option with kept | ⟨-, e', same, mem, -⟩
    · cases kept
    · exact Substitute.extended.inj same ▸ mem

/-- **A selection asks for all of the compound, or for all that is left of it without the target and
all of a choice of the source.** -/
theorem subset_namesOf_of_selection {selection : List Substitute}
    (h : selection ∈ selections (classChoices source target span names)) :
    names ⊆ namesOf selection ∨
      ∃ c ∈ source, exchange target names c.classNames ⊆ namesOf selection := by
  by_cases replaced : ∃ e : Extension, .extended e ∈ selection
  · obtain ⟨e, he⟩ := replaced
    refine .inr ⟨e.extender, extender_mem_of_selection h he, fun name hname => ?_⟩
    rcases mem_exchange.1 hname with ⟨mem, other⟩ | added
    · exact (mem_namesOf_or_extended h mem).resolve_right fun targeted => other targeted.1
    · exact mem_namesOf.2 ⟨_, he, added⟩
  · exact .inl fun name mem => (mem_namesOf_or_extended h mem).resolve_right fun targeted =>
      replaced targeted.2

/-! ## Enough of the target -/

/-- **Enough of a target of classes is met if all of it is**, by a compound that meets any of it. -/
theorem enoughTargets_classes (meets : ∃ name ∈ names, name ∈ target) :
    (substitution source target span).enoughTargets (classParts names) = true ↔ target ⊆ names := by
  have parts : classParts names = (classes names).map fun s => (s, none) := by
    rw [classParts, classes, List.map_map]
    rfl
  have met : ∃ s ∈ classes names, (classes target).contains s = true := by
    obtain ⟨name, mem, targeted⟩ := meets
    exact ⟨.className name, List.mem_map_of_mem mem, by simpa using targeted⟩
  rw [parts, substitution, enoughTargets_iff (by simp) met, classes, List.forall_mem_map]
  simp only [contains_classes, List.contains_iff_mem]
  rfl

end Choices

/-! ## What a compound of classes becomes -/

/-- The selectors stand for a compound of classes: for itself, and with the target replaced. -/
structure Becomes (source : SelectorList) (target names : List String) (l : List Complex) :
    Prop where
  areClasses : AreClassCompounds l
  whole : target ⊆ names
  above : ∀ d ∈ l, names ⊆ d.classNames ∨
    ∃ c ∈ source, exchange target names c.classNames ⊆ d.classNames
  itself : ∃ d ∈ l, d.classNames ⊆ names
  replaced : ∀ c ∈ source, ∃ d ∈ l, d.classNames ⊆ exchange target names c.classNames

namespace ExtendContext

variable {inner : SelectorList → Extending (Option SelectorList)} {authored : List Complex}
  {source : SelectorList} {target names : List String} {span : Span}

/-- Classes have no arguments to extend. -/
theorem mapM_extendArgument_classes (names : List String) :
    ((classes names).mapM fun s => do return (s, ← s.extendArgument inner) : Extending _)
      = pure (classParts names) := by
  induction names with
  | nil => rfl
  | cons name names ih =>
    have step := congrArg
      (fun rest : Extending _ => do return (Simple.className name, none) :: (← rest)) ih
    exact (List.mapM_cons ..).trans step

/-- A compound with the whole target becomes what `Becomes` describes. -/
theorem exists_becomes (hs : AreClassCompounds source) (meets : ∃ name ∈ names, name ∈ target)
    (whole : target ⊆ names) (span : Span) (own : Bool) :
    ∃ found, (substitution source target span).complexesOfChoices own
      (classChoices source target span names) = .ok found ∧ Becomes source target names found := by
  have filled : classChoices source target span names ≠ [] := by
    obtain ⟨name, mem, -⟩ := meets
    rcases exists_classChoice mem with ⟨-, h⟩ | h
    · exact List.ne_nil_of_mem h
    · exact List.ne_nil_of_mem h
  obtain ⟨found, hfound, asked, reached⟩ := exists_complexesOfChoices
    filled (fun choice => isClassy_of_mem_classChoices hs) own
  have reached' : ∀ {names'}, (∃ selection ∈ selections (classChoices source target span names),
      namesOf selection ⊆ names') → ∃ d ∈ found, d.classNames ⊆ names' := by
    rintro names' ⟨selection, mem, sub⟩
    obtain ⟨d, hd, sub'⟩ := reached selection mem
    exact ⟨d, hd, List.Subset.trans sub' sub⟩
  refine ⟨found, hfound, fun d hd => ?_, whole, fun d hd => ?_, reached' exists_selection_kept,
    fun c hc => reached' (exists_selection_exchange hs hc)⟩
  · obtain ⟨selection, -, asks⟩ := asked d hd
    exact asks.1
  · obtain ⟨selection, mem, asks⟩ := asked d hd
    have sub : namesOf selection ⊆ d.classNames := fun name h => (asks.2 name).2 h
    refine (subset_namesOf_of_selection mem).imp (fun h => List.Subset.trans h sub) ?_
    rintro ⟨c, hc, h⟩
    exact ⟨c, hc, List.Subset.trans h sub⟩

/-- **A compound of classes that has all of the target becomes itself, and that with the target
replaced**; any other stays. -/
theorem extendCompound_classes (hs : AreClassCompounds source) (own : Bool) :
    Yields ((substitution source target span).extendCompound inner own (classes names)) authored
      fun found _ => (found = none → target ⊆ names → target = []) ∧
        ∀ l, found = some l → Becomes source target names l := by
  rw [extendCompound, mapM_extendArgument_classes, pure_bind, compoundChoices_classes]
  by_cases meets : ∃ name ∈ names, name ∈ target
  · rw [if_pos meets]
    dsimp only
    by_cases whole : target ⊆ names
    · rw [if_pos ((enoughTargets_classes meets).2 whole)]
      obtain ⟨found, hfound, becomes⟩ := exists_becomes hs meets whole span own
      refine (Yields.ofOk (Q := fun found _ => Becomes source target names found)
        hfound becomes).bind fun found _ h => .pure ⟨?_, ?_⟩
      · rintro ⟨⟩
      · rintro l ⟨⟩
        exact h
    · rw [if_neg fun enough => whole ((enoughTargets_classes meets).1 enough)]
      refine .pure ⟨fun _ h => absurd h whole, ?_⟩
      rintro l ⟨⟩
  · rw [if_neg meets]
    refine .pure ⟨fun _ whole => List.eq_nil_iff_forall_not_mem.2 fun name mem => ?_, ?_⟩
    · exact meets ⟨name, whole mem, mem⟩
    · rintro l ⟨⟩

end ExtendContext

/-! ## Lists of compounds of classes -/

/-- The selectors of `l`, and those of them that have all of the target with it replaced by each
choice of `source`. -/
def SelectorList.substituted (l source : SelectorList) (target : List String) : SelectorList :=
  l ++ (l.filter (target ⊆ ·.classNames)).flatMap fun c =>
    source.map fun s => .ofCompound (classes (exchange target c.classNames s.classNames))

/-- The list has selectors above all that the substitution gives, and none that is not below one. -/
structure IsSubstitution (source : SelectorList) (target : List String) (l found : SelectorList) :
    Prop where
  areClasses : AreClassCompounds found
  reaches : ∀ d ∈ l.substituted source target, ∃ c ∈ found, c.classNames ⊆ d.classNames
  within : ∀ d ∈ found, ∃ c ∈ l.substituted source target, c.classNames ⊆ d.classNames

section IsSubstitution

variable {source l l' found found' : SelectorList} {target : List String}

/-- What substitution on names gives: the old choices, and one exchange for each choice and each
source. -/
theorem mem_substituted {d : Complex} : d ∈ l.substituted source target ↔
    d ∈ l ∨ ∃ c ∈ l, target ⊆ c.classNames ∧ ∃ s ∈ source,
      .ofCompound (classes (exchange target c.classNames s.classNames)) = d := by
  simp [SelectorList.substituted, and_assoc]

theorem isSubstitution_nil : IsSubstitution source target [] [] :=
  ⟨nofun, by simp [SelectorList.substituted], nofun⟩

/-- Only the empty list has nothing above it. -/
theorem IsSubstitution.eq_nil (h : IsSubstitution source target l []) : l = [] := by
  refine List.eq_nil_iff_forall_not_mem.2 fun c hc => ?_
  obtain ⟨_, mem, -⟩ := h.reaches c (mem_substituted.2 (.inl hc))
  cases mem

theorem IsSubstitution.append (h : IsSubstitution source target l found)
    (h' : IsSubstitution source target l' found') :
    IsSubstitution source target (l ++ l') (found ++ found') := by
  have both : ∀ d, d ∈ (l ++ l').substituted source target ↔
      d ∈ l.substituted source target ∨ d ∈ l'.substituted source target := by
    intro d
    simp only [mem_substituted, List.mem_append, or_and_right, exists_or]
    exact or_or_or_comm
  refine ⟨List.forall_mem_append.2 ⟨h.areClasses, h'.areClasses⟩, fun d hd => ?_, fun d hd => ?_⟩
  · rcases (both d).1 hd with hd | hd
    · obtain ⟨c, hc, sub⟩ := h.reaches d hd
      exact ⟨c, List.mem_append_left _ hc, sub⟩
    · obtain ⟨c, hc, sub⟩ := h'.reaches d hd
      exact ⟨c, List.mem_append_right _ hc, sub⟩
  · rcases List.mem_append.1 hd with hd | hd
    · obtain ⟨c, hc, sub⟩ := h.within d hd
      exact ⟨c, (both c).2 (.inl hc), sub⟩
    · obtain ⟨c, hc, sub⟩ := h'.within d hd
      exact ⟨c, (both c).2 (.inr hc), sub⟩

/-- Trimming drops only choices that another one covers. -/
theorem IsSubstitution.trim (h : IsSubstitution source target l found) (sources : SourceSpecificity)
    (authored : Complex → Bool) : IsSubstitution source target l (trim sources authored found) := by
  refine ⟨fun c hc => h.areClasses c (mem_of_mem_trim hc), fun d hd => ?_,
    fun d hd => h.within d (mem_of_mem_trim hd)⟩
  obtain ⟨c, hc, sub⟩ := h.reaches d hd
  obtain ⟨c', hc', sub'⟩ := exists_subset_trim h.areClasses hc sources authored
  exact ⟨c', hc', List.Subset.trans sub' sub⟩

/-- A selector that nothing replaces. -/
theorem isSubstitution_self {c : Complex} (hc : c.IsClassCompound)
    (empty : target ⊆ c.classNames → target = []) : IsSubstitution source target [c] [c] := by
  refine ⟨List.forall_mem_singleton.2 hc, fun d hd => ⟨c, List.mem_singleton_self c, ?_⟩,
    fun d hd => ⟨d, mem_substituted.2 (.inl hd), List.Subset.refl _⟩⟩
  rcases mem_substituted.1 hd with own | ⟨c', hc', whole, s, -, rfl⟩
  · rw [List.mem_singleton.1 own]
    exact List.Subset.refl _
  · obtain rfl := List.mem_singleton.1 hc'
    rw [classNames_ofCompound, empty whole]
    exact fun name h => mem_exchange.2 (.inl ⟨h, by simp⟩)

/-- A selector that becomes others. -/
theorem Becomes.isSubstitution {c : Complex} {becomes : List Complex}
    (h : Becomes source target c.classNames becomes) (lineBreak : Bool) :
    IsSubstitution source target [c] (breakLines lineBreak becomes) := by
  have broken : ∀ d ∈ becomes, ∃ d' ∈ breakLines lineBreak becomes, d'.classNames = d.classNames :=
    fun d hd => ⟨_, List.mem_map_of_mem hd, rfl⟩
  refine ⟨fun d hd => ?_, fun d hd => ?_, fun d hd => ?_⟩
  · obtain ⟨e, he, rfl⟩ := List.mem_map.1 hd
    exact h.areClasses e he
  · rcases mem_substituted.1 hd with own | ⟨c', hc', -, s, hs, rfl⟩
    · obtain rfl := List.mem_singleton.1 own
      obtain ⟨e, he, sub⟩ := h.itself
      obtain ⟨e', he', same⟩ := broken e he
      exact ⟨e', he', same ▸ sub⟩
    · obtain rfl := List.mem_singleton.1 hc'
      obtain ⟨e, he, sub⟩ := h.replaced s hs
      obtain ⟨e', he', same⟩ := broken e he
      exact ⟨e', he', by rwa [same, classNames_ofCompound]⟩
  · obtain ⟨e, he, rfl⟩ := List.mem_map.1 hd
    rcases h.above e he with sub | ⟨s, hs, sub⟩
    · exact ⟨c, mem_substituted.2 (.inl (List.mem_singleton_self c)), sub⟩
    · refine ⟨_, mem_substituted.2 (.inr ⟨c, List.mem_singleton_self c, h.whole, s, hs, rfl⟩), ?_⟩
      rwa [classNames_ofCompound]

end IsSubstitution

namespace ExtendContext

variable {inner : SelectorList → Extending (Option SelectorList)} {authored : List Complex}
  {source l : SelectorList} {target : List String} {span : Span}

/-- **A list of compounds of classes becomes the substitution in it.** -/
theorem extendListWith_classes (hs : AreClassCompounds source) (hl : AreClassCompounds l) :
    Yields ((substitution source target span).extendListWith inner l) authored fun found _ =>
      IsSubstitution source target l (found.getD l) := by
  refine extendListWith_yields isSubstitution_nil (fun h h' => h.append h')
    (fun authored h => h.trim _ authored) (fun empty => ?_) fun c hc authored' => ?_
  · rw [empty.eq_nil]
    exact isSubstitution_nil
  · refine (extendComplexWith_single (hl c hc).items_eq (fun own _ => extendCompound_classes hs own)
      fun found hfound d hd empty => ?_).mono fun part _ hpart => ?_
    · have items := ((hfound.2 found rfl).areClasses d hd).items_eq
      rw [empty] at items
      cases items
    · obtain ⟨part, hpart, rfl⟩ := hpart
      cases part with
      | none => exact isSubstitution_self (hl c hc) (hpart.1 rfl)
      | some becomes => exact (hpart.2 becomes rfl).isSubstitution c.lineBreak

end ExtendContext

/-- A list of compounds of classes is above another when each choice below has a choice above whose
names are among its own. -/
theorem isSuperselector_of_subsets {l m : SelectorList} (hl : AreClassCompounds l)
    (hm : AreClassCompounds m) (h : ∀ d ∈ m, ∃ c ∈ l, c.classNames ⊆ d.classNames) :
    l.isSuperselector m = true := by
  refine List.all_eq_true.2 fun d hd => List.any_eq_true.2 ?_
  obtain ⟨c, hc, sub⟩ := h d hd
  exact ⟨c, hc, (isSuperselector_iff_subset (hl c hc) (hm d hd)).2 sub⟩

theorem areClassCompounds_substituted {l source : SelectorList} (hl : AreClassCompounds l)
    (target : List String) : AreClassCompounds (l.substituted source target) := by
  intro d hd
  rcases mem_substituted.1 hd with own | ⟨c, -, -, s, -, rfl⟩
  · exact hl d own
  · exact ⟨_, rfl⟩

/-- **Extending compounds of classes by compounds of classes gives the substitution**, up to
selectors that others are above. -/
theorem extend_equiv_substituted {l source : SelectorList} {target : Complex}
    (hl : AreClassCompounds l) (hs : AreClassCompounds source) (ht : target.IsClassCompound)
    (span : Span) :
    ∃ r, l.extend source [target] span = .ok r ∧
      SelectorList.isSuperselector r (l.substituted source target.classNames) = true ∧
      SelectorList.isSuperselector (l.substituted source target.classNames) r = true := by
  have targets : SelectorList.compoundTargets [target] = .ok [classes target.classNames] := by
    rw [SelectorList.compoundTargets, List.mapM_cons, Complex.singleCompound?, ht.items_eq]
    rfl
  have run : ∀ authored,
      Yields ([classes target.classNames].foldlM (applyTarget .allTargets source span) l)
      authored fun r _ => IsSubstitution source target.classNames l r := by
    intro authored
    rw [List.foldlM_cons]
    refine Yields.bind (Yields.bind (ExtendContext.extendListWith_classes hs hl)
      fun found _ h => .pure h) fun r _ h => .pure h
  obtain ⟨r, _, hr, h⟩ := run (if l.isInvisible then [] else l.foldl addDistinct [])
  refine ⟨r, ?_,
    isSuperselector_of_subsets h.areClasses (areClassCompounds_substituted hl _) h.reaches,
    isSuperselector_of_subsets (areClassCompounds_substituted hl _) h.areClasses h.within⟩
  rw [SelectorList.extend, applyTargets, targets]
  exact congrArg Prod.fst hr

/-- With `.x` and `.a.y` extending `.a.b`, the list `.a.b.c, .a` is extended to one that is
equivalent to `.a.b.c, .a, .c.x, .c.a.y`. -/
theorem extend_equiv_substituted_pair :
    let l : SelectorList := [.ofCompound (classes ["a", "b", "c"]), .ofCompound (classes ["a"])]
    let source : SelectorList := [.ofCompound (classes ["x"]), .ofCompound (classes ["a", "y"])]
    let target : Complex := .ofCompound (classes ["a", "b"])
    let ref := l ++ [.ofCompound (classes ["c", "x"]), .ofCompound (classes ["c", "a", "y"])]
    l.substituted source target.classNames = ref ∧ ∃ r, l.extend source [target] default = .ok r ∧
      SelectorList.isSuperselector r ref = true ∧ SelectorList.isSuperselector ref r = true := by
  intro l source target ref
  have same : l.substituted source target.classNames = ref := by
    simp [SelectorList.substituted, l, source, target, ref, exchange]
  have hl : AreClassCompounds l := by simp [AreClassCompounds, l]
  have hs : AreClassCompounds source := by simp [AreClassCompounds, source]
  refine ⟨same, ?_⟩
  rw [← same]
  exact extend_equiv_substituted hl hs (isClassCompound_ofCompound _) default

end SelectorAlgebra
