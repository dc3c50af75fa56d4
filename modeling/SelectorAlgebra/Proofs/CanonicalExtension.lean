import Mathlib
import SelectorAlgebra.Proofs.CanonicalWeaving
import SelectorAlgebra.Proofs.Operation

/-!
# Proofs/CanonicalExtension — extending canonical forms

* `extendList_canonical` — extending the canonical form of a list, by extensions whose extenders are
  canonical forms, gives the canonical form of what extending the list gives.

So two tables of extensions that only differ in the forms of their extenders extend a list to
equivalent lists (`extendList_congr`).  The runs are compared step by step: one **mirrors** another
if it gives the canonical form of what that gives, from the canonical forms of the same
author-written selectors.
-/

namespace SelectorAlgebra

/-! ## Mirrored runs -/

/-- From canonical author-written selectors the first run leads to the canonical forms of what the
second leads to; `f` gives the canonical form of a result. -/
def Mirrors {α β : Type} (f : α → β) (m' : Extending β) (m : Extending α) : Prop :=
  ∀ authored, outcomeFrom m' (authored.map Complex.canonical)
    = ((outcomeFrom m authored).1.map f, (outcomeFrom m authored).2.map Complex.canonical)

namespace Mirrors

variable {α β γ δ : Type} {f : α → β} {g : γ → δ} {m' : Extending β} {m : Extending α}

theorem pure {a : α} {b : β} (h : b = f a) :
    Mirrors f (Pure.pure b : Extending β) (Pure.pure a) := fun _ => h ▸ rfl

/-- A step that only computes is mirrored when its result is. -/
theorem ofExcept {e' : Except SelectorError β} {e : Except SelectorError α} (h : e' = e.map f) :
    Mirrors f (Extending.ofExcept e') (Extending.ofExcept e) := fun _ => h ▸ rfl

theorem get : Mirrors (List.map Complex.canonical) (MonadState.get : Extending (List Complex))
    MonadState.get := fun _ => rfl

/-- A change of the authored choices is mirrored when it commutes with canonical forms. -/
theorem change {change' change : List Complex → List Complex}
    (h : ∀ authored, change' (authored.map Complex.canonical)
      = (change authored).map Complex.canonical) :
    Mirrors id (modify change' : Extending Unit) (modify change) := fun authored => by
  show (_, change' (authored.map Complex.canonical)) = _
  rw [h]
  rfl

/-- Mirrored runs compose: the second step starts from the image of what the first returned. -/
theorem bind {k' : β → Extending δ} {k : α → Extending γ} (h : Mirrors f m' m)
    (next : ∀ a, Mirrors g (k' (f a)) (k a)) : Mirrors g (m' >>= k') (m >>= k) := by
  intro authored
  rw [outcomeFrom_bind, h authored, outcomeFrom_bind]
  rcases outcomeFrom m authored with ⟨_ | a, authored'⟩
  · rfl
  · exact next a authored'

/-- Running over a list is mirrored when each step is. -/
theorem mapM {ι κ : Type} {h : ι → κ} {k' : κ → Extending β} {k : ι → Extending α}
    (each : ∀ x, Mirrors f (k' (h x)) (k x)) : ∀ xs : List ι,
    Mirrors (List.map f) ((xs.map h).mapM k') (xs.mapM k)
  | [] => by
    rw [List.map_nil, List.mapM_nil, List.mapM_nil]
    exact pure rfl
  | x :: xs => by
    rw [List.map_cons, List.mapM_cons, List.mapM_cons]
    exact (each x).bind fun a => (mapM each xs).bind fun as => pure rfl

end Mirrors

/-! ## Tables with other values -/

/-- The table with every value changed. -/
def OrderedMap.mapValues {κ ν ν' : Type} (f : ν → ν') (m : OrderedMap κ ν) : OrderedMap κ ν' :=
  ⟨m.entries.map fun e => (e.1, f e.2)⟩

namespace OrderedMap

variable {κ ν ν' : Type} (f : ν → ν') (m : OrderedMap κ ν)

/-- Looking up in a table with changed values changes what is found. -/
theorem get?_mapValues [BEq κ] (k : κ) : (m.mapValues f).get? k = (m.get? k).map f := by
  rw [get?, mapValues, List.find?_map, get?, Option.map_map, Option.map_map]
  rfl

@[simp] theorem contains_mapValues [BEq κ] (k : κ) : (m.mapValues f).contains k = m.contains k := by
  rw [contains, mapValues, List.any_map, contains]
  rfl

@[simp] theorem size_mapValues : (m.mapValues f).size = m.size := List.length_map _

@[simp] theorem values_mapValues : (m.mapValues f).values = m.values.map f := by
  rw [values, mapValues, List.map_map, values, List.map_map]
  rfl

/-- Changing an entry commutes with changing the values when the two changes agree. -/
theorem mapValues_alter [BEq κ] {f : ν → ν'} {change : Option ν → ν} {change' : Option ν' → ν'}
    (h : ∀ old, f (change old) = change' (old.map f)) (m : OrderedMap κ ν) (key : κ) :
    (m.alter key change).mapValues f = (m.mapValues f).alter key change' := by
  obtain ⟨entries⟩ := m
  simp only [alter, mapValues]
  congr 1
  induction entries with
  | nil => simp [alterEntries, h]
  | cons e entries ih =>
    by_cases here : (e.1 == key) = true
    · simp [alterEntries, here, h]
    · simpa [alterEntries, here] using ih

/-- Inserting commutes with changing the values. -/
theorem mapValues_insert [BEq κ] (key : κ) (v : ν) :
    (m.insert key v).mapValues f = (m.mapValues f).insert key (f v) := by
  refine mapValues_alter (fun _ => ?_) m key
  rfl

end OrderedMap

/-! ## Contexts and substitutes -/

/-- What applying an extension hangs on: the canonical form of its extender, and where it may
reach. -/
def Extension.face (e : Extension) : Extension :=
  .rule ⟨e.extender.canonical, default, e.asRule.span, default, e.asRule.media, false, false, 0⟩

/-- The canonical form of what may stand in a place. -/
def Substitute.canonical : Substitute → Substitute
  | .kept conditions => .kept (conditions.map Simple.canonical)
  | .extended e => .extended e.face

/-- The extensions with nothing of each but what applying it hangs on. -/
abbrev ExtensionMap.faces (m : ExtensionMap) : ExtensionMap :=
  m.mapValues (OrderedMap.mapValues Extension.face)

/-- The context with nothing of its extensions but what applying them hangs on. -/
def ExtendContext.canonical (ctx : ExtendContext) : ExtendContext :=
  { ctx with extensions := ctx.extensions.faces }

namespace Substitute

variable (o : Substitute)

@[simp] theorem complex_canonical : o.canonical.complex = o.complex.canonical := by
  cases o with
  | kept conditions => exact (Complex.canonical_ofCompound conditions).symm
  | extended e => rfl

@[simp] theorem keptConditions_canonical :
    o.canonical.keptConditions = o.keptConditions.map Simple.canonical := by
  cases o <;> rfl

@[simp] theorem extenderRow?_canonical :
    o.canonical.extenderRow? = o.extenderRow?.map (List.map Item.canonical) := by
  cases o with
  | kept conditions => rfl
  | extended e => exact congrArg some e.extender.items_canonical

/-- The media check looks only at contexts. -/
@[simp] theorem checkMedia_canonical (media : Option MediaContext) :
    o.canonical.checkMedia media = o.checkMedia media := by
  cases o <;> rfl

end Substitute

/-! ## Arguments -/

namespace Pseudo

variable (p : Pseudo)

/-- Flattening a choice of an argument looks at names and at whether there is one pseudo alone. -/
theorem flattenChoice_canonical (c : Complex) :
    p.canonical.flattenChoice c.canonical = (p.flattenChoice c).map Complex.canonical := by
  unfold flattenChoice
  rw [Complex.singleCompound?_canonical]
  rcases c.singleCompound? with _ | _ | ⟨s, _ | _⟩
  · rfl
  · rfl
  · cases s with
    | pseudo inner =>
      simp only [Option.map_some, List.map_cons, List.map_nil, Simple.canonical_pseudo,
        selector_canonical, kind_canonical, name_canonical, argument_canonical]
      rcases inner.selector with _ | l
      · rfl
      · cases p.kind <;> simp [apply_ite (List.map Complex.canonical)]
    | _ => rfl
  · cases s <;> simp

/-- The new choices of an argument, with the old ones taken out and the rest flattened. -/
theorem choicesFor_canonical (l extended : SelectorList) :
    p.canonical.choicesFor (l.map Complex.canonical) (extended.map Complex.canonical)
      = (p.choicesFor l extended).map Complex.canonical := by
  simp only [choicesFor, kind_canonical, List.any_map, Function.comp_def, Complex.items_canonical,
    List.length_map, List.filter_map]
  split_ifs <;> simp [List.flatMap_map, List.map_flatMap, flattenChoice_canonical]

/-- The pseudos an extended argument is written with. -/
theorem withExtended_canonical (l extended : SelectorList) :
    p.canonical.withExtended (l.map Complex.canonical) (extended.map Complex.canonical)
      = (p.withExtended l extended).map (List.map Pseudo.canonical) := by
  simp only [withExtended, choicesFor_canonical, kind_canonical, List.length_map]
  rcases p.choicesFor l extended with _ | ⟨c, choices⟩
  · rfl
  · simp only [List.map_cons]
    split_ifs <;> simp

end Pseudo

/-- Extending the argument of a condition, over an extension of lists that is mirrored. -/
theorem Simple.extendArgument_canonical
    {inner' inner : SelectorList → Extending (Option SelectorList)}
    (h : ∀ l, Mirrors (Option.map (List.map Complex.canonical)) (inner' (l.map Complex.canonical))
      (inner l))
    (s : Simple) :
    Mirrors (Option.map (List.map canonical)) (s.canonical.extendArgument inner')
      (s.extendArgument inner) := by
  cases s with
  | pseudo p =>
    rw [canonical_pseudo]
    unfold extendArgument
    simp only [Pseudo.selector_canonical]
    rcases p.selector with _ | l
    · exact .pure rfl
    · refine (h l).bind fun extended => ?_
      rcases extended with _ | extended
      · exact .pure rfl
      · refine .pure ?_
        simp only [Pseudo.withExtended_canonical, Option.map_map]
        rcases p.withExtended l extended with _ | ps
        · rfl
        · simp
  | _ => exact .pure rfl

/-! ## Compounds -/

/-- The canonical form of a condition with what replaces it. -/
def canonicalPart (part : Simple × Option (List Simple)) : Simple × Option (List Simple) :=
  (part.1.canonical, part.2.map (List.map Simple.canonical))

/-- The canonical forms of the choices for a compound. -/
abbrev canonicalChoices (choices : List (List Substitute)) : List (List Substitute) :=
  choices.map (List.map Substitute.canonical)

namespace ExtendContext

variable (ctx : ExtendContext)

/-- The extensions of a target, in canonical form. -/
theorem get?_canonical (s : Simple) : ctx.canonical.extensions.get? s.canonical
    = (ctx.extensions.get? s).map (OrderedMap.mapValues Extension.face) := by
  rw [canonical, OrderedMap.get?_mapValues, ctx.extensions.get?_congr s.canonical_beq_self]

theorem contains_canonical (s : Simple) :
    ctx.canonical.extensions.contains s.canonical = ctx.extensions.contains s := by
  rw [OrderedMap.contains_eq_isSome, get?_canonical, Option.isSome_map,
    ← OrderedMap.contains_eq_isSome]

/-- The substitutes for a condition: itself unless it is to be replaced, then its extenders. -/
theorem substitutes?_canonical (s : Simple) : ctx.canonical.substitutes? s.canonical
    = (ctx.substitutes? s).map (List.map Substitute.canonical) := by
  rw [substitutes?, get?_canonical, substitutes?, Option.map_map, Option.map_map]
  refine congrArg (Option.map · _) (funext fun sources => ?_)
  have added : sources.values.map (Substitute.extended ∘ Extension.face)
      = sources.values.map (Substitute.canonical ∘ Substitute.extended) := rfl
  simp only [Function.comp_apply, OrderedMap.values_mapValues, List.map_map, added,
    apply_ite (List.map Substitute.canonical), List.map_cons]
  rfl

/-- The choices for one condition of a compound. -/
theorem choicesFor_canonical (part : Simple × Option (List Simple)) :
    ctx.canonical.choicesFor (canonicalPart part) = (ctx.choicesFor part).map canonicalChoices := by
  obtain ⟨s, _ | replaced⟩ := part
  · simp only [choicesFor, canonicalPart, Option.map_none, substitutes?_canonical, Option.map_map]
    rfl
  · simp only [choicesFor, canonicalPart, Option.map_some, List.map_map]
    refine congrArg some (List.map_congr_left fun t _ => ?_)
    simp only [Function.comp_apply, substitutes?_canonical]
    cases ctx.substitutes? t <;> rfl

/-- The targets a compound meets. -/
theorem targetsMet_canonical (parts : List (Simple × Option (List Simple))) :
    ctx.canonical.targetsMet (parts.map canonicalPart)
      = (ctx.targetsMet parts).map Simple.canonical := by
  have distinct : ∀ conditions found : List Simple,
      (conditions.map Simple.canonical).foldl addDistinct (found.map Simple.canonical)
        = (conditions.foldl addDistinct found).map Simple.canonical := by
    intro conditions
    induction conditions with
    | nil => exact fun _ => rfl
    | cons s conditions ih =>
      intro found
      rw [List.map_cons, List.foldl_cons, addDistinct_map Simple.beq_canonical, ih, List.foldl_cons]
  have conditions : ((parts.map canonicalPart).flatMap fun part => part.2.getD [part.1])
      = (parts.flatMap fun part => part.2.getD [part.1]).map Simple.canonical := by
    rw [List.flatMap_map, List.map_flatMap]
    refine List.flatMap_congr fun part _ => ?_
    obtain ⟨s, _ | replaced⟩ := part <;> rfl
  have met : (ctx.canonical.extensions.contains ∘ Simple.canonical) = ctx.extensions.contains :=
    funext ctx.contains_canonical
  rw [targetsMet, conditions, List.filter_map, met, targetsMet]
  exact distinct _ []

/-- Counting targets gives the same number. -/
theorem enoughTargets_canonical (parts : List (Simple × Option (List Simple))) :
    ctx.canonical.enoughTargets (parts.map canonicalPart) = ctx.enoughTargets parts := by
  have size : ctx.canonical.extensions.size = ctx.extensions.size := OrderedMap.size_mapValues _ _
  rw [enoughTargets, targetsMet_canonical, List.length_map, size, enoughTargets]
  rfl

/-- The choices for a whole compound, with the run of untouched conditions before them. -/
theorem compoundChoices_canonical (parts : List (Simple × Option (List Simple))) :
    ctx.canonical.compoundChoices (parts.map canonicalPart)
      = (ctx.compoundChoices parts).map canonicalChoices := by
  have untouched : (fun part => (ctx.canonical.choicesFor part).isNone) ∘ canonicalPart
      = fun part => (ctx.choicesFor part).isNone := by
    funext part
    simp [choicesFor_canonical]
  have before : ∀ before : List (Simple × Option (List Simple)),
      (before.map canonicalPart).map Prod.fst = (before.map Prod.fst).map Simple.canonical := by
    simp [canonicalPart]
  simp only [compoundChoices, List.takeWhile_map, List.dropWhile_map, untouched, before]
  rcases parts.dropWhile fun part => (ctx.choicesFor part).isNone with _ | ⟨part, rest⟩
  · rfl
  · have choices : ∀ part, (ctx.canonical.choicesFor (canonicalPart part)).getD
        [[.kept [(canonicalPart part).1]]]
        = canonicalChoices ((ctx.choicesFor part).getD [[.kept [part.1]]]) := by
      intro part
      rw [choicesFor_canonical]
      cases ctx.choicesFor part <;> rfl
    simp only [List.map_cons, List.flatMap_cons, List.flatMap_map, choices, Option.map_some,
      List.isEmpty_map, canonicalChoices, List.map_append, List.map_flatMap,
      apply_ite (List.map (List.map Substitute.canonical)), List.map_nil]
    rfl

theorem unifySelection_canonical (selection : List Substitute) :
    unifySelection (selection.map Substitute.canonical)
      = (unifySelection selection).map canonicalRows := by
  have rows : (selection.map Substitute.canonical).filterMap Substitute.extenderRow?
      = canonicalRows (selection.filterMap Substitute.extenderRow?) := by
    rw [List.filterMap_map, canonicalRows, List.map_filterMap]
    exact List.filterMap_congr fun o _ => o.extenderRow?_canonical
  have kept : (selection.map Substitute.canonical).flatMap Substitute.keptConditions
      = (selection.flatMap Substitute.keptConditions).map Simple.canonical := by
    rw [List.flatMap_map, List.map_flatMap]
    exact List.flatMap_congr fun o _ => o.keptConditions_canonical
  simp only [unifySelection, rows, kept]
  rcases selection.flatMap Substitute.keptConditions with _ | ⟨s, conditions⟩
  · exact unifyRows_canonical _
  · exact unifyRows_canonical ([.compound (s :: conditions)] :: _)

theorem keptSelection_canonical (selection : List Substitute) :
    keptSelection (selection.map Substitute.canonical)
      = (keptSelection selection).map canonicalRows := by
  have conditions : ((selection.map Substitute.canonical).flatMap
      fun o => o.complex.lastCompound?.getD [])
      = (selection.flatMap fun o => o.complex.lastCompound?.getD []).map Simple.canonical := by
    rw [List.flatMap_map, List.map_flatMap]
    refine List.flatMap_congr fun o _ => ?_
    rw [Substitute.complex_canonical, Complex.lastCompound?_canonical]
    cases o.complex.lastCompound? <;> rfl
  simp only [keptSelection, conditions]
  rfl

/-- Rows without line breaks are canonical forms. -/
theorem map_mk_canonicalRows (rows : List (List Item)) (lineBreak : Bool) :
    ((canonicalRows rows).filter (!·.isEmpty)).map (Complex.mk · false)
      = ((rows.filter (!·.isEmpty)).map (Complex.mk · lineBreak)).map Complex.canonical := by
  simp only [canonicalRows, List.filter_map, List.map_map, Function.comp_def, List.isEmpty_map]
  exact List.map_congr_left fun row _ => (Complex.canonical_eq ⟨row, lineBreak⟩).symm

/-- The selectors of one selection, after the media check. -/
theorem complexesOf_canonical (selection : List Substitute) (rows : Option (List (List Item))) :
    ctx.canonical.complexesOf (selection.map Substitute.canonical) (rows.map canonicalRows)
      = (ctx.complexesOf selection rows).map (Option.map (List.map Complex.canonical)) := by
  rcases rows with _ | rows
  · rfl
  have media : ∀ selection : List Substitute,
      (selection.map Substitute.canonical).forM (Substitute.checkMedia ctx.media)
      = selection.forM (Substitute.checkMedia ctx.media) := by
    intro selection
    induction selection with
    | nil => rfl
    | cons o selection ih =>
      show (o.canonical.checkMedia ctx.media >>= fun _ =>
        (selection.map Substitute.canonical).forM (Substitute.checkMedia ctx.media)) = _
      rw [Substitute.checkMedia_canonical, ih]
      rfl
  have lineBreak : ((selection.map Substitute.canonical).any fun o => o.complex.lineBreak)
      = false := by
    simp [Complex.canonical]
  have same : ctx.canonical.media = ctx.media := rfl
  simp only [complexesOf, Option.map_some, same, media, lineBreak]
  rcases selection.forM (Substitute.checkMedia ctx.media) with _ | _
  · rfl
  · exact congrArg (Except.ok ∘ some) (map_mk_canonicalRows rows _)

theorem candidates_canonical (choices : List (List Substitute)) :
    ctx.canonical.candidates (canonicalChoices choices)
      = (ctx.candidates choices).map fun p =>
        (p.1.map Substitute.canonical, p.2.map canonicalRows) := by
  have same : ctx.canonical.mode = ctx.mode := rfl
  have unified : ∀ picked : List (List Substitute),
      (picked.map (List.map Substitute.canonical)).map (fun s => (s, unifySelection s))
        = (picked.map fun s => (s, unifySelection s)).map
          fun p => (p.1.map Substitute.canonical, p.2.map canonicalRows) := by
    intro picked
    simp only [List.map_map, Function.comp_def, unifySelection_canonical]
  rw [candidates, candidates, same, selections_map, unified]
  split
  · rfl
  · cases selections choices with
    | nil => rfl
    | cons first rest => simp only [List.map_cons, List.modifyHead_cons, keptSelection_canonical]

/-- The selectors of every selection. -/
theorem complexesOfSelections_canonical (choices : List (List Substitute)) :
    ctx.canonical.complexesOfSelections (canonicalChoices choices)
      = (ctx.complexesOfSelections choices).map
        (List.map (Option.map (List.map Complex.canonical))) := by
  rw [complexesOfSelections_eq, complexesOfSelections_eq, candidates_canonical]
  exact mapM_map (fun p => ctx.complexesOf_canonical p.1 p.2) _

/-- What is left of the selectors found for a compound, with the first one kept if it `stays`. -/
theorem trim_found_canonical (sources : SourceSpecificity) (stays : Bool)
    (found : List (Option (List Complex))) :
    let itself := fun found : List (Option (List Complex)) =>
      if stays then found.head?.join.bind List.head? else none
    let found' := found.map (Option.map (List.map Complex.canonical))
    trim sources (fun c => (itself found').any (· == c)) (found'.flatMap (·.getD []))
      = (trim sources (fun c => (itself found).any (· == c)) (found.flatMap (·.getD []))).map
        Complex.canonical := by
  intro itself found'
  have first : itself found' = (itself found).map Complex.canonical := by
    unfold itself found'
    split
    · rcases found with _ | ⟨_ | _ | _, _⟩ <;> rfl
    · rfl
  have all : found'.flatMap (·.getD []) = (found.flatMap (·.getD [])).map Complex.canonical := by
    rw [List.flatMap_map, List.map_flatMap]
    refine List.flatMap_congr fun part _ => ?_
    cases part <;> rfl
  have same : (fun c => (itself found').any (· == c)) = fun c => (itself found).any (· == c) := by
    funext c
    rw [first, Option.any_map]
    exact congrArg (Option.any · _) (funext fun d => BEq.congr_left d.canonical_beq_self)
  rw [same, all, trim_canonical]
  intro c
  exact congrArg (Option.any · _) (funext fun d => BEq.congr_right c.canonical_beq_self)

/-- The selectors a compound is replaced by, trimmed. -/
theorem complexesOfChoices_canonical (authored : Bool) (choices : List (List Substitute)) :
    ctx.canonical.complexesOfChoices authored (canonicalChoices choices)
      = (ctx.complexesOfChoices authored choices).map (List.map Complex.canonical) := by
  have several : (do
      let found ← ctx.canonical.complexesOfSelections (canonicalChoices choices)
      let itself :=
        if authored && ctx.mode != .replace then found.head?.join.bind List.head? else none
      return trim ctx.sources (fun c => itself.any (· == c)) (found.flatMap (·.getD [])) :
        Except SelectorError _)
      = (do
        let found ← ctx.complexesOfSelections choices
        let itself :=
          if authored && ctx.mode != .replace then found.head?.join.bind List.head? else none
        return trim ctx.sources (fun c => itself.any (· == c)) (found.flatMap (·.getD [])) :
          Except SelectorError _).map (List.map Complex.canonical) := by
    rw [complexesOfSelections_canonical]
    rcases ctx.complexesOfSelections choices with _ | found
    · rfl
    · exact congrArg Except.ok (trim_found_canonical ctx.sources _ found)
  rcases choices with _ | ⟨only, _ | ⟨second, rest⟩⟩
  · exact several
  · refine mapM_map (fun o => ?_) only
    rw [Substitute.checkMedia_canonical, Substitute.complex_canonical]
    show (o.checkMedia ctx.media >>= fun _ => _) = _
    rcases o.checkMedia ctx.media with _ | _ <;> rfl
  · exact several

/-- **Extending a compound is mirrored**, over an extension of arguments that is. -/
theorem extendCompound_canonical {inner' inner : SelectorList → Extending (Option SelectorList)}
    (h : ∀ l, Mirrors (Option.map (List.map Complex.canonical)) (inner' (l.map Complex.canonical))
      (inner l))
    (authored : Bool) (c : Compound) :
    Mirrors (Option.map (List.map Complex.canonical))
      (ctx.canonical.extendCompound inner' authored (c.map Simple.canonical))
      (ctx.extendCompound inner authored c) := by
  refine (Mirrors.mapM (f := canonicalPart) (fun s => ?_) c).bind fun parts => ?_
  · exact (Simple.extendArgument_canonical h s).bind fun replaced => .pure rfl
  rw [compoundChoices_canonical, enoughTargets_canonical]
  rcases ctx.compoundChoices parts with _ | choices
  · exact .pure rfl
  dsimp only [Option.map_some]
  split
  · exact (Mirrors.ofExcept (ctx.complexesOfChoices_canonical authored choices)).bind fun found =>
      .pure rfl
  · exact .pure rfl

/-! ## Complex selectors and lists -/

theorem weaveChoices_canonical (lineBreak : Bool) (choices : List (List Complex)) :
    weaveChoices false (choices.map (List.map Complex.canonical))
      = (weaveChoices lineBreak choices).map Complex.canonical := by
  simp only [weaveChoices, selections_map, List.flatMap_map, List.map_flatMap]
  refine List.flatMap_congr fun path _ => ?_
  have rows : (path.map Complex.canonical).map Complex.items
      = canonicalRows (path.map Complex.items) := by
    simp
  have plain : (path.map Complex.canonical).any Complex.lineBreak = false := by
    simp [Complex.canonical]
  rw [rows, weave_canonical, plain, Bool.or_false]
  exact map_mk_canonicalRows _ _

section Levels

variable {inner' inner : SelectorList → Extending (Option SelectorList)}
  (h : ∀ l, Mirrors (Option.map (List.map Complex.canonical)) (inner' (l.map Complex.canonical))
    (inner l))

include h

/-- One item of a row: a combinator stays, a compound is extended. -/
theorem extendItem_canonical (authored : Bool) (item : Item) :
    Mirrors (Option.map (List.map Complex.canonical))
      (ctx.canonical.extendItem inner' authored item.canonical)
      (ctx.extendItem inner authored item) := by
  cases item with
  | compound c => exact ctx.extendCompound_canonical h authored c
  | combinator k => exact .pure rfl

/-- One complex selector, item by item. -/
theorem extendComplexWith_canonical (c : Complex) :
    Mirrors (Option.map (List.map Complex.canonical))
      (ctx.canonical.extendComplexWith inner' c.canonical) (ctx.extendComplexWith inner c) := by
  refine Mirrors.get.bind fun record => ?_
  rw [contains_map Complex.beq_canonical, Complex.items_canonical]
  refine (Mirrors.mapM (fun item => ctx.extendItem_canonical h (record.contains c) item)
    c.items).bind fun parts => ?_
  have idle : (parts.map (Option.map (List.map Complex.canonical))).all Option.isNone
      = parts.all Option.isNone := by
    simp [Function.comp_def]
  have choices : List.zipWith (fun item part => part.getD [⟨[item], false⟩])
      (c.items.map Item.canonical) (parts.map (Option.map (List.map Complex.canonical)))
      = (List.zipWith (fun item part => part.getD [⟨[item], false⟩]) c.items parts).map
        (List.map Complex.canonical) := by
    rw [List.zipWith_map, List.map_zipWith]
    congr 1
    funext item part
    rcases part with _ | part
    · exact congrArg (fun c => [c]) (Complex.canonical_eq ⟨[item], false⟩).symm
    · rfl
  have woven := weaveChoices_canonical c.lineBreak
    (List.zipWith (fun item part => part.getD [⟨[item], false⟩]) c.items parts)
  rw [← choices] at woven
  have plain : c.canonical.lineBreak = false := rfl
  dsimp only
  rw [idle, plain, woven]
  generalize weaveChoices c.lineBreak
    (List.zipWith (fun item part => part.getD [⟨[item], false⟩]) c.items parts) = result
  split_ifs
  · exact .pure rfl
  · rcases result with _ | ⟨first, rest⟩
    · exact .pure rfl
    · exact (Mirrors.change fun authored =>
        addDistinct_map Complex.beq_canonical authored first).bind fun _ => .pure rfl
  · exact .pure rfl

/-- A list, choice by choice. -/
theorem extendListWith_canonical (l : SelectorList) :
    Mirrors (Option.map (List.map Complex.canonical))
      (ctx.canonical.extendListWith inner' (l.map Complex.canonical))
      (ctx.extendListWith inner l) := by
  refine (Mirrors.mapM (fun c => ctx.extendComplexWith_canonical h c) l).bind fun parts => ?_
  have idle : (parts.map (Option.map (List.map Complex.canonical))).all Option.isNone
      = parts.all Option.isNone := by
    simp [Function.comp_def]
  have extended : (List.zipWith (fun c part => part.getD [c]) (l.map Complex.canonical)
      (parts.map (Option.map (List.map Complex.canonical)))).flatten
      = (List.zipWith (fun c part => part.getD [c]) l parts).flatten.map Complex.canonical := by
    rw [List.zipWith_map, List.map_flatten, List.map_zipWith]
    congr 2
    funext c part
    cases part <;> rfl
  rw [idle, extended]
  split_ifs
  · exact .pure rfl
  refine Mirrors.get.bind fun authored => ?_
  have same : (authored.map Complex.canonical).contains = authored.contains :=
    funext (Complex.contains_map_canonical authored)
  have trimmed := @trim_canonical ctx.sources authored.contains
    (Complex.contains_canonical authored)
    (List.zipWith (fun c part => part.getD [c]) l parts).flatten
  have sources : ctx.canonical.sources = ctx.sources := rfl
  rw [same, sources, trimmed]
  generalize trim ctx.sources authored.contains _ = kept
  cases kept with
  | nil => exact .pure rfl
  | cons c kept => exact .pure rfl

end Levels

/-- Every level of extension is mirrored, by induction on the level. -/
theorem extendListWithin_canonical : ∀ (n : ℕ) (l : SelectorList),
    Mirrors (Option.map (List.map Complex.canonical))
      (ctx.canonical.extendListWithin n (l.map Complex.canonical)) (ctx.extendListWithin n l)
  | 0, _ => .pure rfl
  | n + 1, l => ctx.extendListWith_canonical (extendListWithin_canonical n) l

/-- **Extending canonical forms gives canonical forms.** -/
theorem extendList_canonical (l : SelectorList) :
    Mirrors (Option.map (List.map Complex.canonical))
      (ctx.canonical.extendList (l.map Complex.canonical)) (ctx.extendList l) := by
  rw [extendList, SelectorList.nesting_canonical]
  exact ctx.extendListWithin_canonical _ l

/-- **Extenders in other forms make no difference.**  Extensions that differ in nothing else extend
a list to equivalent lists, or are refused for the same reason. -/
theorem extendList_congr {ctx ctx' : ExtendContext} (same : ctx.canonical = ctx'.canonical)
    (l : SelectorList) (authored : List Complex) :
    (outcomeFrom (ctx.extendList l) authored).1.map (Option.map (List.map Complex.canonical))
      = (outcomeFrom (ctx'.extendList l) authored).1.map
        (Option.map (List.map Complex.canonical)) := by
  have mirrored := ctx.extendList_canonical l authored
  rw [same, ctx'.extendList_canonical l authored] at mirrored
  exact (congrArg Prod.fst mirrored).symm

end ExtendContext

end SelectorAlgebra
