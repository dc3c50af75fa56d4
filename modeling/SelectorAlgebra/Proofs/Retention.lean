import SelectorAlgebra.Extension.OneShot
import SelectorAlgebra.Proofs.Operation
import SelectorAlgebra.Proofs.Sequences
import SelectorAlgebra.Proofs.Tables
import SelectorAlgebra.Proofs.Trimming

/-!
# Proofs/Retention — extending keeps what an author wrote

A selector without selector arguments that an author wrote is among what extending makes of it,
unless it is to be replaced.  It survives on every level:

    condition  may stand for itself
    compound   the first selection keeps every condition, and is not trimmed away
    complex    the weaving of the compounds themselves is the selector itself
    list       what an author wrote is not trimmed away

Everything is said up to equivalence, through `List.contains`.  The record of author-written
selectors only grows, even if extending is given up half way (`Grows`).
-/

namespace SelectorAlgebra

/-! ## Selectors without arguments -/

/-- Whether no condition here has a selector argument. -/
def Item.isFlat : Item → Bool
  | .compound c => c.all fun s => s.argument?.isNone
  | .combinator _ => true

/-- Whether no condition of the selector has a selector argument. -/
def Complex.isFlat (c : Complex) : Bool := c.items.all Item.isFlat

theorem Simple.argument?_canonical (s : Simple) :
    s.canonical.argument?.isNone = s.argument?.isNone := by
  cases s with
  | pseudo p => obtain ⟨name, argument, _ | l⟩ := p <;> rfl
  | _ => rfl

theorem canonicalCompound_eq_map : ∀ c : Compound, canonicalCompound c = c.map Simple.canonical
  | [] => rfl
  | _ :: c => congrArg _ (canonicalCompound_eq_map c)

theorem all_isFlat_canonicalItems (row : List Item) :
    (canonicalItems row).all Item.isFlat = row.all Item.isFlat := by
  induction row with
  | nil => rfl
  | cons item row ih =>
    cases item with
    | compound c =>
      rw [canonicalItems, List.all_cons, List.all_cons, ih, Item.isFlat, Item.isFlat,
        canonicalCompound_eq_map, List.all_map]
      exact congrArg (List.all c · && _) (funext Simple.argument?_canonical)
    | combinator k => rw [canonicalItems, List.all_cons, List.all_cons, ih]

/-- Being flat does not see what equality ignores. -/
theorem Complex.isFlat_congr {c d : Complex} (h : (c == d) = true) : c.isFlat = d.isFlat := by
  have same : canonicalItems c.items = canonicalItems d.items :=
    congrArg Complex.items (Complex.beq_iff.1 h)
  rw [Complex.isFlat, Complex.isFlat, ← all_isFlat_canonicalItems, same, all_isFlat_canonicalItems]

/-! ## The choices for a compound -/

namespace ExtendContext

variable {ctx : ExtendContext}

/-- A condition without an argument has choices exactly when it is a target. -/
theorem choicesFor_isNone_iff {s : Simple} :
    (ctx.choicesFor (s, none)).isNone = true ↔ ctx.extensions.contains s = false := by
  rw [OrderedMap.contains_eq_isSome, Option.isSome_eq_false_iff]
  simp [choicesFor, substitutes?]

/-- The choice for a condition without argument begins with the condition itself. -/
theorem exists_choice (hm : ctx.mode ≠ .replace) (s : Simple) :
    ∃ options, (ctx.choicesFor (s, none)).getD [[.kept [s]]] = [options] ∧
      options.head? = some (.kept [s]) := by
  unfold choicesFor substitutes?
  cases ctx.extensions.get? s with
  | none => exact ⟨_, rfl, rfl⟩
  | some found => exact ⟨_, rfl, by simp [hm]⟩

/-- The first option of every choice is to keep the condition. -/
theorem forall₂_choices (hm : ctx.mode ≠ .replace) : ∀ c : Compound,
    List.Forall₂ (fun o choice => choice.head? = some o) (c.map fun s => .kept [s])
      ((c.map fun s => (s, none)).flatMap fun part =>
        (ctx.choicesFor part).getD [[.kept [part.1]]])
  | [] => .nil
  | s :: c => by
    obtain ⟨options, h, first⟩ := exists_choice hm s
    rw [List.map_cons, List.map_cons, List.flatMap_cons, h]
    exact .cons first (forall₂_choices hm c)

/-- The first options of the choices for a compound without arguments are its conditions. -/
theorem exists_kept_of_compoundChoices (hm : ctx.mode ≠ .replace) {c : Compound}
    {choices : List (List Substitute)}
    (h : ctx.compoundChoices (c.map fun s => (s, none)) = some choices) :
    ∃ kept : List Compound, kept.flatten = c ∧
      List.Forall₂ (fun o choice => choice.head? = some o) (kept.map .kept) choices := by
  rw [compoundChoices, List.takeWhile_map, List.dropWhile_map, List.map_map] at h
  set p := (fun part => (ctx.choicesFor part).isNone) ∘ fun s : Simple => (s, none)
  have whole : c.takeWhile p ++ c.dropWhile p = c := List.takeWhile_append_dropWhile
  have rest := forall₂_choices hm (c.dropWhile p)
  have flat : ∀ d : Compound, (d.map fun s => [s]).flatten = d := fun d => by
    rw [← List.flatMap_def, List.flatMap_singleton']
  split at h
  · cases h
  · obtain rfl := Option.some.inj h
    have before : (c.takeWhile p).map
        (Prod.fst ∘ fun s : Simple => (s, (none : Option (List Simple))))
        = c.takeWhile p := List.map_id _
    simp only [before]
    split
    · rename_i empty
      rw [List.isEmpty_iff.1 empty, List.nil_append] at whole
      exact ⟨(c.dropWhile p).map fun s => [s], by rw [flat, whole],
        by simpa [Function.comp_def] using rest⟩
    · exact ⟨c.takeWhile p :: (c.dropWhile p).map fun s => [s],
        by rw [List.flatten_cons, flat, whole],
        .cons rfl (by simpa [Function.comp_def] using rest)⟩

/-! ## The selection that keeps every condition -/

variable {kept : List Compound} {choices : List (List Substitute)} {found : List Complex}

theorem flatMap_lastCompound_kept (kept : List Compound) :
    ((kept.map Substitute.kept).flatMap fun s => s.complex.lastCompound?.getD [])
    = kept.flatten := by
  rw [List.flatMap_map, List.flatMap_def]
  exact congrArg List.flatten (List.map_id kept)

/-- What may stand here each by itself may stand here together. -/
theorem forM_checkMedia {selection : List Substitute} {media : Option MediaContext}
    (h : ∀ o ∈ selection, o.checkMedia media = .ok ()) :
    selection.forM (Substitute.checkMedia media) = .ok () := by
  induction selection with
  | nil => rfl
  | cons o selection ih =>
    rw [List.forall_mem_cons] at h
    rw [List.forM_eq_forM, List.forM_cons, h.1]
    exact ih h.2

/-- Keeping every condition gives the compound back, past every media check. -/
theorem complexesOf_kept (ctx : ExtendContext) (kept : List Compound) :
    ctx.complexesOf (kept.map .kept) (keptSelection (kept.map .kept))
      = .ok (some [.ofCompound kept.flatten]) := by
  have allowed : (kept.map Substitute.kept).forM (Substitute.checkMedia ctx.media) = .ok () :=
    forM_checkMedia (List.forall_mem_map.2 fun _ _ => rfl)
  have broken : ((kept.map Substitute.kept).any fun s => s.complex.lineBreak) = false := by
    simp [Substitute.complex, Complex.ofCompound]
  rw [keptSelection, flatMap_lastCompound_kept, complexesOf, allowed, broken]
  rfl

/-- Every selection, with the rows it gives. -/
def candidates (ctx : ExtendContext) (choices : List (List Substitute)) :
    List (List Substitute × Option (List (List Item))) :=
  let unified := (selections choices).map fun s => (s, unifySelection s)
  if ctx.mode = .replace then unified else unified.modifyHead fun p => (p.1, keptSelection p.1)

/-- All candidates are treated alike. -/
theorem complexesOfSelections_eq (ctx : ExtendContext) (choices : List (List Substitute)) :
    ctx.complexesOfSelections choices
      = (ctx.candidates choices).mapM fun p => ctx.complexesOf p.1 p.2 := by
  rw [complexesOfSelections, candidates]
  by_cases hm : ctx.mode = .replace
  · rw [if_pos hm, hm, List.mapM_map]
    rfl
  · rw [if_neg hm]
    cases selections choices with
    | nil =>
      rw [List.map_nil, List.modifyHead_nil, List.mapM_nil]
      cases ctx.mode <;> rfl
    | cons first rest =>
      rw [List.map_cons, List.modifyHead_cons, List.mapM_cons, List.mapM_map]
      cases hmode : ctx.mode with
      | replace => exact absurd hmode hm
      | normal => rfl
      | allTargets => rfl

/-- Every selection is a candidate. -/
theorem map_fst_candidates (ctx : ExtendContext) (choices : List (List Substitute)) :
    (ctx.candidates choices).map Prod.fst = selections choices := by
  rw [candidates]
  cases selections choices <;> by_cases hm : ctx.mode = .replace <;> simp [hm, Function.comp_def]

/-- A candidate is unified, unless it is the selector itself and that is kept. -/
theorem mem_candidates {p : List Substitute × Option (List (List Item))}
    (h : p ∈ ctx.candidates choices) : p.1 ∈ selections choices ∧ (p.2 = unifySelection p.1 ∨
      ctx.mode ≠ .replace ∧ (selections choices).head? = some p.1 ∧ p.2 = keptSelection p.1) := by
  refine ⟨map_fst_candidates ctx choices ▸ List.mem_map_of_mem h, ?_⟩
  have unified : ∀ {picked : List (List Substitute)},
      p ∈ picked.map (fun s => (s, unifySelection s)) → p.2 = unifySelection p.1 := by
    intro picked h
    obtain ⟨s, -, rfl⟩ := List.mem_map.1 h
    rfl
  rw [candidates] at h
  split at h
  · exact .inl (unified h)
  · rename_i hm
    cases all : selections choices with
    | nil =>
      rw [all] at h
      cases h
    | cons first rest =>
      rw [all, List.map_cons, List.modifyHead_cons] at h
      rcases List.mem_cons.1 h with rfl | h
      · exact .inr ⟨hm, rfl, rfl⟩
      · exact .inl (unified h)

/-- What a selection gives has the rows found for it, the empty ones apart. -/
theorem exists_rows_of_complexesOf {selection : List Substitute} {rows : Option (List (List Item))}
    {l : List Complex} (h : ctx.complexesOf selection rows = .ok (some l)) :
    ∃ rows', rows = some rows' ∧ ∀ c ∈ l, c.items ∈ rows' ∧ c.items ≠ [] := by
  cases rows with
  | none => cases h
  | some rows =>
    obtain ⟨_, -, h⟩ := exists_of_bind_ok h
    obtain rfl := Option.some.inj (Except.ok.inj h)
    refine ⟨rows, rfl, List.forall_mem_map.2 fun row hrow => ?_⟩
    obtain ⟨mem, filled⟩ := List.mem_filter.1 hrow
    exact ⟨mem, by simpa using filled⟩

/-- Whatever is found comes from a candidate. -/
theorem exists_candidate {all : List (Option (List Complex))}
    (h : ctx.complexesOfSelections choices = .ok all) {part : Option (List Complex)}
    (hpart : part ∈ all) : ∃ selection ∈ selections choices, ∃ rows,
      ctx.complexesOf selection rows = .ok part ∧ (rows = unifySelection selection ∨
        ctx.mode ≠ .replace ∧ (selections choices).head? = some selection ∧
          rows = keptSelection selection) := by
  rw [complexesOfSelections_eq] at h
  obtain ⟨p, hp, eq⟩ := exists_mem_of_forall₂ (forall₂_of_mapM_ok h).flip hpart
  obtain ⟨mem, rows⟩ := mem_candidates hp
  exact ⟨p.1, mem, p.2, eq, rows⟩

/-- Unless it gives way, the first selection is the selector itself. -/
theorem complexesOfSelections_cons (hm : ctx.mode ≠ .replace) {first : List Substitute}
    {rest : List (List Substitute)} (hsel : selections choices = first :: rest) :
    ctx.complexesOfSelections choices = do
      let kept ← ctx.complexesOf first (keptSelection first)
      return kept :: (← rest.mapM fun s => ctx.complexesOf s (unifySelection s)) := by
  rw [complexesOfSelections, hsel]
  cases hmode : ctx.mode with
  | replace => exact absurd hmode hm
  | normal => rfl
  | allTargets => rfl

/-- The first selection comes first among the results. -/
theorem exists_of_complexesOfSelections (hm : ctx.mode ≠ .replace) {first : List Substitute}
    {rest : List (List Substitute)} {all : List (Option (List Complex))}
    (hsel : selections choices = first :: rest) (h : ctx.complexesOfSelections choices = .ok all) :
    ∃ kept others, ctx.complexesOf first (keptSelection first) = .ok kept ∧
      all = kept :: others := by
  rw [complexesOfSelections_cons hm hsel] at h
  obtain ⟨kept, hkept, h⟩ := exists_of_bind_ok h
  obtain ⟨others, -, h⟩ := exists_of_bind_ok h
  exact ⟨kept, others, hkept, (Except.ok.inj h).symm⟩

theorem mem_flatMap_getD {all : List (Option (List Complex))} {c : Complex} :
    c ∈ all.flatMap (·.getD []) ↔ ∃ l, some l ∈ all ∧ c ∈ l := by
  rw [List.mem_flatMap]
  constructor
  · rintro ⟨_ | l, hl, hc⟩
    · cases hc
    · exact ⟨l, hl, hc⟩
  · rintro ⟨l, hl, hc⟩
    exact ⟨some l, hl, hc⟩

/-- What a compound becomes is an option of its only choice, or comes from the candidates. -/
theorem exists_of_mem_complexesOfChoices {itself : Bool} {c : Complex}
    (h : ctx.complexesOfChoices itself choices = .ok found) (hc : c ∈ found) :
    (∃ only o, choices = [only] ∧ o ∈ only ∧ c = o.complex) ∨
      ∃ all l, ctx.complexesOfSelections choices = .ok all ∧ some l ∈ all ∧ c ∈ l := by
  unfold complexesOfChoices at h
  split at h
  · rename_i only
    obtain ⟨o, ho, eq⟩ := exists_mem_of_forall₂ (forall₂_of_mapM_ok h).flip hc
    obtain ⟨_, -, eq⟩ := exists_of_bind_ok eq
    exact .inl ⟨only, o, rfl, ho, (Except.ok.inj eq).symm⟩
  · obtain ⟨all, hall, h⟩ := exists_of_bind_ok h
    obtain rfl := Except.ok.inj h
    obtain ⟨l, hl, hc⟩ := mem_flatMap_getD.1 (mem_of_mem_trim hc)
    exact .inr ⟨all, l, hall, hl, hc⟩

/-- **Among what a compound becomes is the compound itself**, if an author wrote it. -/
theorem contains_of_complexesOfChoices (hm : ctx.mode ≠ .replace)
    (first : List.Forall₂ (fun o choice => choice.head? = some o) (kept.map .kept) choices)
    (h : ctx.complexesOfChoices true choices = .ok found) :
    found.contains (.ofCompound kept.flatten) = true := by
  unfold complexesOfChoices at h
  split at h
  · -- a single choice is not unified with anything, and not trimmed
    rename_i only
    obtain ⟨o, options, ho, remaining, hkept⟩ := List.forall₂_cons_right_iff.1 first
    obtain rfl := List.forall₂_nil_right_iff.1 remaining
    obtain ⟨k, rfl, rfl⟩ : ∃ k, kept = [k] ∧ Substitute.kept k = o := by
      simpa [List.map_eq_singleton_iff] using hkept
    obtain ⟨options, rfl⟩ := List.head?_eq_some_iff.1 ho
    obtain ⟨c, rest, hc, -, rfl⟩ := List.forall₂_cons_left_iff.1 (forall₂_of_mapM_ok h)
    obtain rfl : Complex.ofCompound k = c := Except.ok.inj hc
    exact List.elem_eq_true_of_mem (by simp)
  · obtain ⟨all, hall, h⟩ := exists_of_bind_ok h
    obtain ⟨rest, hsel⟩ := List.head?_eq_some_iff.1 (head?_selections first)
    obtain ⟨itself, others, hself, rfl⟩ := exists_of_complexesOfSelections hm hsel hall
    rw [complexesOf_kept] at hself
    obtain rfl := Except.ok.inj hself
    obtain rfl := Except.ok.inj h
    refine contains_trim_of_authored ?_ (by simp)
    simp [hm]

end ExtendContext

/-! ## Weaving the items themselves -/

theorem canonicalItems_append (row row' : List Item) :
    canonicalItems (row ++ row') = canonicalItems row ++ canonicalItems row' := by
  induction row with
  | nil => rfl
  | cons item row ih =>
    rcases item with c | k
    · rw [List.cons_append, canonicalItems, canonicalItems, ih, List.cons_append]
    · rw [List.cons_append, canonicalItems, canonicalItems, ih, List.cons_append]

theorem foldl_weaveRow_singletons {merge : List Item → List Item → Option (List (List Item))} :
    ∀ (row before : List Item),
      (row.map fun item => [item]).foldl (weaveRow merge) [before] = [before ++ row]
  | [], before => by simp
  | item :: row, before => by
    have step : weaveRow merge [before] [item] = [before ++ [item]] := rfl
    rw [List.map_cons, List.foldl_cons, step, foldl_weaveRow_singletons row, List.append_assoc]
    rfl

/-- Weaving the items of a row one by one gives the row. -/
theorem weave_singletons {row : List Item} (h : row ≠ []) :
    weave (row.map fun item => [item]) = [row] := by
  obtain ⟨item, row, rfl⟩ := List.exists_cons_of_ne_nil h
  exact foldl_weaveRow_singletons row [item]

/-- Items that stand by themselves in every choice can all be picked. -/
theorem exists_path : ∀ {row : List Item} {choices : List (List Complex)},
    List.Forall₂ (fun item choice => choice.contains ⟨[item], false⟩ = true) row choices →
      ∃ path row', List.Forall₂ (· ∈ ·) path choices ∧
        path.map Complex.items = (row'.map fun item => [item]) ∧
        canonicalItems row' = canonicalItems row
  | _, _, .nil => ⟨[], [], .nil, rfl, rfl⟩
  | item :: row, choice :: choices, .cons here rest => by
    obtain ⟨path, row', mem, singles, same⟩ := exists_path rest
    obtain ⟨c, hc, hitem⟩ := List.contains_iff_exists_mem_beq.1 here
    have heq : canonicalItems [item] = canonicalItems c.items :=
      congrArg Complex.items (Complex.beq_iff.1 hitem)
    obtain ⟨item', hc'⟩ : ∃ item', c.items = [item'] := by
      rcases item with d | k <;> rcases hitems : c.items with _ | ⟨_ | _, _ | ⟨_ | _, _⟩⟩ <;>
        simp [hitems, canonicalItems] at heq ⊢
    refine ⟨c :: path, item' :: row', .cons hc mem, by rw [List.map_cons, hc', singles]; rfl, ?_⟩
    rw [hc'] at heq
    rw [← List.singleton_append, canonicalItems_append, same, ← heq, ← canonicalItems_append]
    rfl

/-- **Among the weavings of a selector's choices is the selector itself**, if each item
may stand for itself. -/
theorem contains_weaveChoices {c : Complex} {choices : List (List Complex)} (lineBreak : Bool)
    (filled : c.items ≠ [])
    (h : List.Forall₂ (fun item choice => choice.contains ⟨[item], false⟩ = true) c.items choices) :
    (ExtendContext.weaveChoices lineBreak choices).contains c = true := by
  obtain ⟨path, row, mem, singles, same⟩ := exists_path h
  have nonempty : row ≠ [] := by
    rintro rfl
    rcases hitems : c.items with _ | ⟨_ | _, _⟩
    · exact filled hitems
    all_goals simp [hitems, canonicalItems] at same
  have woven : weave (path.map Complex.items) = [row] := by rw [singles, weave_singletons nonempty]
  refine List.contains_iff_exists_mem_beq.2 ⟨⟨row, lineBreak || path.any Complex.lineBreak⟩, ?_, ?_⟩
  · refine List.mem_flatMap.2 ⟨path, mem_selections.2 mem, ?_⟩
    rw [woven]
    simp [nonempty]
  · exact Complex.beq_iff.2 (congrArg (Complex.mk · false) same.symm)

/-! ## The record of author-written selectors -/

/-- Whatever is on record stays on record. -/
def Grows (authored authored' : List Complex) : Prop :=
  ∀ c, authored.contains c = true → authored'.contains c = true

instance : Std.Refl Grows := ⟨fun _ _ h => h⟩

instance : IsTrans (List Complex) Grows := ⟨fun _ _ _ h h' c hc => h' c (h c hc)⟩

theorem grows_addDistinct (authored : List Complex) (c : Complex) :
    Grows authored (addDistinct authored c) := by
  intro d hd
  unfold addDistinct
  split
  · exact hd
  · rw [List.contains_append, hd, Bool.true_or]

/-! ## Extending -/

namespace ExtendContext

variable {ctx : ExtendContext} {inner : SelectorList → Extending (Option SelectorList)}
  {authored : List Complex}

/-- What has no argument is not replaced. -/
theorem extendArgument_ensures
    (hin : ∀ l authored, Ensures Grows (inner l) authored fun _ _ => True) (s : Simple) :
    Ensures Grows (s.extendArgument inner) authored fun replaced _ =>
      s.argument? = none → replaced = none := by
  unfold Simple.extendArgument
  split
  · rename_i p
    split
    · rename_i l hl
      refine (hin l authored).bind fun extended authored' _ _ => ?_
      have argued : (Simple.pseudo p).argument? ≠ none := by simp [Simple.argument?, hl]
      split <;> exact .pure fun plain => absurd plain argued
    · exact .pure fun _ => rfl
  · exact .pure fun _ => rfl

/-- A flat compound written by an author stays among what it becomes. -/
theorem extendCompound_ensures (hm : ctx.mode ≠ .replace)
    (hin : ∀ l authored, Ensures Grows (inner l) authored fun _ _ => True) (own : Bool)
    (c : Compound) :
    Ensures Grows (ctx.extendCompound inner own c) authored fun found _ =>
      own = true → (Item.compound c).isFlat = true →
        (found.getD [.ofCompound c]).contains (.ofCompound c) = true := by
  have itself : [Complex.ofCompound c].contains (.ofCompound c) = true :=
    List.elem_eq_true_of_mem (List.mem_singleton_self _)
  refine (Ensures.mapM (S := fun s part => part.1 = s ∧ (s.argument? = none → part.2 = none))
    fun s _ authored' _ => (extendArgument_ensures hin s).bind fun replaced _ _ h =>
      .pure ⟨rfl, h⟩).bind fun parts authored' _ hparts => ?_
  -- without arguments there is nothing but the conditions themselves
  have flat : (Item.compound c).isFlat = true → parts = c.map fun s => (s, none) := by
    intro hflat
    rw [Item.isFlat, List.all_eq_true] at hflat
    clear itself
    induction hparts with
    | nil => rfl
    | @cons s part c parts h _ ih =>
      rw [List.forall_mem_cons, Option.isNone_iff_eq_none] at hflat
      rw [ih hflat.2, List.map_cons, ← h.2 hflat.1, ← h.1]
  split
  · exact .pure fun _ _ => itself
  · rename_i choices hchoices
    split
    · refine (Ensures.ofExcept (Q := fun found _ => own = true → (Item.compound c).isFlat = true →
        found.contains (.ofCompound c) = true) fun found h hown hflat => ?_).bind
          fun found _ _ h => .pure h
      subst hown
      rw [flat hflat] at hchoices
      obtain ⟨kept, rfl, first⟩ := exists_kept_of_compoundChoices hm hchoices
      exact contains_of_complexesOfChoices hm first h
    · exact .pure fun _ _ => itself

/-- So does every item of a row. -/
theorem extendItem_ensures (hm : ctx.mode ≠ .replace)
    (hin : ∀ l authored, Ensures Grows (inner l) authored fun _ _ => True) (own : Bool)
    (item : Item) :
    Ensures Grows (ctx.extendItem inner own item) authored fun found _ =>
      own = true → item.isFlat = true →
        (found.getD [⟨[item], false⟩]).contains ⟨[item], false⟩ = true := by
  rcases item with c | k
  · exact extendCompound_ensures hm hin own c
  · exact .pure fun _ _ => List.elem_eq_true_of_mem (List.mem_singleton_self _)

/-- **Among what a complex selector becomes is the selector itself**, if it is on record. -/
theorem extendComplexWith_ensures (hm : ctx.mode ≠ .replace)
    (hin : ∀ l authored, Ensures Grows (inner l) authored fun _ _ => True) (c : Complex) :
    Ensures Grows (ctx.extendComplexWith inner c) authored fun found _ =>
      authored.contains c = true → c.isFlat = true → (found.getD [c]).contains c = true := by
  refine Ensures.get_bind ?_
  refine (Ensures.mapM fun item _ authored' _ =>
    extendItem_ensures hm hin (authored.contains c) item).bind fun parts authored' _ hparts => ?_
  split
  · exact .pure fun _ _ => List.elem_eq_true_of_mem (List.mem_singleton_self _)
  · rename_i extended
    have nonempty : c.items ≠ [] := by
      intro empty
      rw [empty] at hparts
      rw [List.forall₂_nil_left_iff.1 hparts] at extended
      exact extended rfl
    have choices : authored.contains c = true → c.isFlat = true →
        (weaveChoices c.lineBreak (List.zipWith (fun item part => part.getD [⟨[item], false⟩])
          c.items parts)).contains c = true := by
      intro own hflat
      rw [Complex.isFlat, List.all_eq_true] at hflat
      exact contains_weaveChoices c.lineBreak nonempty
        (forall₂_zipWith hparts fun item mem part h => h own (hflat item mem))
    dsimp only
    split
    · split
      · exact (Ensures.modify (Q := fun _ _ => True) (grows_addDistinct _ _) trivial).bind
          fun _ _ _ _ => .pure choices
      · exact .pure choices
    · exact .pure choices

/-- **A list keeps every selector on record.** -/
theorem extendListWith_ensures (hm : ctx.mode ≠ .replace)
    (hin : ∀ l authored, Ensures Grows (inner l) authored fun _ _ => True) (l : SelectorList) :
    Ensures Grows (ctx.extendListWith inner l) authored fun found _ =>
      ∀ c, authored.contains c = true → c.isFlat = true → l.contains c = true →
        (found.getD l).contains c = true := by
  refine (Ensures.mapM (S := fun c part => authored.contains c = true → c.isFlat = true →
      (part.getD [c]).contains c = true) fun c _ authored' grown =>
    (extendComplexWith_ensures hm hin c).mono fun part _ _ h own => h (grown c own)).bind
      fun parts authored' grown hparts => ?_
  split
  · exact .pure fun _ _ _ mem => mem
  refine Ensures.get_bind ?_
  -- a selector on record is in what the equivalent member of the list becomes
  have kept : ∀ c, authored.contains c = true → c.isFlat = true → l.contains c = true →
      (trim ctx.sources authored'.contains
        (List.zipWith (fun c part => part.getD [c]) l parts).flatten).contains c = true := by
    intro c own flat mem
    obtain ⟨d, hd, same⟩ := List.contains_iff_exists_mem_beq.1 mem
    have became : List.Forall₂ (fun c choice => authored.contains c = true → c.isFlat = true →
        List.contains choice c = true) l (List.zipWith (fun c part => part.getD [c]) l parts) :=
      forall₂_zipWith hparts fun c _ part h => h
    obtain ⟨choice, hchoice, h⟩ := exists_mem_of_forall₂ became hd
    have hd' := h (List.contains_congr same ▸ own) (Complex.isFlat_congr same ▸ flat)
    rw [← List.contains_congr same] at hd'
    obtain ⟨e, he, same'⟩ := List.contains_iff_exists_mem_beq.1 hd'
    rw [List.contains_congr same']
    exact contains_trim_of_authored (List.contains_congr same' ▸ grown c own)
      (List.mem_flatten.2 ⟨choice, hchoice, he⟩)
  split
  · rename_i empty
    refine .pure fun c own flat mem => ?_
    have := kept c own flat mem
    rw [empty] at this
    cases this
  · exact .pure kept

/-- Authored flat choices stay at every level, by induction. -/
theorem extendListWithin_ensures (hm : ctx.mode ≠ .replace) : ∀ (n : ℕ) (l : SelectorList)
    (authored : List Complex), Ensures Grows (ctx.extendListWithin n l) authored fun found _ =>
      ∀ c, authored.contains c = true → c.isFlat = true → l.contains c = true →
        (found.getD l).contains c = true
  | 0, _, _ => .pure fun _ _ _ mem => mem
  | n + 1, l, _ => extendListWith_ensures hm
      (fun l authored => (extendListWithin_ensures hm n l authored).mono fun _ _ _ _ => trivial) l

theorem extendList_ensures (hm : ctx.mode ≠ .replace) (l : SelectorList) :
    Ensures Grows (ctx.extendList l) authored fun found _ =>
      ∀ c, authored.contains c = true → c.isFlat = true → l.contains c = true →
        (found.getD l).contains c = true :=
  extendListWithin_ensures hm _ l authored

/-- Extending one selector only adds to the record. -/
theorem extendComplex_grows (hm : ctx.mode ≠ .replace) (c : Complex) :
    Ensures Grows (ctx.extendComplex c) authored fun _ _ => True :=
  (extendComplexWith_ensures hm (fun l authored =>
    (extendListWithin_ensures hm _ l authored).mono fun _ _ _ _ => trivial) c).mono
      fun _ _ _ _ => trivial

end ExtendContext

/-! ## Extending outside a style sheet -/

theorem contains_foldl_addDistinct (l : List Complex) : ∀ {authored : List Complex} {c : Complex},
    authored.contains c = true ∨ c ∈ l → (l.foldl addDistinct authored).contains c = true := by
  induction l with
  | nil => simp
  | cons d l ih =>
    intro authored c h
    refine ih ?_
    rw [List.mem_cons] at h
    rcases h with own | rfl | mem
    · exact .inl (grows_addDistinct authored d c own)
    · unfold addDistinct
      split
      · rename_i own
        exact .inl own
      · exact .inl (List.elem_eq_true_of_mem (by simp))
    · exact .inr mem

/-- What `extend` gives holds every selector without arguments that was there, if some of them is
visible. -/
theorem contains_extend {l source targets extended : SelectorList} {span : Span}
    (visible : l.isInvisible = false) (h : l.extend source targets span = .ok extended)
    {c : Complex} (mem : c ∈ l) (flat : c.isFlat = true) : extended.contains c = true := by
  obtain ⟨compounds, -, h⟩ := exists_of_bind_ok h
  rw [visible] at h
  have own : (l.foldl addDistinct []).contains c = true := contains_foldl_addDistinct l (.inr mem)
  have run : Ensures Grows (compounds.foldlM (applyTarget .allTargets source span) l)
      (l.foldl addDistinct []) fun found _ => found.contains c = true :=
    Ensures.foldlM (fun target _ found authored grown h =>
      (ExtendContext.extendList_ensures (by simp) found).bind fun _ _ _ kept =>
        .pure (kept c (grown c own) flat h)) (List.elem_eq_true_of_mem mem)
  exact run.2 extended h

end SelectorAlgebra
