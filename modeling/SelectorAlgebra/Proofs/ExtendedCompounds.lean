import SelectorAlgebra.Proofs.ValidExtension
import SelectorAlgebra.Proofs.WovenCompounds

/-!
# Proofs/ExtendedCompounds — where the compounds of an extended selector come from

What a selector becomes is made of its own conditions, of what replaces those with arguments, and of
the extenders.  A property of compounds that is **lasting** — it comes to some conditions one by
one, and unifying keeps it — goes over from these to all compounds of what the selector becomes:

* `extendComplexWith_all` — with any way to extend arguments that keeps the property of conditions;
* `extendList_givesFilled`, `extendComplex_isMadeOf` — at every depth, if the property goes on into
  arguments (`IsHereditary`).

The first selection from the choices is the selector itself, so it has conditions
(`heads_compoundChoices`).
-/

namespace SelectorAlgebra

/-- A property of compounds that conditions bring with them one by one, and that unifying keeps. -/
structure IsLasting (G : Simple → Prop) (P : Compound → Prop) : Prop where
  unify : UnifyKeeps P
  ofConditions : ∀ c, c ≠ [] → (∀ s ∈ c, G s) → P c
  conditions : ∀ c, P c → ∀ s ∈ c, G s

/-- A property of conditions that element names have lasts. -/
theorem isLasting_forall {G : Simple → Prop} (element : ∀ s, s.isUniversalOrType = true → G s) :
    IsLasting G fun c => ∀ s ∈ c, G s :=
  ⟨fun _ _ _ => forall_mem_unify element, fun _ _ h => h, fun _ h => h⟩

theorem isLasting_isFilled {G : Simple → Prop} (element : ∀ s, s.isUniversalOrType = true → G s) :
    IsLasting G (IsFilled G) :=
  ⟨unifyKeeps_isFilled element, fun _ filled h => ⟨filled, h⟩, fun _ h => h.2⟩

variable {G : Simple → Prop} {P : Compound → Prop}

/-- There are items, and every compound has the property. -/
def Complex.IsMadeOf (P : Compound → Prop) (c : Complex) : Prop :=
  c.items ≠ [] ∧ AllCompounds P c.items

/-! ## The choices for a compound -/

/-- What is kept has the property, and so has every compound of an extender. -/
def Substitute.All (P : Compound → Prop) : Substitute → Prop
  | .kept conditions => P conditions
  | .extended e => AllCompounds P e.extender.items

theorem Substitute.All.complex {o : Substitute} (h : o.All P) : AllCompounds P o.complex.items := by
  cases o with
  | kept conditions => exact allCompounds_compound h
  | extended e => exact h

/-- A condition, and those that replace it, of which there is at least one. -/
structure IsPart (G : Simple → Prop) (part : Simple × Option (List Simple)) : Prop where
  itself : G part.1
  filled : part.2 ≠ some []
  replaced : ∀ found, part.2 = some found → ∀ s ∈ found, G s

theorem IsPart.mono {G' : Simple → Prop} {part : Simple × Option (List Simple)} (h : IsPart G part)
    (imp : ∀ s, G s → G' s) : IsPart G' part :=
  ⟨imp _ h.itself, h.filled, fun found hfound s hs => imp s (h.replaced found hfound s hs)⟩

namespace ExtendContext

variable {ctx : ExtendContext} {parts : List (Simple × Option (List Simple))}
  {choices : List (List Substitute)} {selection : List Substitute}

/-- Every compound of an extender has the property. -/
def All (P : Compound → Prop) (ctx : ExtendContext) : Prop :=
  ∀ e, ctx.Holds e → AllCompounds P e.extender.items

/-- A condition that is not to be replaced comes first among its options. -/
theorem optionsFor_head (hm : ctx.mode ≠ .replace) (s : Simple) :
    (ctx.optionsFor s).head? = some (.kept [s]) := by
  unfold optionsFor substitutes?
  cases ctx.extensions.get? s with
  | none => rfl
  | some sources => simp [hm]

theorem contains_of_choicesFor_isNone {part : Simple × Option (List Simple)}
    (h : (ctx.choicesFor part).isNone = true) : ctx.extensions.contains part.1 = false := by
  obtain ⟨s, _ | found⟩ := part
  · exact choicesFor_isNone_iff.1 h
  · cases h

/-- The choices for a compound, with the conditions they are for.  Those before the first
extended one are no targets. -/
theorem exists_conditions_of_compoundChoices (hp : ∀ part ∈ parts, part.2 ≠ some [])
    (h : ctx.compoundChoices parts = some choices) :
    ∃ before conditions : List Simple, before ⊆ parts.map Prod.fst ∧
      (∀ s ∈ before, ctx.extensions.contains s = false) ∧
      conditions ⊆ (parts.flatMap fun part => part.2.getD [part.1]) ∧ conditions ≠ [] ∧
      choices = (if before.isEmpty then [] else [[.kept before]]) ++
      conditions.map ctx.optionsFor := by
  simp only [compoundChoices, choicesFor_getD, ← List.map_flatMap] at h
  set untouched := fun part => (ctx.choicesFor part).isNone
  split at h
  · cases h
  · rename_i touched
    obtain rfl := Option.some.inj h
    refine ⟨_, _, List.map_subset Prod.fst (List.takeWhile_subset _), fun s hs => ?_,
      ((List.dropWhile_sublist untouched).flatMap _).subset, fun nothing => ?_, rfl⟩
    · obtain ⟨part, hpart, rfl⟩ := List.mem_map.1 hs
      have first : untouched part = true := List.mem_takeWhile_imp hpart
      exact contains_of_choicesFor_isNone first
    obtain ⟨part, hpart⟩ := List.exists_mem_of_ne_nil _ touched
    have empty := List.flatMap_eq_nil_iff.1 nothing part hpart
    have filled := hp part ((List.dropWhile_suffix untouched).subset hpart)
    rcases hreplaced : part.2 with _ | found
    · simp [hreplaced] at empty
    · exact filled (hreplaced.trans (congrArg some (by simpa [hreplaced] using empty)))

/-- **Unless it gives way, a compound is the first selection from its choices.** -/
theorem heads_compoundChoices (hm : ctx.mode ≠ .replace) (hp : ∀ part ∈ parts, part.2 ≠ some [])
    (h : ctx.compoundChoices parts = some choices) :
    ∃ kept : List Compound, kept.flatten ≠ [] ∧
      List.Forall₂ (fun o choice => choice.head? = some o) (kept.map .kept) choices := by
  obtain ⟨before, conditions, -, -, -, many, rfl⟩ := exists_conditions_of_compoundChoices hp h
  have heads : List.Forall₂ (fun o choice => choice.head? = some o)
      ((conditions.map fun s => [s]).map Substitute.kept) (conditions.map ctx.optionsFor) := by
    rw [List.map_map, List.forall₂_map_left_iff, List.forall₂_map_right_iff, List.forall₂_same]
    exact fun s _ => optionsFor_head hm s
  have filled : (conditions.map fun s => [s]).flatten ≠ [] := by
    rwa [← List.flatMap_def, List.flatMap_singleton']
  split
  · exact ⟨_, filled, heads⟩
  · exact ⟨before :: conditions.map fun s => [s], fun empty =>
      filled (List.append_eq_nil_iff.1 empty).2, .cons rfl heads⟩

/-- **What stands for a compound has the property, if the extenders have it and what may stay.** -/
theorem all_of_mem_compoundChoices_of_keeps (hP : IsLasting G P) (hctx : ctx.All P)
    (hp : ∀ part ∈ parts, IsPart (fun s => ctx.Keeps s → G s) part)
    (h : ctx.compoundChoices parts = some choices) : ∀ choice ∈ choices, ∀ o ∈ choice, o.All P := by
  obtain ⟨before, conditions, sub, untargeted, sub', -, rfl⟩ :=
    exists_conditions_of_compoundChoices (fun part hpart => (hp part hpart).filled) h
  have conditions_all : ∀ s ∈ conditions, ctx.Keeps s → G s := by
    intro s hs
    obtain ⟨⟨t, found⟩, hpart, hs⟩ := List.mem_flatMap.1 (sub' hs)
    cases found with
    | none => exact List.mem_singleton.1 hs ▸ (hp _ hpart).itself
    | some found => exact (hp _ hpart).replaced found rfl s hs
  rw [List.forall_mem_append]
  constructor
  · split
    · exact List.forall_mem_nil _
    · rename_i kept
      refine List.forall_mem_singleton.2 (List.forall_mem_singleton.2 (hP.ofConditions _ ?_ ?_))
      · simpa using kept
      · intro s hs
        have stays : ctx.Keeps s := fun _ => untargeted s hs
        obtain ⟨part, hpart, rfl⟩ := List.mem_map.1 (sub hs)
        exact (hp part hpart).itself stays
  · intro choice hchoice o ho
    obtain ⟨s, hs, rfl⟩ := List.mem_map.1 hchoice
    rcases mem_optionsFor ho with ⟨rfl, stays⟩ | ⟨-, e, rfl, he⟩
    · exact hP.ofConditions _ (by simp) (List.forall_mem_singleton.2 (conditions_all s hs stays))
    · exact hctx e he

/-- Every choice for a compound has the property, when its parts and the context have it. -/
theorem all_of_mem_compoundChoices (hP : IsLasting G P) (hctx : ctx.All P)
    (hp : ∀ part ∈ parts, IsPart G part) (h : ctx.compoundChoices parts = some choices) :
    ∀ choice ∈ choices, ∀ o ∈ choice, o.All P :=
  all_of_mem_compoundChoices_of_keeps hP hctx
    (fun part hpart => (hp part hpart).mono fun _ hs _ => hs) h

/-! ## What a compound becomes -/

variable {found : List Complex}

/-- The rows that a selection is unified from. -/
def rowsOfSelection (selection : List Substitute) : List (List Item) :=
  match selection.flatMap Substitute.keptConditions with
  | [] => selection.filterMap Substitute.extenderRow?
  | kept => [.compound kept] :: selection.filterMap Substitute.extenderRow?

/-- A selection is unified row by row, with what it keeps as one compound. -/
theorem unifySelection_eq (selection : List Substitute) :
    unifySelection selection = unifyRows (rowsOfSelection selection) := by
  unfold unifySelection rowsOfSelection
  cases selection.flatMap Substitute.keptConditions <;> rfl

theorem allCompounds_rowsOfSelection (hP : IsLasting G P) (hs : ∀ o ∈ selection, o.All P) :
    ∀ row ∈ rowsOfSelection selection, AllCompounds P row := by
  have extenders : ∀ row ∈ selection.filterMap Substitute.extenderRow?, AllCompounds P row := by
    intro row hrow
    obtain ⟨o, ho, hrow⟩ := List.mem_filterMap.1 hrow
    cases o with
    | kept c => cases hrow
    | extended e => exact Option.some.inj hrow ▸ hs _ ho
  have kept : ∀ s ∈ selection.flatMap Substitute.keptConditions, G s := by
    intro s hs'
    obtain ⟨o, ho, hs'⟩ := List.mem_flatMap.1 hs'
    cases o with
    | kept c => exact hP.conditions c (hs _ ho) s hs'
    | extended e => cases hs'
  unfold rowsOfSelection
  split
  · exact extenders
  · rename_i keeps
    exact List.forall_mem_cons.2 ⟨allCompounds_compound (hP.ofConditions _ keeps kept), extenders⟩

/-- What the selections become, with the first selection kept as it is unless the target is
replaced. -/
theorem allCompounds_of_complexesOfSelections (hP : IsLasting G P)
    (hs : ∀ choice ∈ choices, ∀ o ∈ choice, o.All P)
    (first : ctx.mode ≠ .replace → ∃ kept : List Compound, kept.flatten ≠ [] ∧
      List.Forall₂ (fun o choice => choice.head? = some o) (kept.map .kept) choices)
    {all : List (Option (List Complex))} (h : ctx.complexesOfSelections choices = .ok all) :
    ∀ found ∈ all, ∀ l, found = some l → ∀ c ∈ l, AllCompounds P c.items := by
  rintro found hfound l rfl c hc
  obtain ⟨selection, mem, rows, eq, given⟩ := exists_candidate h hfound
  obtain ⟨rows', hrows, rowOf⟩ := exists_rows_of_complexesOf eq
  have selected := forall_mem_of_mem_selections hs mem
  suffices all : ∀ row ∈ rows', AllCompounds P row from all c.items (rowOf c hc).1
  rcases given with rfl | ⟨hm, head, rfl⟩
  · rw [unifySelection_eq] at hrows
    exact allCompounds_of_unifyRows hP.unify (allCompounds_rowsOfSelection hP selected) hrows
  · obtain ⟨kept, filled, heads⟩ := first hm
    obtain rfl : kept.map .kept = selection :=
      Option.some.inj ((head?_selections heads).symm.trans head)
    rw [keptSelection, flatMap_lastCompound_kept] at hrows
    obtain rfl := Option.some.inj hrows
    refine List.forall_mem_singleton.2
      (allCompounds_compound (hP.ofConditions _ filled fun s hs => ?_))
    obtain ⟨c, hc, hs⟩ := List.mem_flatten.1 hs
    exact hP.conditions c (selected _ (List.mem_map_of_mem hc)) s hs

/-- Trimming only leaves selectors out. -/
theorem allCompounds_of_complexesOfChoices (hP : IsLasting G P)
    (hs : ∀ choice ∈ choices, ∀ o ∈ choice, o.All P)
    (first : ctx.mode ≠ .replace → ∃ kept : List Compound, kept.flatten ≠ [] ∧
      List.Forall₂ (fun o choice => choice.head? = some o) (kept.map .kept) choices)
    {itself : Bool} (h : ctx.complexesOfChoices itself choices = .ok found) :
    ∀ c ∈ found, AllCompounds P c.items := by
  intro c hc
  rcases exists_of_mem_complexesOfChoices h hc with ⟨only, o, rfl, ho, rfl⟩ | ⟨all, l, hall, hl, hc⟩
  · exact (hs only (List.mem_singleton_self _) o ho).complex
  · exact allCompounds_of_complexesOfSelections hP hs first hall _ hl l rfl c hc

/-! ## What a selector becomes -/

/-- All compounds of what the step gives have the property, whatever the state. -/
def GivesAll (P : Compound → Prop) (step : Extending (Option (List Complex))) : Prop :=
  ∀ authored, Ensures (fun _ _ => True) step authored fun found _ =>
    ∀ l, found = some l → ∀ c ∈ l, AllCompounds P c.items

/-- The conditions that replace this one when its argument is extended have the property. -/
def ReplacesAll (G : Simple → Prop) (inner : SelectorList → Extending (Option SelectorList))
    (s : Simple) : Prop :=
  ∀ authored, Ensures (fun _ _ => True) (s.extendArgument inner) authored fun found _ =>
    found ≠ some [] ∧ ∀ l, found = some l → ∀ t ∈ l, G t

variable {inner : SelectorList → Extending (Option SelectorList)} {authored : List Complex}

/-- The parts of a compound, whatever the state they are found in. -/
theorem mapM_isPart {c : Compound} (hc : ∀ s ∈ c, G s) (hin : ∀ s ∈ c, ReplacesAll G inner s) :
    Ensures (fun _ _ => True) (c.mapM fun s => do return (s, ← s.extendArgument inner)) authored
      fun parts _ => ∀ part ∈ parts, IsPart G part :=
  Ensures.mapM_forall fun s hs authored' _ => (hin s hs authored').bind fun _ _ _ replaced =>
    .pure ⟨hc s hs, replaced.1, replaced.2⟩

/-- **Extending a compound gives compounds with the property.** -/
theorem extendCompound_all (hP : IsLasting G P) (hctx : ctx.All P) {c : Compound}
    (hc : ∀ s ∈ c, G s) (hin : ∀ s ∈ c, ReplacesAll G inner s) {itself : Bool} :
    GivesAll P (ctx.extendCompound inner itself c) := by
  intro authored
  refine (mapM_isPart hc hin).bind fun parts _ _ hparts => ?_
  cases hchoices : ctx.compoundChoices parts with
  | none => exact .pure nofun
  | some choices =>
    dsimp only
    split
    · refine (Ensures.ofExcept (Q := fun found _ => ∀ c ∈ found, AllCompounds P c.items)
        fun found hfound => ?_).bind fun found _ _ hfound => .pure ?_
      · exact allCompounds_of_complexesOfChoices hP
          (all_of_mem_compoundChoices hP hctx hparts hchoices)
          (fun hm => heads_compoundChoices hm (fun part hpart => (hparts part hpart).filled)
            hchoices)
          hfound
      · rintro _ ⟨⟩
        exact hfound
    · exact .pure nofun

/-- What an item becomes, or the item itself. -/
theorem extendItem_all (hP : IsLasting G P) (hctx : ctx.All P) {item : Item}
    (hi : ∀ c, item = .compound c → P c ∧ ∀ s ∈ c, ReplacesAll G inner s) {itself : Bool} :
    Ensures (fun _ _ => True) (ctx.extendItem inner itself item) authored fun found _ =>
      ∀ d ∈ found.getD [⟨[item], false⟩], AllCompounds P d.items := by
  cases item with
  | combinator k => exact .pure (List.forall_mem_singleton.2 (allCompounds_combinators [k]))
  | compound c =>
    obtain ⟨hc, hin⟩ := hi c rfl
    refine (extendCompound_all hP hctx (hP.conditions c hc) hin authored).mono
      fun found _ _ all => ?_
    cases found with
    | none => exact List.forall_mem_singleton.2 (allCompounds_compound hc)
    | some l => exact all l rfl

/-- Weaving what the compounds became gives selectors made of such compounds. -/
theorem isMadeOf_of_mem_weaveChoices (hP : IsLasting G P) {choices : List (List Complex)}
    (h : ∀ choice ∈ choices, ∀ d ∈ choice, AllCompounds P d.items) (lineBreak : Bool) :
    ∀ d ∈ weaveChoices lineBreak choices, d.IsMadeOf P := by
  intro d hd
  obtain ⟨path, hpath, hd⟩ := List.mem_flatMap.1 hd
  obtain ⟨row, hrow, rfl⟩ := List.mem_map.1 hd
  obtain ⟨woven, filled⟩ := List.mem_filter.1 hrow
  have each := forall_mem_of_mem_selections h hpath
  exact ⟨by simpa using filled,
    allCompounds_of_mem_weave hP.unify (List.forall_mem_map.2 each) row woven⟩

/-- **What a selector becomes has the property, if what each item becomes has it**, or the item
itself where it stays. -/
theorem extendComplexWith_of_items (hP : IsLasting G P) {c : Complex}
    (hitems : ∀ item ∈ c.items, ∀ itself authored, Ensures (fun _ _ => True)
      (ctx.extendItem inner itself item) authored fun found _ =>
        ∀ d ∈ found.getD [⟨[item], false⟩], AllCompounds P d.items) :
    Ensures (fun _ _ => True) (ctx.extendComplexWith inner c) authored fun found _ =>
      (∀ l, found = some l → ∀ d ∈ l, d.IsMadeOf P) ∧ (found = none → AllCompounds P c.items) := by
  refine extendComplexWith_result hitems (fun parts hparts untouched => ⟨nofun, fun _ d hd => ?_⟩)
    fun parts hparts => ⟨?_, nofun⟩
  · obtain ⟨part, hpart, h⟩ := exists_mem_of_forall₂ hparts hd
    obtain rfl := untouched part hpart
    exact h _ (List.mem_singleton_self _) d (List.mem_singleton_self _)
  · rintro _ ⟨⟩
    refine isMadeOf_of_mem_weaveChoices hP (fun choice hchoice => ?_) c.lineBreak
    obtain ⟨item, -, h⟩ := exists_mem_of_forall₂ (forall₂_zipWith
      (Q := fun _ choice => ∀ d ∈ choice, AllCompounds P d.items) hparts fun _ _ _ h => h).flip
      hchoice
    exact h

/-- **What a selector becomes is made of its own conditions and the extenders'.** -/
theorem extendComplexWith_all (hP : IsLasting G P) (hctx : ctx.All P) {c : Complex}
    (hc : AllCompounds P c.items)
    (hin : ∀ d, .compound d ∈ c.items → ∀ s ∈ d, ReplacesAll G inner s) :
    Ensures (fun _ _ => True) (ctx.extendComplexWith inner c) authored fun found _ =>
      ∀ l, found = some l → ∀ d ∈ l, d.IsMadeOf P := by
  refine (extendComplexWith_of_items hP fun item hitem itself authored' => ?_).mono
    fun found _ _ made => made.1
  refine extendItem_all hP hctx fun d eq => ?_
  subst eq
  exact ⟨hc d hitem, hin d hitem⟩

end ExtendContext

/-! ## Arguments -/

/-- A lasting property that goes on into arguments: a pseudo selector has it if the choices of its
argument have the property `Q`, which rows of compounds with the property have. -/
structure IsHereditary (G : Simple → Prop) (P : Compound → Prop) (Q : Complex → Prop) : Prop
    extends IsLasting G P where
  ofRow : ∀ c, Complex.IsMadeOf P c → Q c
  row : ∀ c, Q c → AllCompounds P c.items
  argument : ∀ p l, G (.pseudo p) → p.selector = some l → ∀ c ∈ l, Q c
  withSelector : ∀ p l, G (.pseudo p) → l ≠ [] → (∀ c ∈ l, Q c) → G (.pseudo (p.withSelector l))

variable {Q : Complex → Prop} {p : Pseudo} {l extended : SelectorList}

/-- A choice stays, or goes, or the argument of its only condition takes its place. -/
theorem mem_flattenChoice {c d : Complex} (h : d ∈ p.flattenChoice c) : d = c ∨
    ∃ inner l, .compound [.pseudo inner] ∈ c.items ∧ inner.selector = some l ∧ d ∈ l := by
  unfold Pseudo.flattenChoice at h
  split at h
  case h_2 => exact .inl (List.mem_singleton.1 h)
  case h_1 inner single =>
    have only : .compound [.pseudo inner] ∈ c.items := by
      rw [Complex.singleCompound?_eq_some_iff.1 single]
      exact List.mem_cons_self
    split at h
    case h_1 => exact .inl (List.mem_singleton.1 h)
    case h_2 l selector =>
      split at h
      case h_9 | h_10 | h_11 | h_12 => exact .inl (List.mem_singleton.1 h)
      case h_13 => cases h
      all_goals
        split at h
        · exact .inr ⟨inner, l, only, selector, h⟩
        · cases h

/-- Flattening an argument goes at most one level down, where the property holds too. -/
theorem of_mem_flattenChoice (hP : IsHereditary G P Q) {c : Complex} (hc : Q c) :
    ∀ d ∈ p.flattenChoice c, Q d := by
  intro d hd
  obtain rfl | ⟨inner, l, only, selector, hd⟩ := mem_flattenChoice hd
  · exact hc
  · exact hP.argument inner l (hP.conditions _ (hP.row c hc _ only) _ List.mem_cons_self)
      selector d hd

theorem of_mem_choicesFor (hP : IsHereditary G P Q) (h : ∀ c ∈ extended, Q c) :
    ∀ d ∈ p.choicesFor l extended, Q d := by
  intro d hd
  obtain ⟨c, hc, hd⟩ := List.mem_flatMap.1 hd
  refine of_mem_flattenChoice hP (h c ?_) d hd
  split at hc
  · exact List.mem_of_mem_filter hc
  · exact hc

/-- The pseudos with the extended argument: there is one, and all have the property. -/
theorem all_of_withExtended (hP : IsHereditary G P Q) (hp : G (.pseudo p)) (h : ∀ c ∈ extended, Q c)
    {found : List Pseudo} (hfound : p.withExtended l extended = some found) :
    found ≠ [] ∧ ∀ q ∈ found, G (.pseudo q) := by
  have choices := of_mem_choicesFor (p := p) (l := l) hP h
  unfold Pseudo.withExtended at hfound
  split at hfound
  · cases hfound
  · rename_i chosen
    split at hfound
    · obtain rfl := Option.some.inj hfound
      refine ⟨fun empty => chosen (List.map_eq_nil_iff.1 empty),
        List.forall_mem_map.2 fun c hc => ?_⟩
      exact hP.withSelector p _ hp (List.cons_ne_nil _ _)
        (List.forall_mem_singleton.2 (choices c hc))
    · obtain rfl := Option.some.inj hfound
      exact ⟨List.cons_ne_nil _ _, List.forall_mem_singleton.2
        (hP.withSelector p _ hp chosen choices)⟩

namespace ExtendContext

variable {ctx : ExtendContext} {inner : SelectorList → Extending (Option SelectorList)}

/-- The list a step gives has choices, and all of them have the property. -/
def GivesFilled (Q : Complex → Prop) (step : Extending (Option SelectorList)) : Prop :=
  ∀ authored, Ensures (fun _ _ => True) step authored fun found _ =>
    ∀ l, found = some l → l ≠ [] ∧ ∀ c ∈ l, Q c

/-- An extension of lists that keeps the property gives one of arguments. -/
theorem replacesAll_of_inner (hP : IsHereditary G P Q)
    (hin : ∀ l, (∀ c ∈ l, Q c) → GivesFilled Q (inner l)) {s : Simple} (hs : G s) :
    ReplacesAll G inner s := by
  intro authored
  unfold Simple.extendArgument
  split
  · rename_i p
    split
    · rename_i l selector
      refine (hin l (hP.argument p l hs selector) authored).bind fun found _ _ filled => ?_
      split
      · rename_i extended
        refine .pure ⟨fun empty => ?_, fun found hfound => ?_⟩
        · obtain ⟨replaced, eq, empty⟩ := Option.map_eq_some_iff.1 empty
          exact (all_of_withExtended hP hs (filled extended rfl).2 eq).1
            (List.map_eq_nil_iff.1 empty)
        · obtain ⟨replaced, eq, rfl⟩ := Option.map_eq_some_iff.1 hfound
          exact List.forall_mem_map.2 (all_of_withExtended hP hs (filled extended rfl).2 eq).2
      · exact .pure ⟨nofun, nofun⟩
    · exact .pure ⟨nofun, nofun⟩
  · exact .pure ⟨nofun, nofun⟩

theorem extendComplexWith_isMadeOf (hP : IsHereditary G P Q) (hctx : ctx.All P)
    (hin : ∀ l, (∀ c ∈ l, Q c) → GivesFilled Q (inner l)) {c : Complex}
    (hc : AllCompounds P c.items) (authored : List Complex) :
    Ensures (fun _ _ => True) (ctx.extendComplexWith inner c) authored fun found _ =>
      ∀ l, found = some l → ∀ d ∈ l, d.IsMadeOf P :=
  extendComplexWith_all hP.toIsLasting hctx hc fun d hd s hs =>
    replacesAll_of_inner hP hin (hP.conditions d (hc d hd) s hs)

/-- What the members of a list become, or they themselves, whatever the state they are found in. -/
theorem mapM_extendComplexWith_all (hP : IsHereditary G P Q) (hctx : ctx.All P)
    (hin : ∀ l, (∀ c ∈ l, Q c) → GivesFilled Q (inner l)) (hl : ∀ c ∈ l, Q c)
    {authored : List Complex} :
    Ensures (fun _ _ => True) (l.mapM (ctx.extendComplexWith inner)) authored fun parts _ =>
      ∀ d ∈ (List.zipWith (fun c part => part.getD [c]) l parts).flatten, Q d := by
  refine (Ensures.mapM (S := fun c part => ∀ d ∈ part.getD [c], Q d)
    fun c hc authored' _ => ?_).mono fun parts _ _ hparts d hd => ?_
  · refine (extendComplexWith_isMadeOf hP hctx hin (hP.row c (hl c hc)) authored').mono
      fun part _ _ made => ?_
    cases part with
    | none => exact List.forall_mem_singleton.2 (hl c hc)
    | some part => exact fun d hd => hP.ofRow d (made part rfl d hd)
  · obtain ⟨choice, hchoice, hd⟩ := List.mem_flatten.1 hd
    obtain ⟨c, -, made⟩ := exists_mem_of_forall₂ (forall₂_zipWith
      (Q := fun _ choice => ∀ d ∈ choice, Q d) hparts fun _ _ _ h => h).flip hchoice
    exact made d hd

theorem extendListWith_givesFilled (hP : IsHereditary G P Q) (hctx : ctx.All P)
    (hin : ∀ l, (∀ c ∈ l, Q c) → GivesFilled Q (inner l))
    (hl : ∀ c ∈ l, Q c) : GivesFilled Q (ctx.extendListWith inner l) := by
  intro authored
  refine (mapM_extendComplexWith_all hP hctx hin hl).bind fun parts _ _ hparts => ?_
  split
  · exact .pure nofun
  refine Ensures.get_bind ?_
  split
  · exact .pure nofun
  · rename_i filled
    refine .pure ?_
    rintro _ ⟨⟩
    exact ⟨filled, fun d hd => hparts d (mem_of_mem_trim hd)⟩

/-- Every level, by induction. -/
theorem extendListWithin_givesFilled (hP : IsHereditary G P Q) (hctx : ctx.All P) :
    ∀ (n : ℕ) {l : SelectorList}, (∀ c ∈ l, Q c) → GivesFilled Q (ctx.extendListWithin n l)
  | 0, _, _ => fun _ => .pure nofun
  | n + 1, _, hl =>
    extendListWith_givesFilled hP hctx (fun _ => extendListWithin_givesFilled hP hctx n) hl

/-- **A list becomes one that is made of its own conditions and the extenders'.** -/
theorem extendList_givesFilled (hP : IsHereditary G P Q) (hctx : ctx.All P)
    (hl : ∀ c ∈ l, Q c) : GivesFilled Q (ctx.extendList l) :=
  extendListWithin_givesFilled hP hctx _ hl

/-- **A complex selector becomes ones that are made of its own conditions and the extenders'.** -/
theorem extendComplex_isMadeOf (hP : IsHereditary G P Q) (hctx : ctx.All P) {c : Complex}
    (hc : AllCompounds P c.items) (authored : List Complex) :
    Ensures (fun _ _ => True) (ctx.extendComplex c) authored fun found _ =>
      ∀ l, found = some l → ∀ d ∈ l, d.IsMadeOf P :=
  extendComplexWith_isMadeOf hP hctx (fun _ => extendListWithin_givesFilled hP hctx _) hc authored

end ExtendContext

end SelectorAlgebra
