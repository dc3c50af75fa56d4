import SelectorAlgebra.Proofs.Retention
import SelectorAlgebra.Proofs.SoundSelectors
import SelectorAlgebra.Proofs.Tables

/-!
# Proofs/ValidExtension — extending valid selectors

Extending keeps selectors valid level by level: the options for a condition are sound, what they
unify to is closed, and what is woven from closed rows is valid.  The one thing that stands in the
way is unification.  Rows that end in a combinator before their last compound are woven one after
the other, and from the second to the last but one their combinators are put side by side:

    .a > .x   .a > .x   .a > .x   ↦   .a > > .x

So a compound must not meet more than two targets if an extender is bound to its last compound by a
combinator (`ExtendContext.Allows`).

* `extendList_sound` — a sound list becomes a sound list, at every depth;
* `isBogus_eq_false_of_extended` — extending and replacing outside a style sheet.
-/

namespace SelectorAlgebra

/-! ## The choices for a compound -/

/-- The selector has a combinator right before its last compound. -/
def Complex.isBound (c : Complex) : Bool := endsJoined c.items.dropLast

/-- What is kept is sound, and so is an extender. -/
def Substitute.IsSound : Substitute → Prop
  | .kept conditions => ∀ s ∈ conditions, s.IsSound
  | .extended e => IsValidRow Simple.IsSound 0 e.extender.items

theorem Substitute.IsSound.complex {o : Substitute} (h : o.IsSound) :
    IsValidRow Simple.IsSound 0 o.complex.items := by
  cases o with
  | kept conditions => exact isValidRow_compound h
  | extended e => exact h

/-- The part of a compound is sound, and what replaces it when its argument is extended are sound
conditions with arguments. -/
structure IsSoundPart (part : Simple × Option (List Simple)) : Prop where
  itself : part.1.IsSound
  replaced : ∀ found, part.2 = some found → ∀ s ∈ found, s.IsSound ∧ s.argument? ≠ none

/-- No selection from the choices makes combinators stand side by side. -/
def AreCalm (choices : List (List Substitute)) : Prop :=
  ∀ selection, List.Forall₂ (· ∈ ·) selection choices →
    collide (selection.filterMap Substitute.extenderRow?) = false

namespace ExtendContext

/-- The extension is one of those in the context. -/
def Holds (ctx : ExtendContext) (e : Extension) : Prop :=
  ∃ s sources, ctx.extensions.get? s = some sources ∧ e ∈ sources.values

/-- All extenders are valid, with sound conditions. -/
def IsSound (ctx : ExtendContext) : Prop :=
  ∀ e, ctx.Holds e → IsValidRow Simple.IsSound 0 e.extender.items

/-- No extender has a combinator before its last compound, or no target has an argument and the
compound meets no more than two of them. -/
def Allows (ctx : ExtendContext) (c : Compound) : Prop :=
  (∀ e, ctx.Holds e → e.extender.isBound = false) ∨
    (∀ s, ctx.extensions.contains s = true → s.argument? = none) ∧
      c.countP ctx.extensions.contains ≤ 2

/-- The condition may stay: where targets give way, it is none. -/
def Keeps (ctx : ExtendContext) (s : Simple) : Prop :=
  ctx.mode = .replace → ctx.extensions.contains s = false

/-- What may stand for a condition, which is itself if it is no target. -/
def optionsFor (ctx : ExtendContext) (s : Simple) : List Substitute :=
  (ctx.substitutes? s).getD [.kept [s]]

variable {ctx : ExtendContext} {parts : List (Simple × Option (List Simple))}
  {choices : List (List Substitute)} {selection : List Substitute}

/-- The choices for a part are the options for what replaces it. -/
theorem choicesFor_getD (ctx : ExtendContext) (part : Simple × Option (List Simple)) :
    (ctx.choicesFor part).getD [[.kept [part.1]]] = (part.2.getD [part.1]).map ctx.optionsFor := by
  obtain ⟨s, _ | found⟩ := part
  · unfold choicesFor optionsFor
    cases h : ctx.substitutes? s with
    | none => simp [h]
    | some options => simp [h]
  · rfl

/-- The choices for a compound: the conditions before the first extended one, and the options for
each of the others. -/
theorem exists_of_compoundChoices (h : ctx.compoundChoices parts = some choices) :
    ∃ before conditions : List Simple, before ⊆ parts.map Prod.fst ∧
      conditions.Sublist (parts.flatMap fun part => part.2.getD [part.1]) ∧
      (choices = conditions.map ctx.optionsFor ∨
        choices = [.kept before] :: conditions.map ctx.optionsFor) := by
  simp only [compoundChoices, choicesFor_getD, ← List.map_flatMap] at h
  set untouched := fun part => (ctx.choicesFor part).isNone
  split at h
  · cases h
  · obtain rfl := Option.some.inj h
    refine ⟨(parts.takeWhile untouched).map Prod.fst, _,
      List.map_subset Prod.fst (List.takeWhile_subset _),
      (List.dropWhile_sublist untouched).flatMap _, ?_⟩
    split
    · exact .inl rfl
    · exact .inr rfl

/-- An option keeps the condition or is an extension of it. -/
theorem mem_optionsFor {s : Simple} {o : Substitute} (h : o ∈ ctx.optionsFor s) :
    o = .kept [s] ∧ ctx.Keeps s ∨
      ctx.extensions.contains s = true ∧ ∃ e, o = .extended e ∧ ctx.Holds e := by
  unfold optionsFor substitutes? at h
  cases hget : ctx.extensions.get? s with
  | none =>
    have untargeted : ctx.extensions.contains s = false := by
      rw [OrderedMap.contains_eq_isSome, hget]
      rfl
    rw [hget] at h
    exact .inl ⟨List.mem_singleton.1 h, fun _ => untargeted⟩
  | some sources =>
    have added : o ∈ sources.values.map Substitute.extended →
        ctx.extensions.contains s = true ∧ ∃ e, o = .extended e ∧ ctx.Holds e := by
      intro ho
      obtain ⟨e, he, rfl⟩ := List.mem_map.1 ho
      rw [OrderedMap.contains_eq_isSome, hget]
      exact ⟨rfl, e, rfl, s, sources, hget, he⟩
    rw [hget, Option.map_some, Option.getD_some] at h
    split at h
    · exact .inr (added h)
    · rename_i stays
      exact (List.mem_cons.1 h).imp (fun eq => ⟨eq, fun replace => absurd replace stays⟩) added

/-- Everything that may stand in a compound is sound. -/
theorem isSound_of_mem_compoundChoices (hctx : ctx.IsSound)
    (hp : ∀ part ∈ parts, IsSoundPart part) (h : ctx.compoundChoices parts = some choices) :
    ∀ choice ∈ choices, ∀ o ∈ choice, o.IsSound := by
  obtain ⟨before, conditions, sub, sublist, eq⟩ := exists_of_compoundChoices h
  have kept : (Substitute.kept before).IsSound := by
    intro s hs
    obtain ⟨part, hpart, rfl⟩ := List.mem_map.1 (sub hs)
    exact (hp part hpart).itself
  have sound : ∀ s ∈ conditions, s.IsSound := by
    intro s hs
    obtain ⟨⟨t, found⟩, hpart, hs⟩ := List.mem_flatMap.1 (sublist.subset hs)
    cases found with
    | none => exact List.mem_singleton.1 hs ▸ (hp _ hpart).itself
    | some found => exact ((hp _ hpart).replaced found rfl s hs).1
  have options : ∀ choice ∈ conditions.map ctx.optionsFor, ∀ o ∈ choice, o.IsSound := by
    intro choice hchoice o ho
    obtain ⟨s, hs, rfl⟩ := List.mem_map.1 hchoice
    rcases mem_optionsFor ho with ⟨rfl, -⟩ | ⟨-, e, rfl, he⟩
    · exact List.forall_mem_singleton.2 (sound s hs)
    · exact hctx e he
  rcases eq with rfl | rfl
  · exact options
  · exact List.forall_mem_cons.2 ⟨List.forall_mem_singleton.2 kept, options⟩

/-- No more extenders stand in a selection than there are targets to be extended. -/
theorem length_extenderRows_le {conditions : List Simple}
    (h : List.Forall₂ (· ∈ ·) selection (conditions.map ctx.optionsFor)) :
    (selection.filterMap Substitute.extenderRow?).length
      ≤ conditions.countP ctx.extensions.contains := by
  induction conditions generalizing selection with
  | nil =>
    rw [List.map_nil, List.forall₂_nil_right_iff] at h
    rw [h]
    exact le_rfl
  | cons s conditions ih =>
    obtain ⟨o, rest, ho, hrest, rfl⟩ := List.forall₂_cons_right_iff.1 h
    rcases mem_optionsFor ho with ⟨rfl, -⟩ | ⟨target, e, rfl, -⟩
    · rw [List.filterMap_cons_none rfl]
      exact (ih hrest).trans (List.sublist_cons_self s conditions).countP_le
    · have row : (Substitute.extended e).extenderRow? = some e.extender.items := rfl
      rw [List.filterMap_cons_some row, List.countP_cons_of_pos target]
      exact Nat.succ_le_succ (ih hrest)

/-- Extending arguments makes no new targets if no target has an argument. -/
theorem countP_flatMap_replaced_le
    (plain : ∀ s, ctx.extensions.contains s = true → s.argument? = none)
    (hp : ∀ part ∈ parts, IsSoundPart part) :
    (parts.flatMap fun part => part.2.getD [part.1]).countP ctx.extensions.contains
      ≤ (parts.map Prod.fst).countP ctx.extensions.contains := by
  induction parts with
  | nil => exact le_rfl
  | cons part parts ih =>
    rw [List.forall_mem_cons] at hp
    rw [List.flatMap_cons, List.map_cons, List.countP_append, List.countP_cons, Nat.add_comm]
    refine Nat.add_le_add (ih hp.2) ?_
    obtain ⟨s, _ | found⟩ := part
    · rw [Option.getD_none, List.countP_singleton]
    · have untargeted : found.countP ctx.extensions.contains = 0 :=
        List.countP_eq_zero.2 fun t ht target => (hp.1.replaced found rfl t ht).2 (plain t target)
      rw [Option.getD_some, untargeted]
      exact Nat.zero_le _

/-- The options for conditions bring nothing together if there are few targets or no extender is
bound. -/
theorem areCalm_map_optionsFor {conditions : List Simple}
    (h : (∀ e, ctx.Holds e → e.extender.isBound = false) ∨
      conditions.countP ctx.extensions.contains ≤ 2) : AreCalm (conditions.map ctx.optionsFor) := by
  intro selection hs
  rcases h with unbound | few
  · refine collide_of_unjoined fun row hrow => ?_
    obtain ⟨o, ho, hrow⟩ := List.mem_filterMap.1 hrow
    obtain ⟨choice, hchoice, ho⟩ := exists_mem_of_forall₂ hs ho
    obtain ⟨s, -, rfl⟩ := List.mem_map.1 hchoice
    rcases mem_optionsFor ho with ⟨rfl, -⟩ | ⟨-, e, rfl, holds⟩
    · cases hrow
    · obtain rfl := Option.some.inj hrow
      exact unbound e holds
  · exact collide_of_length_le ((length_extenderRows_le hs).trans few)

/-- **An allowed compound brings no combinators together.** -/
theorem areCalm_of_allows (hp : ∀ part ∈ parts, IsSoundPart part)
    (allows : ctx.Allows (parts.map Prod.fst)) (h : ctx.compoundChoices parts = some choices) :
    AreCalm choices := by
  obtain ⟨before, conditions, -, sublist, eq⟩ := exists_of_compoundChoices h
  have calm : AreCalm (conditions.map ctx.optionsFor) := by
    refine areCalm_map_optionsFor (allows.imp_right fun few => ?_)
    calc conditions.countP ctx.extensions.contains
        ≤ (parts.flatMap fun part => part.2.getD [part.1]).countP ctx.extensions.contains :=
          sublist.countP_le
      _ ≤ (parts.map Prod.fst).countP ctx.extensions.contains :=
          countP_flatMap_replaced_le few.1 hp
      _ ≤ 2 := few.2
  rcases eq with rfl | rfl
  · exact calm
  · -- the conditions that stay together bring no row
    intro selection hs
    obtain ⟨o, rest, ho, hrest, rfl⟩ := List.forall₂_cons_right_iff.1 hs
    rw [List.mem_singleton.1 ho, List.filterMap_cons_none rfl]
    exact calm rest hrest

/-! ## What a compound becomes -/

variable {rows : List (List Item)} {found : List Complex}

/-- A selection of sound members that do not collide unifies to closed rows. -/
theorem areClosedRows_of_unifySelection (hs : ∀ o ∈ selection, o.IsSound)
    (calm : collide (selection.filterMap Substitute.extenderRow?) = false)
    (h : unifySelection selection = some rows) : AreClosedRows Simple.IsSound rows := by
  have extenders : AreClosedRows Simple.IsSound (selection.filterMap Substitute.extenderRow?) := by
    intro row hrow
    obtain ⟨o, ho, hrow⟩ := List.mem_filterMap.1 hrow
    cases o with
    | kept c => cases hrow
    | extended e =>
      obtain rfl := Option.some.inj hrow
      exact isValidRow_zero.1 (hs _ ho)
  have kept : ∀ s ∈ selection.flatMap Substitute.keptConditions, s.IsSound := by
    intro s hs'
    obtain ⟨o, ho, hs'⟩ := List.mem_flatMap.1 hs'
    cases o with
    | kept c => exact hs _ ho s hs'
    | extended e => cases hs'
  have unify : ∀ {rows found}, AreClosedRows Simple.IsSound rows → collide rows = false →
      unifyRows rows = some found → AreClosedRows Simple.IsSound found :=
    areClosedRows_of_unifyRowsWith isStable_isSound.element (weaves_weaveParents isStable_isSound)
  unfold unifySelection at h
  split at h
  · exact unify extenders calm h
  · refine unify (List.forall_mem_cons.2 ⟨⟨isClosedRow_compound kept, by simp⟩, extenders⟩) ?_ h
    rwa [collide_cons_compound]

theorem areClosedRows_of_keptSelection (hs : ∀ o ∈ selection, o.IsSound)
    (h : keptSelection selection = some rows) : AreClosedRows Simple.IsSound rows := by
  obtain rfl := Option.some.inj h
  refine List.forall_mem_singleton.2 ⟨isClosedRow_compound fun s hs' => ?_, by simp⟩
  obtain ⟨o, ho, hs'⟩ := List.mem_flatMap.1 hs'
  have closed := (isValidRow_zero.1 (hs o ho).complex).1
  cases last : o.complex.lastCompound? with
  | none =>
    rw [last] at hs'
    cases hs'
  | some c =>
    rw [last] at hs'
    exact forall_mem_baseOfRow closed.toIsOpenRow last s hs'

/-- Every selection gives sound selectors. -/
theorem areSound_of_complexesOfSelections (hs : ∀ choice ∈ choices, ∀ o ∈ choice, o.IsSound)
    (calm : AreCalm choices) {all : List (Option (List Complex))}
    (h : ctx.complexesOfSelections choices = .ok all) :
    ∀ found ∈ all, ∀ l, found = some l → AreSound 0 l := by
  rintro found hfound l rfl c hc
  obtain ⟨selection, mem, rows, eq, given⟩ := exists_candidate h hfound
  obtain ⟨rows', hrows, rowOf⟩ := exists_rows_of_complexesOf eq
  have sound := forall_mem_of_mem_selections hs mem
  suffices closed : AreClosedRows Simple.IsSound rows' from isValidRow_zero.2
    (closed _ (rowOf c hc).1)
  rcases given with rfl | ⟨-, -, rfl⟩
  · exact areClosedRows_of_unifySelection sound (calm selection (mem_selections.1 mem)) hrows
  · exact areClosedRows_of_keptSelection sound hrows

/-- **A compound becomes sound selectors**, if no selection brings combinators together. -/
theorem areSound_of_complexesOfChoices (hs : ∀ choice ∈ choices, ∀ o ∈ choice, o.IsSound)
    (calm : AreCalm choices) {itself : Bool}
    (h : ctx.complexesOfChoices itself choices = .ok found) : AreSound 0 found := by
  intro c hc
  rcases exists_of_mem_complexesOfChoices h hc with ⟨only, o, rfl, ho, rfl⟩ | ⟨all, l, hall, hl, hc⟩
  · exact (hs only (List.mem_singleton_self _) o ho).complex
  · exact areSound_of_complexesOfSelections hs calm hall _ hl l rfl c hc

/-! ## Selectors and lists -/

/-- The step gives a sound list if it gives any, whatever the state. -/
def GivesSound (n : ℕ) (step : Extending (Option (List Complex))) : Prop :=
  ∀ authored, Ensures (fun _ _ => True) step authored fun found _ =>
    ∀ l, found = some l → AreSound n l

/-- What a sound list becomes is sound. -/
def KeepsSound (inner : SelectorList → Extending (Option SelectorList)) (l : SelectorList) : Prop :=
  ∀ n, AreSound n l → GivesSound n (inner l)

variable {inner : SelectorList → Extending (Option SelectorList)} {authored : List Complex}

/-- The compound may be extended, and so may the arguments in it. -/
structure Admits (ctx : ExtendContext) (inner : SelectorList → Extending (Option SelectorList))
    (c : Compound) : Prop where
  allows : ctx.Allows c
  arguments : ∀ s ∈ c, ∀ l, s.argument? = some l → KeepsSound inner l

theorem extendArgument_sound {s : Simple} (hs : s.IsSound)
    (hin : ∀ l, s.argument? = some l → KeepsSound inner l) :
    Ensures (fun _ _ => True) (s.extendArgument inner) authored fun found _ =>
      ∀ l, found = some l → ∀ t ∈ l, t.IsSound ∧ t.argument? ≠ none := by
  unfold Simple.extendArgument
  split
  · rename_i p
    split
    · rename_i l hl
      have argument := (Simple.isSound_pseudo.1 hs).2 l hl
      refine (hin l hl _ argument authored).bind fun found _ _ sound => ?_
      cases found with
      | none => exact .pure nofun
      | some extended =>
        refine .pure fun replaced hr t ht => ?_
        obtain ⟨ps, hps, rfl⟩ := Option.map_eq_some_iff.1 hr
        obtain ⟨q, hq, rfl⟩ := List.mem_map.1 ht
        refine ⟨isSound_of_mem_withExtended hs (sound extended rfl) hps hq, ?_⟩
        obtain ⟨choices, -, rfl⟩ := exists_of_mem_withExtended hps hq
        exact Option.some_ne_none choices
    · exact .pure nofun
  · exact .pure nofun

/-- A sound compound becomes sound selectors. -/
theorem extendCompound_sound (hctx : ctx.IsSound) {c : Compound} (hc : ∀ s ∈ c, s.IsSound)
    (admits : ctx.Admits inner c) {itself : Bool} :
    GivesSound 0 (ctx.extendCompound inner itself c) := by
  intro authored
  refine (Ensures.mapM (S := fun s part => s = part.1 ∧ IsSoundPart part) fun s hs _ _ => ?_).bind
    fun parts _ _ hparts => ?_
  · exact (extendArgument_sound (hc s hs) (admits.arguments s hs)).bind fun found _ _ replaced =>
      .pure ⟨rfl, hc s hs, replaced⟩
  · have sound : ∀ part ∈ parts, IsSoundPart part := by
      intro part hpart
      obtain ⟨s, -, -, h⟩ := exists_mem_of_forall₂ hparts.flip hpart
      exact h
    obtain rfl : c = parts.map Prod.fst := by
      rw [← List.forall₂_eq_eq_eq, List.forall₂_map_right_iff]
      exact hparts.imp fun _ _ h => h.1
    cases hchoices : ctx.compoundChoices parts with
    | none => exact .pure nofun
    | some choices =>
      dsimp only
      split
      · refine (Ensures.ofExcept (Q := fun found _ => AreSound 0 found) fun found hfound => ?_).bind
          fun found _ _ hfound => .pure ?_
        · exact areSound_of_complexesOfChoices (isSound_of_mem_compoundChoices hctx sound hchoices)
            (areCalm_of_allows sound admits.allows hchoices) hfound
        · rintro _ ⟨⟩
          exact hfound
      · exact .pure nofun

/-- What an item becomes may stand in its place, and so may the item itself. -/
theorem extendItem_standsFor (hctx : ctx.IsSound) {item : Item}
    (hi : ∀ c, item = .compound c → (∀ s ∈ c, s.IsSound) ∧ ctx.Admits inner c) {itself : Bool} :
    Ensures (fun _ _ => True) (ctx.extendItem inner itself item) authored fun found _ =>
      ∀ d ∈ found.getD [⟨[item], false⟩], StandsFor Simple.IsSound item d.items := by
  cases item with
  | combinator k => exact .pure (List.forall_mem_singleton.2 (.combinator k))
  | compound c =>
    obtain ⟨hc, admits⟩ := hi c rfl
    refine (extendCompound_sound hctx hc admits authored).mono fun found _ _ sound => ?_
    have stands : ∀ l, AreSound 0 l → ∀ d ∈ l, StandsFor Simple.IsSound (.compound c) d.items := by
      intro l hl d hd
      obtain ⟨closed, filled⟩ := isValidRow_zero.1 (hl d hd)
      exact .compound c closed filled
    cases found with
    | none => exact stands _ (List.forall_mem_singleton.2 (isValidRow_compound hc))
    | some l => exact stands l (sound l rfl)

theorem forall₂_standsFor {G : Simple → Prop} {items : List Item} {choices : List (List Complex)}
    {path : List Complex}
    (h : List.Forall₂ (fun item choice => ∀ d ∈ choice, StandsFor G item d.items) items choices)
    (hp : List.Forall₂ (· ∈ ·) path choices) :
    List.Forall₂ (StandsFor G) items (path.map Complex.items) := by
  induction h generalizing path with
  | nil =>
    obtain rfl := List.forall₂_nil_right_iff.1 hp
    exact .nil
  | cons first _ ih =>
    obtain ⟨d, rest, hd, hrest, rfl⟩ := List.forall₂_cons_right_iff.1 hp
    exact .cons (first d hd) (ih hrest)

/-- Weaving what stands for the items of a valid row gives valid rows. -/
theorem areSound_weaveChoices {n : ℕ} {items : List Item} (hi : IsValidRow Simple.IsSound n items)
    {choices : List (List Complex)}
    (h : List.Forall₂ (fun item choice => ∀ d ∈ choice, StandsFor Simple.IsSound item d.items)
      items choices) (lineBreak : Bool) : AreSound n (weaveChoices lineBreak choices) := by
  intro d hd
  obtain ⟨path, hpath, hd⟩ := List.mem_flatMap.1 hd
  obtain ⟨row, hrow, rfl⟩ := List.mem_map.1 hd
  have stands := forall₂_standsFor h (mem_selections.1 hpath)
  exact isValidRow_of_mem_weave isStable_isSound hi stands row (List.mem_of_mem_filter hrow)

/-- **What a selector becomes is judged by what its items become.** -/
theorem extendComplexWith_result {c : Complex} {S : Item → Option (List Complex) → Prop}
    {Q : Option (List Complex) → Prop}
    (each : ∀ item ∈ c.items, ∀ itself authored, Ensures (fun _ _ => True)
      (ctx.extendItem inner itself item) authored fun part _ => S item part)
    (stays : ∀ parts, List.Forall₂ S c.items parts → (∀ part ∈ parts, part = none) → Q none)
    (becomes : ∀ parts, List.Forall₂ S c.items parts → Q (some (weaveChoices c.lineBreak
      (List.zipWith (fun item part => part.getD [⟨[item], false⟩]) c.items parts)))) :
    Ensures (fun _ _ => True) (ctx.extendComplexWith inner c) authored fun found _ => Q found := by
  refine Ensures.get_bind ?_
  refine (Ensures.mapM fun item hitem authored' _ => each item hitem _ authored').bind
    fun parts _ _ hparts => ?_
  split
  · rename_i untouched
    exact .pure (stays parts hparts fun part hpart =>
      Option.isNone_iff_eq_none.1 (List.all_eq_true.1 untouched part hpart))
  · have result := becomes parts hparts
    dsimp only
    split
    · split
      · exact (Ensures.modify (Q := fun _ _ => True) trivial trivial).bind
          fun _ _ _ _ => .pure result
      · exact .pure result
    · exact .pure result

/-- **What a list becomes is judged by what its selectors become**: it stays if all of them do, or
if nothing is left of them. -/
theorem extendListWith_result {l : SelectorList} {S : Complex → Option (List Complex) → Prop}
    {Q : Option SelectorList → Prop}
    (each : ∀ c ∈ l, ∀ authored, Ensures (fun _ _ => True) (ctx.extendComplexWith inner c) authored
      fun part _ => S c part)
    (stays : ∀ parts, List.Forall₂ S l parts → (∀ part ∈ parts, part = none) → Q none)
    (gone : ∀ parts, List.Forall₂ S l parts →
      (List.zipWith (fun c part => part.getD [c]) l parts).flatten = [] → Q none)
    (becomes : ∀ parts found, List.Forall₂ S l parts → found ≠ [] →
      found ⊆ (List.zipWith (fun c part => part.getD [c]) l parts).flatten → Q (some found)) :
    Ensures (fun _ _ => True) (ctx.extendListWith inner l) authored fun found _ => Q found := by
  refine (Ensures.mapM fun c hc authored' _ => each c hc authored').bind fun parts _ _ hparts => ?_
  split
  · rename_i untouched
    exact .pure (stays parts hparts fun part hpart =>
      Option.isNone_iff_eq_none.1 (List.all_eq_true.1 untouched part hpart))
  refine Ensures.get_bind ?_
  split
  · rename_i untouched
    exact .pure (gone parts hparts (eq_nil_of_trim_eq_nil untouched))
  · rename_i filled
    exact .pure (becomes parts _ hparts filled fun d hd => mem_of_mem_trim hd)

/-- **A sound selector becomes sound selectors.** -/
theorem extendComplexWith_sound (hctx : ctx.IsSound) {n : ℕ} {c : Complex}
    (hc : IsValidRow Simple.IsSound n c.items)
    (admits : ∀ d, .compound d ∈ c.items → ctx.Admits inner d) :
    GivesSound n (ctx.extendComplexWith inner c) := by
  intro authored
  refine extendComplexWith_result (fun item hitem _ _ => extendItem_standsFor hctx ?_)
    (fun parts _ _ => nofun) fun parts hparts => ?_
  · rintro d rfl
    exact ⟨(isValidRow_iff.1 hc).2 d hitem, admits d hitem⟩
  · rintro _ ⟨⟩
    exact areSound_weaveChoices hc (forall₂_zipWith hparts fun _ _ _ h => h) c.lineBreak

/-- **A sound list becomes a sound list.** -/
theorem extendListWith_sound (hctx : ctx.IsSound) {l : SelectorList}
    (admits : ∀ c ∈ l, ∀ d, .compound d ∈ c.items → ctx.Admits inner d) :
    KeepsSound (ctx.extendListWith inner) l := by
  intro n hl authored
  refine extendListWith_result (S := fun c part => AreSound n (part.getD [c]))
    (fun c hc authored' => ?_)
    (fun _ _ _ => nofun) (fun _ _ _ => nofun) fun parts found hparts _ sub => ?_
  · refine (extendComplexWith_sound hctx (hl c hc) (admits c hc) _).mono fun part _ _ sound => ?_
    cases part with
    | none => exact List.forall_mem_singleton.2 (hl c hc)
    | some found => exact sound found rfl
  · rintro _ ⟨⟩ d hd
    have became := forall₂_zipWith hparts fun _ _ _ h => h
    obtain ⟨choice, hchoice, hd⟩ := List.mem_flatten.1 (sub hd)
    obtain ⟨c, -, sound⟩ := exists_mem_of_forall₂ became.flip hchoice
    exact sound d hd

/-- The same at every depth. -/
theorem extendListWithin_sound (hctx : ctx.IsSound) (n : ℕ) {l : SelectorList}
    (allows : ∀ c ∈ compoundsOfList l, ctx.Allows c) : KeepsSound (ctx.extendListWithin n) l := by
  induction n generalizing l with
  | zero => exact fun n hl authored => .pure nofun
  | succ n ih =>
    refine extendListWith_sound hctx fun c hc d hd => ⟨?_, fun s hs arg harg => ih fun e he => ?_⟩
    · exact allows d (mem_compoundsOfList.2 ⟨c, hc, mem_compoundsOfItems.2 ⟨d, hd, .inl rfl⟩⟩)
    · rw [← Simple.innerCompounds_eq harg] at he
      exact allows e
        (mem_compoundsOfList.2 ⟨c, hc, mem_compoundsOfItems.2 ⟨d, hd, .inr ⟨s, hs, he⟩⟩⟩)

theorem extendList_sound (hctx : ctx.IsSound) {l : SelectorList}
    (allows : ∀ c ∈ compoundsOfList l, ctx.Allows c) : KeepsSound ctx.extendList l :=
  fun n => extendListWithin_sound hctx (SelectorList.nesting l + 1) allows n

end ExtendContext

/-! ## Extending outside a style sheet -/

section OneShot

variable {mode : ExtendMode} {l source targets found : SelectorList} {target : Compound}
  {span : Span}

/-- The extensions of the conditions of a target by the choices of a source. -/
theorem exists_of_holds {sources : SourceSpecificity} {media : Option MediaContext} {e : Extension}
    (h : ExtendContext.Holds ⟨mode, sources, extensionsOf source target span, media⟩ e) :
    ∃ s ∈ target, ∃ c ∈ source, e = .rule (.oneOff c s span c.specificity.max false) := by
  obtain ⟨s, table, found, mem⟩ := h
  obtain ⟨k, hk, -⟩ := OrderedMap.exists_mem_of_get? found
  rcases OrderedMap.mem_values_insertAll (List.mem_map_of_mem (f := Prod.snd) hk) with absent | mem'
  · cases absent
  · obtain ⟨_, hentry, rfl⟩ := List.mem_map.1 mem'
    obtain ⟨t, ht, rfl⟩ := List.mem_map.1 hentry
    rcases OrderedMap.mem_values_insertAll mem with absent | mem
    · cases absent
    · obtain ⟨_, hentry, rfl⟩ := List.mem_map.1 mem
      obtain ⟨c, hc, rfl⟩ := List.mem_map.1 hentry
      exact ⟨t, ht, c, hc, rfl⟩

theorem extender_mem_of_holds {sources : SourceSpecificity} {media : Option MediaContext}
    {e : Extension}
    (h : ExtendContext.Holds ⟨mode, sources, extensionsOf source target span, media⟩ e) :
    e.extender ∈ source := by
  obtain ⟨s, -, c, hc, rfl⟩ := exists_of_holds h
  exact hc

/-- The extensions of one condition by the choices of a source. -/
def extendersOf (source : SelectorList) (s : Simple) (span : Span) : OrderedMap Complex Extension :=
  .ofList (source.map fun c => (c, .rule (.oneOff c s span c.specificity.max false)))

/-- Each choice of the source extends the condition, or an equivalent one does. -/
theorem exists_extender_of_mem {c : Complex} (hc : c ∈ source) (s : Simple) (span : Span) :
    ∃ e ∈ (extendersOf source s span).values, e.extender ∈ source ∧ (e.extender == c) = true := by
  obtain ⟨entry, mem, same, found⟩ := OrderedMap.exists_get?_ofList (List.mem_map_of_mem
    (f := fun c => (c, Extension.rule (.oneOff c s span c.specificity.max false))) hc)
  obtain ⟨d, hd, rfl⟩ := List.mem_map.1 mem
  obtain ⟨_, stored, -⟩ := OrderedMap.exists_mem_of_get? found
  exact ⟨_, List.mem_map_of_mem stored, hd, same⟩

theorem contains_extensionsOf (s : Simple) :
    (extensionsOf source target span).contains s = target.contains s := by
  have missing : (OrderedMap.empty : ExtensionMap).get? s = none := rfl
  rw [OrderedMap.contains_eq_isSome, extensionsOf, OrderedMap.ofList, OrderedMap.get?_insertAll,
    missing, Option.or_none, Option.isSome_map, Bool.eq_iff_iff, List.find?_isSome,
    List.contains_iff_exists_mem_beq]
  simp [BEq.comm]

/-- The conditions of the target have no arguments, and no compound at any depth of the list holds
more than two of them. -/
def IsUncrowded (target : Compound) (l : SelectorList) : Prop :=
  (∀ s ∈ target, s.argument?.isNone = true) ∧ ∀ c ∈ compoundsOfList l, c.countP target.contains ≤ 2

/-- Compounds of at most two conditions are never crowded. -/
theorem isUncrowded_of_length_le (plain : ∀ s ∈ target, s.argument?.isNone = true)
    (short : ∀ c ∈ compoundsOfList l, c.length ≤ 2) : IsUncrowded target l :=
  ⟨plain, fun c hc => List.countP_le_length.trans (short c hc)⟩

/-- **One target extended in a sound list.** -/
theorem applyTarget_sound (hs : AreSound 0 source)
    (apart : (∀ c ∈ source, c.isBound = false) ∨ IsUncrowded target l) (hl : AreSound 0 l)
    (authored : List Complex) :
    Ensures (fun _ _ => True) (applyTarget mode source span l target) authored fun found _ =>
      AreSound 0 found := by
  have sound : ExtendContext.IsSound ⟨mode, .empty, extensionsOf source target span, none⟩ :=
    fun e he => hs _ (extender_mem_of_holds he)
  refine (ExtendContext.extendList_sound sound ?_ 0 hl authored).bind fun found _ _ hfound =>
    .pure ?_
  · intro c hc
    rcases apart with unbound | ⟨plain, few⟩
    · exact .inl fun e he => unbound _ (extender_mem_of_holds he)
    · rw [ExtendContext.Allows, funext contains_extensionsOf]
      refine .inr ⟨fun s hs => ?_, few c hc⟩
      obtain ⟨t, ht, same⟩ := List.contains_iff_exists_mem_beq.1 hs
      rw [← Option.isNone_iff_eq_none, ← Simple.argument?_canonical, Simple.beq_iff.1 same,
        Simple.argument?_canonical]
      exact plain t ht
  · cases found with
    | none => exact hl
    | some l' => exact hfound l' rfl

theorem exists_of_applyTargets_concat {before : SelectorList} {c : Complex}
    (h : applyTargets mode l source (before ++ [c]) span = .ok found) :
    ∃ target reached authored, c.singleCompound? = some target ∧
      applyTargets mode l source before span = .ok reached ∧
      (outcomeFrom (applyTarget mode source span reached target) authored).1 = .ok found := by
  obtain ⟨compounds, hcompounds, h⟩ := exists_of_bind_ok h
  rw [SelectorList.compoundTargets, List.mapM_append] at hcompounds
  obtain ⟨init, hinit, hcompounds⟩ := exists_of_bind_ok hcompounds
  obtain ⟨last, hlast, hcompounds⟩ := exists_of_bind_ok hcompounds
  obtain rfl := Except.ok.inj hcompounds
  obtain ⟨target, after, htarget, hnone, rfl⟩ := List.forall₂_cons_left_iff.1
    (forall₂_of_mapM_ok hlast)
  obtain rfl := List.forall₂_nil_left_iff.1 hnone
  have single : c.singleCompound? = some target := by
    split at htarget
    · rename_i found
      rw [found, Except.ok.inj htarget]
    · cases htarget
  rw [List.foldlM_append] at h
  obtain ⟨reached, authored, run, h⟩ := exists_of_outcomeFrom_bind h
  refine ⟨target, reached, authored, single, ?_, ?_⟩
  · rw [applyTargets, SelectorList.compoundTargets, hinit]
    exact congrArg Prod.fst run
  · rwa [List.foldlM_cons, funext fun reached => List.foldlM_nil, bind_pure] at h

/-- Target by target, by induction on the targets from the end. -/
theorem areSound_of_applyTargets (hl : AreSound 0 l) (hs : AreSound 0 source)
    (apart : (∀ c ∈ source, c.isBound = false) ∨ ∀ before c after target reached,
      targets = before ++ c :: after → c.singleCompound? = some target →
      applyTargets mode l source before span = .ok reached → IsUncrowded target reached)
    (h : applyTargets mode l source targets span = .ok found) : AreSound 0 found := by
  induction targets using List.reverseRecOn generalizing found with
  | nil =>
    obtain rfl : l = found := Except.ok.inj h
    exact hl
  | append_singleton before c ih =>
    obtain ⟨target, reached, authored, single, hreached, h⟩ := exists_of_applyTargets_concat h
    have sound : AreSound 0 reached := by
      refine ih (apart.imp_right fun uncrowded before' c' after target' reached' eq => ?_) hreached
      exact uncrowded before' c' (after ++ [c]) target' reached' (by simp [eq])
    refine (applyTarget_sound hs (apart.imp_right fun uncrowded => ?_) sound authored).2 found h
    exact uncrowded before c [] target reached rfl single hreached

theorem isBogus_eq_isBogusList (l : SelectorList) : SelectorList.isBogus l = isBogusList 0 l := by
  rw [isBogusList_eq_any]
  rfl

end OneShot

/-- **Extending valid selectors gives valid ones**, unless combinators are brought together: a
choice of the source has a combinator right before its last compound, and at some step a compound
holds more than two conditions of the target. -/
theorem isBogus_eq_false_of_extended
    {operation : SelectorList → SelectorList → SelectorList → Span →
      Except SelectorError SelectorList}
    (known : operation = SelectorList.extend ∨ operation = SelectorList.replace)
    {l source targets found : SelectorList} {span : Span}
    (valid : ∀ c ∈ l ++ source, c.isBogus = false)
    (rootless : ∀ c ∈ compoundsOfList (l ++ source), Compound.isRoot c = false)
    (apart : (∀ c ∈ source, c.isBound = false) ∨ ∀ before c after target reached,
      targets = before ++ c :: after → c.singleCompound? = some target →
      operation l source before span = .ok reached → IsUncrowded target reached)
    (h : operation l source targets span = .ok found) : ∀ c ∈ found, c.isBogus = false := by
  have sound : AreSound 0 (l ++ source) := by
    rw [areSound_iff, ← isBogus_eq_isBogusList, SelectorList.isBogus, List.any_eq_false]
    exact ⟨fun c hc => Bool.eq_false_iff.1 (valid c hc), rootless⟩
  obtain ⟨hl, hs⟩ := List.forall_mem_append.1 sound
  have result : AreSound 0 found := by
    rcases known with rfl | rfl
    · exact areSound_of_applyTargets hl hs apart h
    · exact areSound_of_applyTargets hl hs apart h
  have whole := (areSound_iff.1 result).1
  rw [← isBogus_eq_isBogusList, SelectorList.isBogus, List.any_eq_false] at whole
  exact fun c hc => Bool.eq_false_iff.2 (whole c hc)

/-- With `.a > .x` in the place of `.p.q`, the selector `.w > .p.q` becomes `.a.w > .x`, and with it
in the place of `.w` that becomes `.a > .a.x > .x`. -/
theorem isBogus_eq_false_of_extended_twice :
    let pair : Compound := [.className "p", .className "q"]
    let single : Compound := [.className "w"]
    let l : SelectorList := [⟨[.compound single, .combinator .child, .compound pair], false⟩]
    let source : SelectorList :=
      [⟨[.compound [.className "a"], .combinator .child, .compound [.className "x"]], false⟩]
    let reached : SelectorList := [⟨[.compound [.className "a", .className "w"], .combinator .child,
      .compound [.className "x"]], false⟩]
    let found : SelectorList := [⟨[.compound [.className "a"], .combinator .child,
      .compound [.className "a", .className "x"], .combinator .child,
      .compound [.className "x"]], false⟩]
    (∀ c ∈ l ++ source, c.isBogus = false) ∧
    (∀ c ∈ compoundsOfList (l ++ source), Compound.isRoot c = false) ∧ IsUncrowded pair l ∧
    l.replace source [.ofCompound pair] default = .ok reached ∧ IsUncrowded single reached ∧
    l.replace source [.ofCompound pair, .ofCompound single] default = .ok found ∧
    ∀ c ∈ found, c.isBogus = false := by
  intro pair single l source reached found
  have valid : ∀ c ∈ l ++ source, c.isBogus = false := by decide
  have rootless : ∀ c ∈ compoundsOfList (l ++ source), Compound.isRoot c = false := by decide
  have few : IsUncrowded pair l := isUncrowded_of_length_le (by decide) (by decide)
  have first : l.replace source [.ofCompound pair] default = .ok reached := by
    unfold l source pair single
    cbv
  have few' : IsUncrowded single reached := isUncrowded_of_length_le (by decide) (by decide)
  have second : l.replace source [.ofCompound pair, .ofCompound single] default = .ok found := by
    unfold l source pair single
    cbv
  refine ⟨valid, rootless, few, first, few', second,
    isBogus_eq_false_of_extended (.inr rfl) valid rootless (.inr ?_) second⟩
  intro before c after target reached' eq hc run
  rcases before with _ | ⟨d, _ | ⟨e, before⟩⟩
  · obtain ⟨rfl, -⟩ := List.cons.inj eq
    obtain rfl : pair = target := Option.some.inj hc
    obtain rfl : l = reached' := Except.ok.inj run
    exact few
  · obtain ⟨rfl, rest⟩ := List.cons.inj eq
    obtain ⟨rfl, -⟩ := List.cons.inj rest
    obtain rfl : single = target := Option.some.inj hc
    obtain rfl : reached = reached' := Except.ok.inj (first.symm.trans run)
    exact few'
  · simp at eq

/-- Three times `.a > .x`, for `.p`, `.q` and `.r`, is `.a > > .x`. -/
theorem isBogus_of_replaced_triple :
    let triple : SelectorList := [.ofCompound [.className "p", .className "q", .className "r"]]
    let source : SelectorList :=
      [⟨[.compound [.className "a"], .combinator .child, .compound [.className "x"]], false⟩]
    let found :
      SelectorList := [⟨[.compound [.className "a"], .combinator .child, .combinator .child,
      .compound [.className "x"]], false⟩]
    (∀ c ∈ triple ++ source, c.isBogus = false) ∧
    (∀ c ∈ compoundsOfList (triple ++ source), Compound.isRoot c = false) ∧
    triple.replace source triple default = .ok found ∧ ∀ c ∈ found, c.isBogus = true := by
  intro triple source found
  refine ⟨by decide, by decide, ?_, by decide⟩
  unfold triple source
  cbv

end SelectorAlgebra
