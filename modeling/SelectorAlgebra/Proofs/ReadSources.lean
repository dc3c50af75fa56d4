import SelectorAlgebra.Proofs.ExtendedCompounds

/-!
# Proofs/ReadSources — the source specificities that extending reads

Trimming is the only place where source specificities are read, and it reads those of
conditions that stand in what it trims.  By `ExtendedCompounds` these are conditions of the
selector and of the extenders.

* `extendList_withSources`, `extendComplex_withSources` — two tables that agree on a hereditary
  kind of conditions extend selectors of such conditions in the same way, author-written
  selectors and refusals included.
-/

namespace SelectorAlgebra

variable {ε σ α β γ : Type} {G : Simple → Prop} {P : Compound → Prop} {Q : Complex → Prop}

/-- What comes after an operation only matters for the results it may have. -/
theorem bind_congr_of_ensures {m : ExceptT ε (StateM σ) α} {f f' : α → ExceptT ε (StateM σ) β}
    {S : α → Prop} (h : ∀ s, Ensures (fun _ _ => True) m s fun a _ => S a)
    (same : ∀ a, S a → f' a = f a) : m >>= f' = m >>= f := by
  funext s
  show outcomeFrom (m >>= f') s = outcomeFrom (m >>= f) s
  rw [outcomeFrom_bind, outcomeFrom_bind]
  rcases hm : outcomeFrom m s with ⟨_ | a, s'⟩
  · rfl
  · show outcomeFrom (f' a) s' = outcomeFrom (f a) s'
    rw [same a ((h s).2 a (by rw [hm]))]

/-! ## Trimming -/

/-- The tables have the same for every condition of a kind. -/
def AgreeOn (G : Simple → Prop) (sources sources' : SourceSpecificity) : Prop :=
  ∀ s, G s → sources'.get? s = sources.get? s

variable {sources sources' : SourceSpecificity} {authored : Complex → Bool}
  {before l : List Complex}

/-- A selector's source specificity looks at its own conditions only. -/
theorem Complex.sourceSpecificity_congr (hP : IsLasting G P) (same : AgreeOn G sources sources')
    {c : Complex} (hc : AllCompounds P c.items) :
    c.sourceSpecificity sources' = c.sourceSpecificity sources := by
  rw [sourceSpecificity, sourceSpecificity]
  refine congrArg (List.foldl max 0) (List.map_congr_left fun d hd => ?_)
  have mem : .compound d ∈ c.items := by
    obtain ⟨item, hitem, eq⟩ := List.mem_filterMap.1 hd
    cases item <;> cases eq
    exact hitem
  rw [Compound.sourceSpecificity, Compound.sourceSpecificity,
    List.filterMap_congr fun s hs => same s (hP.conditions d (hc d mem) s hs)]

/-- Trimming looks at the source specificities of what it trims. -/
theorem trimAfter_congr
    (h : ∀ c ∈ l, c.sourceSpecificity sources' = c.sourceSpecificity sources) :
    trimAfter sources' authored before l = trimAfter sources authored before l := by
  induction l generalizing before with
  | nil => rfl
  | cons c l ih =>
    rw [List.forall_mem_cons] at h
    have dominated : c.dominatedBy sources' = c.dominatedBy sources := by
      funext other
      rw [Complex.dominatedBy, Complex.dominatedBy, h.1]
    simp only [trimAfter, ih h.2, dominated]

theorem trim_congr (h : ∀ c ∈ l, c.sourceSpecificity sources' = c.sourceSpecificity sources) :
    trim sources' authored l = trim sources authored l := by
  rw [trim, trim, trimAfter_congr h]

namespace ExtendContext

/-- The same with other source specificities. -/
abbrev withSources (ctx : ExtendContext) (sources : SourceSpecificity) : ExtendContext :=
  { ctx with sources := sources }

variable {ctx : ExtendContext} {inner inner' : SelectorList → Extending (Option SelectorList)}
  {parts : List (Simple × Option (List Simple))} {choices : List (List Substitute)}

/-! ## The levels of a selector -/

/-- What a compound becomes depends on the table only through trimming. -/
theorem complexesOfChoices_withSources (hP : IsLasting G P) (hctx : ctx.All P)
    (hp : ∀ part ∈ parts, IsPart G part) (h : ctx.compoundChoices parts = some choices)
    (same : AgreeOn G ctx.sources sources) (itself : Bool) :
    (ctx.withSources sources).complexesOfChoices itself choices
      = ctx.complexesOfChoices itself choices := by
  unfold complexesOfChoices
  split
  · rfl
  · show ctx.complexesOfSelections choices >>= _ = ctx.complexesOfSelections choices >>= _
    cases hall : ctx.complexesOfSelections choices with
    | error e => rfl
    | ok all =>
      refine congrArg Except.ok (trim_congr fun c hc => Complex.sourceSpecificity_congr hP same ?_)
      obtain ⟨l, hl, hc⟩ := mem_flatMap_getD.1 hc
      exact allCompounds_of_complexesOfSelections hP (all_of_mem_compoundChoices hP hctx hp h)
        (fun hm => heads_compoundChoices hm (fun part hpart => (hp part hpart).filled) h)
        hall _ hl l rfl c hc

theorem extendArgument_congr (hP : IsHereditary G P Q)
    (hin : ∀ l, (∀ c ∈ l, Q c) → inner' l = inner l) {s : Simple} (hs : G s) :
    s.extendArgument inner' = s.extendArgument inner := by
  unfold Simple.extendArgument
  split
  · rename_i p
    split
    · rename_i l selector
      rw [hin l (hP.argument p l hs selector)]
    · rfl
  · rfl

variable (hP : IsHereditary G P Q) (hctx : ctx.All P) (same : AgreeOn G ctx.sources sources)

include hP hctx same

/-- One compound, over an extension of arguments that does not depend on the rest of the table. -/
theorem extendCompound_withSources
    (hin : ∀ l, (∀ c ∈ l, Q c) → GivesFilled Q (inner l) ∧ inner' l = inner l) {c : Compound}
    (hc : ∀ s ∈ c, G s) (itself : Bool) :
    (ctx.withSources sources).extendCompound inner' itself c
    = ctx.extendCompound inner itself c := by
  have arguments : (c.mapM fun s => do return (s, ← s.extendArgument inner'))
      = c.mapM fun s => do return (s, ← s.extendArgument inner) :=
    mapM_congr fun s hs => by rw [extendArgument_congr hP (fun l hl => (hin l hl).2) (hc s hs)]
  unfold extendCompound
  rw [arguments]
  refine bind_congr_of_ensures (fun _ => mapM_isPart hc fun s hs =>
    replacesAll_of_inner hP (fun l hl => (hin l hl).1) (hc s hs)) fun parts hparts => ?_
  have found : (ctx.withSources sources).compoundChoices parts = ctx.compoundChoices parts := rfl
  rw [found]
  cases hchoices : ctx.compoundChoices parts with
  | none => rfl
  | some choices =>
    dsimp only
    rw [complexesOfChoices_withSources hP.toIsLasting hctx hparts hchoices same]
    rfl

theorem extendComplexWith_withSources
    (hin : ∀ l, (∀ c ∈ l, Q c) → GivesFilled Q (inner l) ∧ inner' l = inner l) {c : Complex}
    (hc : AllCompounds P c.items) :
    (ctx.withSources sources).extendComplexWith inner' c = ctx.extendComplexWith inner c := by
  refine bind_congr fun authored => ?_
  have items : c.items.mapM ((ctx.withSources sources).extendItem inner' (authored.contains c))
      = c.items.mapM (ctx.extendItem inner (authored.contains c)) := by
    refine mapM_congr fun item hitem => ?_
    cases item with
    | compound d =>
      exact extendCompound_withSources hP hctx same hin (hP.conditions d (hc d hitem)) _
    | combinator k => rfl
  exact congrArg (· >>= _) items

theorem extendListWith_withSources
    (hin : ∀ l, (∀ c ∈ l, Q c) → GivesFilled Q (inner l) ∧ inner' l = inner l) {l : SelectorList}
    (hl : ∀ c ∈ l, Q c) :
    (ctx.withSources sources).extendListWith inner' l = ctx.extendListWith inner l := by
  unfold extendListWith
  rw [mapM_congr fun c hc => extendComplexWith_withSources hP hctx same hin (hP.row c (hl c hc))]
  refine bind_congr_of_ensures
    (fun _ => mapM_extendComplexWith_all hP hctx (fun l hl => (hin l hl).1) hl)
    fun parts hparts => ?_
  have trimmed : ∀ authored : Complex → Bool,
      trim sources authored (List.zipWith (fun c part => part.getD [c]) l parts).flatten
        = trim ctx.sources authored (List.zipWith (fun c part => part.getD [c]) l parts).flatten :=
    fun authored => trim_congr fun c hc =>
      Complex.sourceSpecificity_congr hP.toIsLasting same (hP.row c (hparts c hc))
  simp only [trimmed]

/-- Every level of extension, by induction. -/
theorem extendListWithin_withSources (n : ℕ) {l : SelectorList} (hl : ∀ c ∈ l, Q c) :
    (ctx.withSources sources).extendListWithin n l = ctx.extendListWithin n l := by
  induction n generalizing l with
  | zero => rfl
  | succ n ih =>
    exact extendListWith_withSources hP hctx same
      (fun l hl => ⟨extendListWithin_givesFilled hP hctx n hl, ih hl⟩) hl

/-- **Extending a list reads the source specificities of its own conditions and the extenders'.** -/
theorem extendList_withSources {l : SelectorList} (hl : ∀ c ∈ l, Q c) :
    (ctx.withSources sources).extendList l = ctx.extendList l :=
  extendListWithin_withSources hP hctx same _ hl

/-- **So does extending a complex selector.** -/
theorem extendComplex_withSources {c : Complex} (hc : AllCompounds P c.items) :
    (ctx.withSources sources).extendComplex c = ctx.extendComplex c :=
  extendComplexWith_withSources hP hctx same
    (fun _ hl => ⟨extendListWithin_givesFilled hP hctx _ hl,
    extendListWithin_withSources hP hctx same _ hl⟩) hc

end ExtendContext

end SelectorAlgebra
