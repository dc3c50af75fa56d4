import Mathlib
import SelectorAlgebra.Proofs.ValidExtension

/-!
# Proofs/MediaFree — extending where no extension is bound to media queries

* `extendList_mediaFree` — if no extension stands inside media queries, extending a list gives an
  answer.

The only thing that stops extending is an extender that would leave its media queries, so it is
enough to follow the substitutes through the levels.
-/

namespace SelectorAlgebra

namespace ExtendContext

/-- No extension stands inside media queries. -/
def IsMediaFree (ctx : ExtendContext) : Prop := ∀ e, ctx.Holds e → e.asRule.media = none

variable {ctx : ExtendContext} {choices : List (List Substitute)} {selection : List Substitute}

/-! ## Compounds -/

/-- What may stand in a compound may stand anywhere. -/
theorem checkMedia_of_mem_compoundChoices (free : ctx.IsMediaFree)
    {parts : List (Simple × Option (List Simple))} (h : ctx.compoundChoices parts = some choices)
    (media : Option MediaContext) :
    ∀ choice ∈ choices, ∀ o ∈ choice, o.checkMedia media = .ok () := by
  obtain ⟨before, conditions, -, -, eq⟩ := exists_of_compoundChoices h
  have options : ∀ choice ∈ conditions.map ctx.optionsFor, ∀ o ∈ choice,
      o.checkMedia media = .ok () := by
    intro choice hchoice o ho
    obtain ⟨s, -, rfl⟩ := List.mem_map.1 hchoice
    rcases mem_optionsFor ho with ⟨rfl, -⟩ | ⟨-, e, rfl, he⟩
    · rfl
    · rw [Substitute.checkMedia, ExtendRule.checkMedia, free e he]
  rcases eq with rfl | rfl
  · exact options
  · exact List.forall_mem_cons.2 ⟨List.forall_mem_singleton.2 rfl, options⟩

/-- A selection whose media check passes gives a result. -/
theorem complexesOf_succeeds (h : ∀ o ∈ selection, o.checkMedia ctx.media = .ok ())
    (rows : Option (List (List Item))) : ∃ found, ctx.complexesOf selection rows = .ok found := by
  cases rows with
  | none => exact ⟨none, rfl⟩
  | some rows =>
    rw [complexesOf, forM_checkMedia h]
    exact ⟨_, rfl⟩

/-- So do all selections together. -/
theorem complexesOfSelections_succeeds
    (h : ∀ choice ∈ choices, ∀ o ∈ choice, o.checkMedia ctx.media = .ok ()) :
    ∃ found, ctx.complexesOfSelections choices = .ok found := by
  obtain ⟨found, eq, -⟩ := exists_mapM_ok (S := fun _ _ => True) fun p hp =>
    (complexesOf_succeeds (forall_mem_of_mem_selections h (mem_candidates hp).1) p.2).imp
      fun _ h => ⟨h, trivial⟩
  exact ⟨found, (ctx.complexesOfSelections_eq choices).trans eq⟩

theorem complexesOfChoices_succeeds
    (h : ∀ choice ∈ choices, ∀ o ∈ choice, o.checkMedia ctx.media = .ok ()) (authored : Bool) :
    ∃ found, ctx.complexesOfChoices authored choices = .ok found := by
  obtain ⟨found, eq⟩ := complexesOfSelections_succeeds h
  unfold complexesOfChoices
  split
  · rename_i only
    refine ⟨only.map Substitute.complex, mapM_ok fun o ho => ?_⟩
    rw [h only (List.mem_singleton_self _) o ho]
    rfl
  · rw [eq]
    exact ⟨_, rfl⟩

/-! ## Levels -/

section Levels

variable {inner : SelectorList → Extending (Option SelectorList)} {authored : List Complex}
  (free : ctx.IsMediaFree) (hin : ∀ l authored, Yields (inner l) authored fun _ _ => True)

include hin in
/-- An argument is extended without failing when lists are. -/
theorem extendArgument_yields (s : Simple) :
    Yields (s.extendArgument inner) authored fun _ _ => True := by
  unfold Simple.extendArgument
  split
  · split
    · refine (hin _ _).bind fun extended _ _ => ?_
      cases extended <;> exact .pure trivial
    · exact .pure trivial
  · exact .pure trivial

include free hin

/-- A compound is extended without failing: nothing in the context can fail the media check. -/
theorem extendCompound_mediaFree (itself : Bool) (c : Compound) :
    Yields (ctx.extendCompound inner itself c) authored fun _ _ => True := by
  refine (Yields.mapM_forall₂ (S := fun _ _ => True) fun s _ _ => ?_).bind fun parts _ _ => ?_
  · exact (extendArgument_yields hin s).bind fun _ _ _ => .pure trivial
  split
  · exact .pure trivial
  rename_i choices hchoices
  split
  · obtain ⟨found, eq⟩ := complexesOfChoices_succeeds
      (checkMedia_of_mem_compoundChoices free hchoices ctx.media) itself
    exact (Yields.ofOk (Q := fun _ _ => True) eq trivial).bind fun _ _ _ => .pure trivial
  · exact .pure trivial

theorem extendComplexWith_mediaFree (c : Complex) :
    Yields (ctx.extendComplexWith inner c) authored fun _ _ => True := by
  refine Yields.get_bind ?_
  refine (Yields.mapM_forall₂ (S := fun _ _ => True) fun item _ _ => ?_).bind fun parts _ _ => ?_
  · cases item with
    | compound d => exact extendCompound_mediaFree free hin _ d
    | combinator k => exact .pure trivial
  split
  · exact .pure trivial
  dsimp only
  split
  · split
    · exact Yields.modify_bind (.pure trivial)
    · exact .pure trivial
  · exact .pure trivial

theorem extendListWith_mediaFree (l : SelectorList) :
    Yields (ctx.extendListWith inner l) authored fun _ _ => True := by
  refine (Yields.mapM_forall₂ (S := fun _ _ => True) fun c _ _ =>
    extendComplexWith_mediaFree free hin c).bind fun parts _ _ => ?_
  split
  · exact .pure trivial
  refine Yields.get_bind ?_
  split <;> exact .pure trivial

end Levels

/-- **Extending gives an answer** if no extension stands inside media queries. -/
theorem extendList_mediaFree (free : ctx.IsMediaFree) (l : SelectorList) (authored : List Complex) :
    Yields (ctx.extendList l) authored fun _ _ => True := by
  have levels : ∀ (n : ℕ) (l : SelectorList) (authored : List Complex),
      Yields (ctx.extendListWithin n l) authored fun _ _ => True := by
    intro n
    induction n with
    | zero => exact fun _ _ => .pure trivial
    | succ n ih => exact fun l _ => extendListWith_mediaFree free ih l
  exact levels _ l authored

end ExtendContext

end SelectorAlgebra
