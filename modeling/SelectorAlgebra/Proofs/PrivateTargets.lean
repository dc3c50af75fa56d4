import Mathlib
import SelectorAlgebra.Proofs.SecretExtensions

/-!
# Proofs/PrivateTargets — what another style sheet sees of private extensions

A private placeholder is for the style sheet that it is written in, so extensions of it should not
be seen in a store that imports the extensions of this style sheet.

* `private_extensions_confined` — they are not seen at all in a *confined* run (`IsConfined`): in a
  call with a secret target, conditions of the extender that nothing else mentions are kept apart,
  and the others have a source specificity already; all other calls succeed.
* `private_extension_leaks` — either condition is needed.  Source specificities are imported with no
  regard to the target they come from, and trimming reads them.  A secret rule that must not be
  extended across media makes a call fail half way that would succeed without it.

The engine is the relation `Agrees`, which is used twice.  Upstream, a call that mentions nothing
behind the veil does the same in both stores (`ExtensionCall.operation_agrees`), and one with a
secret target is not seen (`ExtensionCall.operation_shields`).  A run then follows by induction on
its calls.  Downstream, secret targets are passed over, and from there on both importing stores do
the same (`addExtensions_agrees`).
-/

namespace SelectorAlgebra

/-- A run of two steps that succeeds, with the states in between and at the end. -/
theorem exists_of_outcomeFrom_bind_eq {ε σ α β : Type} {m : ExceptT ε (StateM σ) α}
    {f : α → ExceptT ε (StateM σ) β} {s t : σ} {b : β} (h : outcomeFrom (m >>= f) s = (.ok b, t)) :
    ∃ a s', outcomeFrom m s = (.ok a, s') ∧ outcomeFrom (f a) s' = (.ok b, t) := by
  rw [outcomeFrom_bind] at h
  rcases hm : outcomeFrom m s with ⟨_ | a, s'⟩
  · rw [hm] at h
    cases h
  · rw [hm] at h
    exact ⟨a, s', rfl, h⟩

theorem outcomeFrom_bind_of_eq {ε σ α β : Type} {m : ExceptT ε (StateM σ) α}
    {f : α → ExceptT ε (StateM σ) β} {s s' : σ} {a : α} (h : outcomeFrom m s = (.ok a, s')) :
    outcomeFrom (m >>= f) s = outcomeFrom (f a) s' := by
  rw [outcomeFrom_bind, h]

namespace Store

variable {v : Veil} {s s' t' : Store} {pending new : ExtensionMap}

/-! ## Settling among secret rules -/

/-- A run in the second store that succeeds does so in the first, with the same result. -/
theorem InBoth.exists_eq {α : Type} {m : Storing α} {a : α} {Q : α → Prop} (h : InBoth v m s s' Q)
    (run : outcomeFrom m s' = (.ok a, t')) :
    ∃ t, outcomeFrom m s = (.ok a, t) ∧ Agrees v t t' ∧ Q a := by
  obtain ⟨same, agrees, result⟩ := h
  rw [run] at same agrees
  exact ⟨(outcomeFrom m s).2, Prod.ext same.symm rfl, agrees, result a same.symm⟩

/-- The rules are shown where their targets are not secret. -/
def AreClear (v : Veil) (rules : List ExtendRule) : Prop :=
  ∀ r ∈ rules, v.secret r.target = false → r.extender.IsClearOf v.apart

/-- No pending extension has a secret target or mentions a condition behind the veil. -/
structure IsPublic (v : Veil) (pending : ExtensionMap) : Prop where
  clear : IsClearTable v.apart pending
  targets : ∀ x, pending.contains x = true → v.secret x = false

/-- A secret rule returns nothing, since its target is not pending. -/
theorem extendRule_secret (hp : IsPublic v pending) {r : ExtendRule}
    (closed : v.secret r.target = true) (h : Agrees v s s') {returned : List ExtendRule}
    (run : outcomeFrom (extendRule pending r) s' = (.ok returned, t')) :
    returned = [] ∧ Agrees v s t' := by
  have shields : Ensures (Shields v s) (extendRule pending r) s' fun added _ => ∀ r' ∈ added,
      r'.target = r.target ∧ pending.contains r'.target = true :=
    ((extendRule_shields pending closed).and (extendRule_returns pending r)).mono fun _ _ _ h => h.2
  rw [Ensures, run] at shields
  refine ⟨List.eq_nil_iff_forall_not_mem.2 fun r' hr' => ?_, shields.1 h⟩
  obtain ⟨target, mem⟩ := shields.2 returned rfl r' hr'
  rw [target] at mem
  rw [hp.targets _ mem] at closed
  cases closed

/-- **One round**: the secret rules among those extended add nothing. -/
theorem mapM_extendRule_agrees (hp : IsPublic v pending) {rules : List ExtendRule}
    (clear : AreClear v rules) (h : Agrees v s s') {added' : List (List ExtendRule)}
    (run : outcomeFrom (rules.mapM (extendRule pending)) s' = (.ok added', t')) :
    ∃ added t, outcomeFrom ((rules.filter (!v.secret ·.target)).mapM (extendRule pending)) s
        = (.ok added, t) ∧ Agrees v t t' ∧ added.flatten = added'.flatten ∧
          ∀ r ∈ added.flatten, IsShown v r := by
  induction rules generalizing s s' added' with
  | nil =>
    rw [List.mapM_nil] at run
    cases run
    exact ⟨[], s, by rw [List.filter_nil, List.mapM_nil]; rfl, h, rfl, List.forall_mem_nil _⟩
  | cons r rules ih =>
    rw [AreClear, List.forall_mem_cons] at clear
    rw [List.mapM_cons] at run
    obtain ⟨first, s₁', run₁, run⟩ := exists_of_outcomeFrom_bind_eq run
    obtain ⟨rest, s₂', run₂, run⟩ := exists_of_outcomeFrom_bind_eq run
    cases run
    by_cases closed : v.secret r.target = true
    · obtain ⟨rfl, agrees₁⟩ := extendRule_secret hp closed h run₁
      obtain ⟨added, t, run, agrees, same, all⟩ := ih clear.2 agrees₁ run₂
      refine ⟨added, t, ?_, agrees, same, all⟩
      rwa [List.filter_cons_of_neg (by simp [closed])]
    · have shown : v.secret r.target = false := by simpa using closed
      obtain ⟨s₁, eq₁, agrees₁, returned⟩ :=
        (extendRule_inBoth h hp.clear ⟨shown, clear.1 shown⟩).exists_eq run₁
      obtain ⟨added, t, eq₂, agrees, same, all⟩ := ih clear.2 agrees₁ run₂
      refine ⟨first :: added, t, ?_, agrees, ?_, ?_⟩
      · rw [List.filter_cons_of_pos (by simp [shown]), List.mapM_cons, outcomeFrom_bind_of_eq eq₁,
          outcomeFrom_bind_of_eq eq₂]
        rfl
      · rw [List.flatten_cons, List.flatten_cons, same]
      · rw [List.flatten_cons, List.forall_mem_append]
        exact ⟨returned, all⟩

theorem isClearTable_mapOfRules {rules : List ExtendRule} (h : ∀ r ∈ rules, IsShown v r) :
    IsClearTable v.apart (mapOfRules rules) :=
  eachExtension_mapOfRules (isFacing_isClearOf _) fun r hr => (h r hr).extender

/-- A table of shown rules has no secret in it. -/
theorem isPublic_mapOfRules {rules : List ExtendRule} (h : ∀ r ∈ rules, IsShown v r) :
    IsPublic v (mapOfRules rules) := by
  refine ⟨isClearTable_mapOfRules h, fun x hx => ?_⟩
  obtain ⟨r, hr, same⟩ := contains_mapOfRules.1 hx
  rw [← v.secret_congr same]
  exact (h r hr).target

/-- The rules to be extended are the same but for the secret ones. -/
theorem affectedRules_agrees (h : Agrees v s s') (added : ExtensionMap) :
    (affectedRules s' added).filter (!v.secret ·.target) = affectedRules s added := by
  have shown : (added.keys.flatMap s'.rulesUnder).filter (!v.secret ·.target)
      = added.keys.flatMap s.rulesUnder := by
    rw [List.filter_flatMap]
    exact congrArg (List.flatMap · added.keys) (funext h.rules)
  simp only [affectedRules]
  rw [List.filter_comm]
  exact congrArg (List.filter _) shown

theorem isClearOf_of_mem_affectedRules (h : s.IsClearOf v.apart) (added : ExtensionMap) :
    ∀ r ∈ affectedRules s added, r.extender.IsClearOf v.apart := by
  intro r hr
  obtain ⟨target, -, mem⟩ := List.mem_flatMap.1 (List.mem_filter.1 hr).1
  exact (h.rules target r mem).2

/-- The rules to be extended do not mention what is apart. -/
theorem areClear_affectedRules (h : Agrees v s s') (added : ExtensionMap) :
    AreClear v (affectedRules s' added) := by
  intro r hr shown
  refine isClearOf_of_mem_affectedRules h.clear added r ?_
  rw [← affectedRules_agrees h added, List.mem_filter]
  exact ⟨hr, by simp [shown]⟩

/-- **Secret rules do not change what settling gives.** -/
theorem settleWithin_agrees (limit : ℕ) : ∀ (n : ℕ) {s s' t' : Store}
    {rules : List ExtendRule} {pending new result : ExtensionMap}, Agrees v s s' →
    AreClear v rules → IsPublic v pending →
    outcomeFrom (settleWithin limit n rules pending new) s' = (.ok result, t') →
    ∃ t, outcomeFrom (settleWithin limit n (rules.filter (!v.secret ·.target)) pending new) s
        = (.ok result, t) ∧ Agrees v t t'
  | n, s, s', t', [], pending, new, result, h, _, _, run => by
    unfold settleWithin at run ⊢
    cases run
    exact ⟨s, rfl, h⟩
  | 0, _, _, _, _ :: _, _, _, _, _, _, _, run => by cases run
  | n + 1, s, s', t', r :: rules, pending, new, result, h, clear, hp, run => by
    obtain ⟨added', s₁', run₁, run⟩ := exists_of_outcomeFrom_bind_eq run
    obtain ⟨added, s₁, eq₁, agrees₁, same, all⟩ := mapM_extendRule_agrees hp clear h run₁
    rw [← same] at run
    cases rest : (r :: rules).filter (!v.secret ·.target) with
    | nil =>
      -- The first store has nothing to extend, and the second one finds nothing.
      rw [rest, List.mapM_nil] at eq₁
      cases eq₁
      cases run
      exact ⟨s, by unfold settleWithin; rfl, agrees₁⟩
    | cons r' rules' =>
      rw [rest] at eq₁
      have unfolded : outcomeFrom (settleWithin limit (n + 1) (r' :: rules') pending new) s = _ :=
        outcomeFrom_bind_of_eq eq₁
      rw [unfolded]
      by_cases settled : (mapOfRules added.flatten).isEmpty = true
      · rw [if_pos settled] at run ⊢
        cases run
        exact ⟨s₁, rfl, agrees₁⟩
      · rw [if_neg settled] at run ⊢
        rw [outcomeFrom_get_bind] at run ⊢
        rw [← affectedRules_agrees agrees₁]
        exact settleWithin_agrees limit n agrees₁ (areClear_affectedRules agrees₁ _)
          (isPublic_mapOfRules all) run

/-! ## Calls -/

/-- Extends extenders and selectors by new rules of a target. -/
def applyRules (rules : List ExtendRule) (new : ExtensionMap) (target : Simple) : Storing Unit := do
  let new ← settle rules new
  extendSelectors new (((← get).bySimple.get? target).getD [])

theorem applyRules_nil (h : s.bySimple = .empty) (new : ExtensionMap) (target : Simple) :
    outcomeFrom (applyRules [] new target) s = (.ok (), s) := by
  have settled : outcomeFrom (settle [] new) s = (.ok new, s) := by
    rw [settle, outcomeFrom_get_bind]
    unfold settleWithin
    rfl
  rw [applyRules, outcomeFrom_bind_of_eq settled, outcomeFrom_get_bind, h]
  rfl

/-- Applying rules in the second store, of which the first applies those that are shown. -/
theorem applyRules_agrees (closed : ¬ v.IsOpen) {rules : List ExtendRule} (h : Agrees v s s')
    (clear : AreClear v rules) (hp : IsPublic v new) (target : Simple)
    (run : outcomeFrom (applyRules rules new target) s' = (.ok (), t')) :
    ∃ t, outcomeFrom (applyRules (rules.filter (!v.secret ·.target)) new target) s = (.ok (), t) ∧
      Agrees v t t' := by
  obtain ⟨result, s₁', run₁, run⟩ := exists_of_outcomeFrom_bind_eq run
  rw [settle, outcomeFrom_get_bind, h.roundLimit] at run₁
  obtain ⟨t, eq₁, agrees⟩ := settleWithin_agrees _ _ h clear hp run₁
  have empty := (agrees.unwritten closed).1
  rw [outcomeFrom_get_bind, agrees.bySimple, empty] at run
  cases run
  refine ⟨t, ?_, agrees⟩
  have settled : outcomeFrom (settle (rules.filter (!v.secret ·.target)) new) s
      = (.ok result, t) := by
    rwa [settle, outcomeFrom_get_bind]
  rw [applyRules, outcomeFrom_bind_of_eq settled, outcomeFrom_get_bind, empty]
  rfl

theorem addRule_returns (r : ExtendRule) :
    Ensures (fun _ _ => True) (addRule r) s fun found _ => ∀ r' ∈ found, r' = r := by
  refine Ensures.get_bind ?_
  split
  · exact (Ensures.ofExcept (Q := fun _ _ => True) fun _ _ => trivial).bind
      fun _ _ _ _ => .modify_pure trivial (by simp)
  · exact .modify_pure trivial (by rintro _ ⟨⟩; rfl)

/-- A secret rule leaves the shown part of a store as it is. -/
theorem addRule_shields {r : ExtendRule} (closed : v.secret r.target = true)
    (noted : ∀ x ∈ r.extender.simples, v.apart x = true ∨ s.sources.contains x = true) :
    Ensures (Shields v s) (addRule r) s' fun _ _ => True := by
  refine Ensures.get_bind ?_
  split
  · exact (Ensures.ofExcept (Q := fun _ _ => True) fun _ _ => trivial).bind
      fun _ _ _ _ => .modify_pure (fun h => h.alter_secret closed _) trivial
  · refine .modify_pure (fun h => ?_) trivial
    have agrees := (h.alter_secret closed fun sources =>
      (sources.getD .empty).insert r.extender (.rule r)).indexRule_secret closed r.extender.simples
    exact agrees.noteSources_secret fun x hx => agrees.noted_iff.2 (noted x hx)

/-- A store without selectors stays so. -/
def StaysUnwritten (s s' : Store) : Prop := s.bySimple = .empty → s'.bySimple = .empty

instance reflStaysUnwritten : Std.Refl StaysUnwritten := ⟨fun _ => id⟩

instance isTransStaysUnwritten : IsTrans Store StaysUnwritten := ⟨fun _ _ _ h h' => h' ∘ h⟩

theorem addRule_staysUnwritten (r : ExtendRule) :
    Ensures StaysUnwritten (addRule r) s fun _ _ => True := by
  refine Ensures.get_bind ?_
  split
  · exact (Ensures.ofExcept (Q := fun _ _ => True) fun _ _ => trivial).bind
      fun _ _ _ _ => .modify_pure id trivial
  · exact .modify_pure id trivial

/-- An extension that is asked for. -/
structure ExtensionCall where
  extender : SelectorList
  extenderSpan : Span
  target : Simple
  span : Span
  media : Option MediaContext
  optional : Bool

namespace ExtensionCall

/-- The call as one of a store. -/
def call (call : ExtensionCall) : Call :=
  .addExtension call.extender call.extenderSpan call.target call.span call.media call.optional

/-- The rules that the call adds, one for each choice that is not useless. -/
def rules (call : ExtensionCall) : List ExtendRule :=
  (call.extender.filter (!·.isUseless)).map fun c =>
    .written c call.extenderSpan call.target call.span call.media call.optional

variable {call : ExtensionCall}

theorem target_of_mem_rules {r : ExtendRule} (h : r ∈ call.rules) : r.target = call.target := by
  obtain ⟨c, -, rfl⟩ := List.mem_map.1 h
  rfl

/-- What a call does after its rules are added. -/
def applyNew (dependents added : List ExtendRule) (target : Simple) : Storing Unit :=
  match added with
  | [] => return ()
  | added => applyRules dependents (mapOfRules added) target

/-- In a store without selectors, only dependent rules are left to be extended. -/
theorem outcomeFrom_operation (h : s.bySimple = .empty) :
    outcomeFrom call.call.operation s = outcomeFrom (do
      modify (·.ensureTarget call.target)
      let added ← call.rules.mapM addRule
      applyNew (s.rulesUnder call.target) (added.filterMap id) call.target) s := by
  have added : (call.extender.filter (!·.isUseless)).mapM (fun c => addRule
      (.written c call.extenderSpan call.target call.span call.media call.optional))
      = call.rules.mapM addRule := by
    rw [rules, List.mapM_map]
    rfl
  have unwritten : Ensures StaysUnwritten (call.rules.mapM addRule) (s.ensureTarget call.target)
      fun found _ => ∀ a ∈ found, True :=
    .mapM_forall fun r _ _ _ => addRule_staysUnwritten r
  show outcomeFrom (addExtension _ _ _ _ _ _) s = _
  rw [addExtension, outcomeFrom_get_bind, added, outcomeFrom_bind, outcomeFrom_bind]
  show outcomeFrom (_ >>= _) (s.ensureTarget call.target)
    = outcomeFrom (_ >>= _) (s.ensureTarget call.target)
  rw [outcomeFrom_bind, outcomeFrom_bind]
  rcases run : outcomeFrom (call.rules.mapM addRule)
    (s.ensureTarget call.target) with ⟨_ | found, t⟩
  · rfl
  have empty : t.bySimple = .empty := by
    rw [Ensures, run] at unwritten
    exact unwritten.1 h
  dsimp only
  rw [h, rulesUnder]
  cases s.byExtender.get? call.target with
  | none =>
    cases found.filterMap id with
    | nil => rfl
    | cons r rules => exact (applyRules_nil empty _ _).symm
  | some dependents => cases found.filterMap id <;> rfl

/-- No choice of the extender mentions a condition behind the veil. -/
def Avoids (v : Veil) (call : ExtensionCall) : Prop := ∀ c ∈ call.extender, c.IsClearOf v.apart

/-- The conditions of the extender are apart or have a source specificity already. -/
def StaysApart (v : Veil) (call : ExtensionCall) (s : Store) : Prop :=
  ∀ r ∈ call.rules, ∀ x ∈ r.extender.simples, v.apart x = true ∨ s.sources.contains x = true

instance decidableAvoids : Decidable (call.Avoids v) :=
  inferInstanceAs (Decidable (∀ c ∈ call.extender, c.IsClearOf v.apart))

instance decidableStaysApart : Decidable (call.StaysApart v s) :=
  inferInstanceAs (Decidable (∀ r ∈ call.rules, ∀ x ∈ r.extender.simples,
    v.apart x = true ∨ s.sources.contains x = true))

/-- The rules of a public call that avoids what is apart are shown. -/
theorem Avoids.isShown (h : call.Avoids v) (shown : v.secret call.target = false) :
    ∀ r ∈ call.rules, IsShown v r := by
  intro r hr
  obtain ⟨c, hc, rfl⟩ := List.mem_map.1 hr
  exact ⟨shown, h c (List.mem_of_mem_filter hc)⟩

/-- **A call with nothing secret** does the same in both stores if it does not fail in the
second. -/
theorem operation_agrees (closed : ¬ v.IsOpen) (shown : v.secret call.target = false)
    (avoids : call.Avoids v) (h : Agrees v s s')
    (run : outcomeFrom call.call.operation s' = (.ok (), t')) :
    ∃ t, outcomeFrom call.call.operation s = (.ok (), t) ∧ Agrees v t t' := by
  have empty := (h.unwritten closed).1
  rw [outcomeFrom_operation (h.bySimple.trans empty)] at run
  obtain ⟨_, _, ⟨⟩, run⟩ := exists_of_outcomeFrom_bind_eq run
  obtain ⟨found, s₁', run₁, run⟩ := exists_of_outcomeFrom_bind_eq run
  obtain ⟨s₁, eq₁, agrees₁, added⟩ := (InBoth.mapM (h.ensureTarget shown) fun r hr _ _ h' =>
    addRule_inBoth h' (avoids.isShown shown r hr)).exists_eq run₁
  have start : outcomeFrom call.call.operation s
      = outcomeFrom (applyNew (s.rulesUnder call.target) (found.filterMap id) call.target) s₁ := by
    rw [outcomeFrom_operation empty]
    exact outcomeFrom_bind_of_eq eq₁
  rw [start, ← h.rules]
  unfold applyNew at run ⊢
  split at run
  · cases run
    exact ⟨s₁, rfl, agrees₁⟩
  · refine applyRules_agrees closed agrees₁ (fun r hr shown' => ?_)
      (isPublic_mapOfRules fun r hr => ?_) _ run
    · refine (h.clear.rules call.target r ?_).2
      rw [← h.rules, List.mem_filter]
      exact ⟨hr, by simp [shown']⟩
    · obtain ⟨found', mem, hr⟩ := List.mem_filterMap.1 hr
      exact added found' mem r hr

/-- **A call with a secret target** leaves the stores agreeing, whether it fails or not, if its
conditions stay apart. -/
theorem operation_shields (closed : v.secret call.target = true) (h : Agrees v s s')
    (noted : call.StaysApart v s') : Agrees v s (outcomeFrom call.call.operation s').2 := by
  have empty := (h.unwritten (Veil.not_isOpen closed)).1
  rw [outcomeFrom_operation (h.bySimple.trans empty)]
  have target : ∀ r ∈ call.rules, v.secret r.target = true := fun r hr =>
    (congrArg v.secret (target_of_mem_rules hr)).trans closed
  have ensures : Ensures (Shields v s) (do
      modify (·.ensureTarget call.target)
      let added ← call.rules.mapM addRule
      applyNew (s'.rulesUnder call.target) (added.filterMap id) call.target) s'
        fun _ _ => True := by
    refine .modify_bind (fun h => h.alter_secret closed _) ?_
    refine (Ensures.mapM_forall (P := fun found => ∀ r ∈ found, r ∈ call.rules) fun r hr _ _ =>
      ((addRule_shields (target r hr) fun x hx => h.noted_iff.1 (noted r hr x hx)).and
        (addRule_returns r)).mono fun _ _ _ found r' hr' => found.2 r' hr' ▸ hr).bind
      fun found t shields returned => ?_
    have agrees : Agrees v s t := shields (h.alter_secret closed _)
    unfold applyNew
    split
    · exact .pure trivial
    · refine (Ensures.get_bind (settleWithin_shields _ _ _ _ _ agrees
        (h.secret_of_mem closed) fun x hx => ?_)).bind fun new t' shields' _ => ?_
      · obtain ⟨r, hr, same⟩ := contains_mapOfRules.1 hx
        obtain ⟨found', mem, hr⟩ := List.mem_filterMap.1 hr
        rw [← v.secret_congr same]
        exact target r (returned found' mem r hr)
      · refine Ensures.get_bind ?_
        have agrees' := shields' agrees
        rw [agrees'.bySimple, (agrees'.unwritten (Veil.not_isOpen closed)).1]
        exact .pure trivial
  exact ensures.1 h

end ExtensionCall

/-! ## Runs -/

/-- Calls with a secret target stay apart; all others mention nothing behind the veil and
succeed. -/
def IsConfined (v : Veil) : List ExtensionCall → Store → Prop
  | [], _ => True
  | call :: calls, s =>
    (if v.secret call.target then call.StaysApart v s
      else call.Avoids v ∧ (outcomeFrom call.call.operation s).1 = .ok ()) ∧
    IsConfined v calls (outcomeFrom call.call.operation s).2

/-- The store that some extensions are asked for in, one after the other. -/
def ofExtensionCalls (mode : ExtendMode) (limit : ℕ) (calls : List ExtensionCall) : Store :=
  afterCalls (calls.map ExtensionCall.call) (.empty mode limit)

theorem agrees_empty (v : Veil) (mode : ExtendMode) (limit : ℕ) :
    Agrees v (.empty mode limit) (.empty mode limit) where
  mode := rfl
  roundLimit := rfl
  slots := rfl
  bySimple := rfl
  authored := rfl
  sources := rfl
  extensions := rfl
  rules _ := rfl
  index _ := rfl
  clear := ⟨List.forall_mem_nil _, eachExtension_empty, fun _ => List.forall_mem_nil _⟩
  unwritten _ := ⟨rfl, rfl⟩

/-- **A run of calls agrees with the run of its public calls**, call by call. -/
theorem afterCalls_agrees (closed : ¬ v.IsOpen) {calls : List ExtensionCall} (h : Agrees v s s')
    (confined : IsConfined v calls s') :
    Agrees v (afterCalls ((calls.filter (!v.secret ·.target)).map ExtensionCall.call) s)
      (afterCalls (calls.map ExtensionCall.call) s') := by
  induction calls generalizing s s' with
  | nil => exact h
  | cons call calls ih =>
    obtain ⟨first, confined⟩ := confined
    by_cases secret : v.secret call.target = true
    · rw [if_pos secret] at first
      rw [List.filter_cons_of_neg (by simp [secret])]
      exact ih (call.operation_shields secret h first) confined
    · rw [if_neg secret] at first
      have shown : v.secret call.target = false := by simpa using secret
      obtain ⟨t, run, agrees⟩ := call.operation_agrees closed shown first.1 h (Prod.ext first.2 rfl)
      rw [List.filter_cons_of_pos (by simp [shown])]
      have kept := ih agrees confined
      simp only [afterCalls, List.map_cons, List.foldl_cons, run] at kept ⊢
      exact kept

/-! ## Importing stores -/

/-- What an import does with what it has found. -/
def applyImport (found : Import) : Storing Unit := do
  if found.new.isEmpty then return ()
  let new ← settle found.rules found.new
  extendSelectors new found.ids

/-- Nothing that was found mentions a condition that is kept apart. -/
structure Import.IsClearOf (apart : Simple → Bool) (found : Import) : Prop where
  new : IsClearTable apart found.new
  rules : ∀ r ∈ found.rules, r.extender.IsClearOf apart

theorem addExtensions_singleton (other : Store) :
    addExtensions [other] = importStore ⟨.empty, [], []⟩ other >>= applyImport := by
  rw [addExtensions, List.foldlM_cons]
  simp only [List.foldlM_nil, bind_pure]
  rfl

section Importing

variable (isOpen : v.IsOpen)

include isOpen

/-- Rounds of shown rules run the same in both stores; the induction is on the rounds and the
rules. -/
theorem settleWithin_inBoth (limit : ℕ) {s s' : Store} (n : ℕ) {rules : List ExtendRule}
    {pending new : ExtensionMap} (h : Agrees v s s')
    (hr : ∀ r ∈ rules, r.extender.IsClearOf v.apart) (hp : IsClearTable v.apart pending)
    (hn : IsClearTable v.apart new) :
    InBoth v (settleWithin limit n rules pending new) s s' (IsClearTable v.apart) := by
  induction n generalizing s s' rules pending new with
  | zero =>
    cases rules with
    | nil => exact .pure h hn
    | cons r rules => exact .throw h _
  | succ n ih =>
    cases rules with
    | nil => exact .pure h hn
    | cons r rules =>
      refine (InBoth.mapM h fun r hr' _ _ h' => extendRule_inBoth h' hp ⟨isOpen _, hr r hr'⟩).bind
        fun added t t' hadded h' => ?_
      have clear : IsClearTable v.apart (mapOfRules added.flatten) :=
        isClearTable_mapOfRules fun r' hr' => by
          obtain ⟨found, mem, hr'⟩ := List.mem_flatten.1 hr'
          exact hadded found mem r' hr'
      dsimp only
      split
      · exact .pure h' hn
      · have affected : affectedRules t' (mapOfRules added.flatten)
            = affectedRules t (mapOfRules added.flatten) := by
          simp only [affectedRules, h'.index isOpen]
        refine InBoth.get_bind (by rw [affected])
          (ih h' ?_ clear (hn.addAll (isFacing_isClearOf _) clear))
        exact isClearOf_of_mem_affectedRules h'.clear _

/-- Slots are extended by clear tables, the same in both stores. -/
theorem extendSelectors_inBoth (h : Agrees v s s') (hn : IsClearTable v.apart new) (ids : List ℕ) :
    InBoth v (extendSelectors new ids) s s' fun _ => True := by
  refine InBoth.forM h fun id _ t t' h' => InBoth.get_bind (by rw [h'.slots]) ?_
  split
  · exact .pure h' trivial
  rename_i slot hslot
  refine (extendList_inBoth h' hn _ _ (h'.clear.slots slot (List.mem_of_getElem? hslot))).bind
    fun found _ _ clear h'' => ?_
  split
  · exact .pure h'' trivial
  split
  · exact .pure h'' trivial
  · exact .modify (h''.setSelector isOpen id slot (clear _ rfl))

/-- What was imported is settled and applied the same in both stores. -/
theorem applyImport_inBoth (h : Agrees v s s') {found : Import} (hf : found.IsClearOf v.apart) :
    InBoth v (applyImport found) s s' fun _ => True := by
  unfold applyImport
  split
  · exact .pure h trivial
  · refine (InBoth.get_bind (by rw [h.roundLimit]) (settleWithin_inBoth isOpen _ _ h hf.rules hf.new
      hf.new)).bind fun new _ _ hn h' => extendSelectors_inBoth isOpen h' hn _

/-- One target with clear extenders is imported the same in both stores. -/
theorem importTarget_inBoth (h : Agrees v s s') {found : Import} (hf : found.IsClearOf v.apart)
    {entry : Simple × OrderedMap Complex Extension}
    (he : ∀ pair ∈ entry.2.entries, pair.2.extender.IsClearOf v.apart) :
    InBoth v (importTarget found entry) s s' (Import.IsClearOf v.apart) := by
  obtain ⟨target, sources⟩ := entry
  simp only [importTarget]
  split
  · exact .pure h hf
  refine InBoth.get_bind (by rw [h.index isOpen, h.bySimple]) (InBoth.modify_bind ?_)
  refine (InBoth.mapM (Q := fun pair => pair.2.extender.IsClearOf v.apart)
    (h.ensureTarget (isOpen target)) fun pair hpair t t' h' => ?_).bind
    fun added t t' hadded h' => .pure h' ⟨?_, ?_⟩
  · refine InBoth.get_bind (by rw [h'.get? (isOpen target)]) ?_
    split
    · rename_i existing known
      exact merge_inBoth h' (isOpen target)
        (h'.clear.extensions.of_get? (isFacing_isClearOf _) known)
        (he pair hpair) fun _ clear => clear
    · exact .modify_pure (h'.putExtension (isOpen target) _ (he pair hpair)) (he pair hpair)
  · split
    · exact hf.new.foldl_setExtension (isFacing_isClearOf _) hadded
    · exact hf.new
  · exact List.forall_mem_append.2 ⟨hf.rules, fun r hr => (h.clear.rules target r hr).2⟩

/-- Importing some extensions, and applying them. -/
theorem import_inBoth (h : Agrees v s s') {m : ExtensionMap} (hm : IsClearTable v.apart m) :
    InBoth v (m.entries.foldlM importTarget ⟨.empty, [], []⟩ >>= applyImport) s s' fun _ => True :=
  (InBoth.foldlM (Q := Import.IsClearOf v.apart) h ⟨eachExtension_empty, List.forall_mem_nil _⟩
    fun entry hentry _ _ _ h' hf => importTarget_inBoth isOpen h' hf (hm entry hentry)).bind
    fun _ _ _ hf h' => applyImport_inBoth isOpen h' hf

/-- Importing stores that differ in source specificities of what is apart. -/
theorem agrees_insertAll {importer : Store} (clear : importer.IsClearOf v.apart)
    {sources sources' : SourceSpecificity}
    (same : sources'.restrict (!v.apart ·) = sources.restrict (!v.apart ·)) :
    Agrees v { importer with sources := importer.sources.insertAll sources.entries }
      { importer with sources := importer.sources.insertAll sources'.entries } where
  mode := rfl
  roundLimit := rfl
  slots := rfl
  bySimple := rfl
  authored := rfl
  sources := by
    have respects : ∀ x y, (x == y) = true → (!v.apart x) = !v.apart y := fun x y eq =>
      congrArg not (v.apart_congr eq)
    rw [OrderedMap.restrict_insertAll _ _ respects, OrderedMap.restrict_insertAll _ _ respects]
    exact congrArg (OrderedMap.insertAll _) (congrArg OrderedMap.entries same)
  extensions := by simp [OrderedMap.restrict, isOpen _]
  rules x := by simp [rulesUnder, isOpen _]
  index _ := rfl
  clear := ⟨clear.slots, clear.extensions, clear.rules⟩
  unwritten closed := absurd isOpen closed

end Importing

/-- Private targets are passed over. -/
theorem outcomeFrom_foldlM_importTarget (v : Veil)
    (entries : List (Simple × OrderedMap Complex Extension)) (found : Import) :
    outcomeFrom (entries.foldlM importTarget found) s
      = outcomeFrom ((entries.filter fun e => !v.secret e.1).foldlM importTarget found) s := by
  induction entries generalizing found s with
  | nil => rfl
  | cons e entries ih =>
    by_cases closed : v.secret e.1 = true
    · have passed : importTarget found e = pure found := by
        rw [importTarget, if_pos (v.isPrivate e.1 closed)]
      rw [List.filter_cons_of_neg (by simp [closed]), ← ih, List.foldlM_cons, passed]
      exact outcomeFrom_bind_of_eq rfl
    · rw [List.filter_cons_of_pos (by simpa using closed), List.foldlM_cons, List.foldlM_cons,
        outcomeFrom_bind, outcomeFrom_bind]
      rcases outcomeFrom (importTarget found e) s with ⟨_ | found, t⟩
      · rfl
      · exact ih found

/-- A store with something to import brings its source specificities, and the
extensions that are not secret. -/
theorem outcomeFrom_addExtensions (v : Veil) (written : s.isEmpty = false) (importer : Store) :
    outcomeFrom (addExtensions [s]) importer = outcomeFrom
      ((s.extensions.restrict (!v.secret ·)).entries.foldlM importTarget
        ⟨.empty, [], []⟩ >>= applyImport)
      { importer with sources := importer.sources.insertAll s.sources.entries } := by
  rw [addExtensions_singleton, importStore, if_neg (by simp [written]), outcomeFrom_bind,
    outcomeFrom_bind_of_eq (m := modify _) rfl, outcomeFrom_foldlM_importTarget v, outcomeFrom_bind]
  rfl

/-- A store of which nothing is to be seen leaves everything but source specificities. -/
theorem addExtensions_secret (h : Agrees v s s') (unwritten : s.isEmpty = true) (importer : Store) :
    ∃ sources, outcomeFrom (addExtensions [s']) importer
      = (.ok (), { importer with sources := sources }) := by
  cases empty : s'.isEmpty with
  | true =>
    refine ⟨importer.sources, ?_⟩
    rw [addExtensions_singleton, importStore, if_pos empty]
    rfl
  | false =>
    rw [isEmpty, OrderedMap.isEmpty, List.isEmpty_iff] at unwritten
    refine ⟨importer.sources.insertAll s'.sources.entries, ?_⟩
    rw [outcomeFrom_addExtensions v empty, h.extensions, unwritten]
    rfl

/-- **Importing a store shows nothing of its secret extensions.** -/
theorem addExtensions_agrees (h : Agrees v s s') {importer : Store}
    (clear : importer.IsClearOf v.apart) :
    (outcomeFrom (addExtensions [s']) importer).1 = (outcomeFrom (addExtensions [s]) importer).1 ∧
      (outcomeFrom (addExtensions [s']) importer).2.slots
        = (outcomeFrom (addExtensions [s]) importer).2.slots := by
  cases bare : s.isEmpty with
  | false =>
    have entries : s.extensions.restrict (!v.opened.secret ·) = s.extensions := by
      simp [OrderedMap.restrict, Veil.opened]
    have bare' : s'.isEmpty = false := by
      rw [isEmpty, OrderedMap.isEmpty, ← h.extensions, List.isEmpty_eq_false_iff] at bare
      rw [isEmpty, OrderedMap.isEmpty, List.isEmpty_eq_false_iff]
      intro empty
      exact bare (by rw [OrderedMap.restrict, empty, List.filter_nil])
    have both := import_inBoth Veil.isOpen_opened
      (agrees_insertAll Veil.isOpen_opened clear h.sources) h.clear.extensions
    rw [outcomeFrom_addExtensions v bare', h.extensions, outcomeFrom_addExtensions v.opened bare,
      entries]
    exact ⟨both.same, both.agrees.slots⟩
  | true =>
    have nothing : outcomeFrom (addExtensions [s]) importer = (.ok (), importer) := by
      rw [addExtensions_singleton, importStore, if_pos bare]
      rfl
    obtain ⟨sources, run⟩ := addExtensions_secret h bare importer
    rw [nothing, run]
    exact ⟨rfl, rfl⟩

/-- **Private extensions stay private.**  Take a confined run and leave out all its calls with a
secret target: in every importing store that mentions nothing behind the veil, the import has the
same outcome and gives the same selectors. -/
theorem private_extensions_confined (v : Veil) (mode : ExtendMode) (limit : ℕ)
    {calls : List ExtensionCall} (confined : IsConfined v calls (.empty mode limit))
    {importer : Store} (clear : importer.IsClearOf v.apart) :
    let shown := ofExtensionCalls mode limit (calls.filter (!v.secret ·.target))
    let all := ofExtensionCalls mode limit calls
    (outcomeFrom (addExtensions [all]) importer).1
      = (outcomeFrom (addExtensions [shown]) importer).1 ∧
      ∀ id, (outcomeFrom (addExtensions [all]) importer).2.selector? id
        = (outcomeFrom (addExtensions [shown]) importer).2.selector? id := by
  intro shown all
  by_cases isOpen : v.IsOpen
  · have same : shown = all := by
      simp only [shown, all, isOpen _, Bool.not_false, List.filter_true]
    rw [same]
    exact ⟨rfl, fun _ => rfl⟩
  · obtain ⟨result, slots⟩ := addExtensions_agrees
      (afterCalls_agrees isOpen (agrees_empty v mode limit) confined) clear
    refine ⟨result, fun id => ?_⟩
    rw [selector?, selector?]
    exact congrArg (fun slots : List Slot => (slots[id]?).map Slot.value) slots

/-- A call for the class selector of some names to extend a target. -/
def extensionCall (names : List String) (target : Simple) (media : Option MediaContext) :
    ExtensionCall :=
  ⟨[.ofCompound (names.map .className)], default, target, default, media, false⟩

/-- A store with one class as its only selector. -/
def importerOf (name : String) (media : Option MediaContext) : Store :=
  afterCalls [.addSelector [.ofCompound [.className name]] default media] (.empty .normal 100)

/-- The texts of the selectors of an importing store after it imports what some calls ask for. -/
def importedTexts (calls : List ExtensionCall) (importer : Store) : List String :=
  (outcomeFrom (addExtensions [ofExtensionCalls .normal 100 calls]) importer).2.selectors.map
    SelectorList.text

/-- The placeholder `%-p` is secret, and `.z` is kept apart. -/
def chainVeil : Veil := .of [.placeholder "-p"] [.className "z"] (by decide) (by decide)

/-- A run that extends `.w` once `%-p` has been extended by `.w.z`. -/
def chainRun : List ExtensionCall :=
  [extensionCall ["w"] (.className "t") none, extensionCall ["w", "z"] (.placeholder "-p") none,
    extensionCall ["x"] (.className "w") none]

/-- `.t` by `.w`, `%-p` by `.w, .z`, and `.w` by `.x`: the class that only the placeholder's
extender has stays apart. -/
theorem private_extensions_confined_chainRun :
    IsConfined chainVeil chainRun (.empty .normal 100) ∧
      (importerOf "t" none).IsClearOf chainVeil.apart ∧
      ∀ id, (outcomeFrom (addExtensions [ofExtensionCalls .normal 100 chainRun])
          (importerOf "t" none)).2.selector? id
        = (outcomeFrom (addExtensions [ofExtensionCalls .normal 100
            (chainRun.filter (!chainVeil.secret ·.target))])
          (importerOf "t" none)).2.selector? id := by
  have confined : IsConfined chainVeil chainRun (.empty .normal 100) := by
    refine ⟨?_, ?_, ?_, trivial⟩
    · rw [if_neg (Bool.eq_false_iff.1 (by cbv))]
      exact ⟨of_decide_eq_true (by cbv), by cbv⟩
    · rw [if_pos (by cbv)]
      exact of_decide_eq_true (by cbv)
    · rw [if_neg (Bool.eq_false_iff.1 (by cbv))]
      exact ⟨of_decide_eq_true (by cbv), by cbv⟩
  have clear : (importerOf "t" none).IsClearOf chainVeil.apart := by
    have extensions : (importerOf "t" none).extensions = .empty := by cbv
    have rules : (importerOf "t" none).byExtender = .empty := by cbv
    refine ⟨of_decide_eq_true (by cbv), extensions ▸ eachExtension_empty, fun x r hr => ?_⟩
    rw [rulesUnder, rules] at hr
    cases hr
  exact ⟨confined, clear, (private_extensions_confined chainVeil .normal 100 confined clear).2⟩

/-- **Source specificities leak, and so do refused calls.**  In the first run, `.w` gets the
specificity of `.w.z` because of a private extension, and then `.x.w` is not trimmed.  In the second
one, `.b` does not extend `.t` because a rule of `%-p` must not be extended across media. -/
theorem private_extension_leaks :
    (let calls := [extensionCall ["w"] (.className "q") none,
      extensionCall ["x"] (.className "t") none, extensionCall ["x", "w"] (.className "t") none]
    importedTexts (extensionCall ["w", "z"] (.placeholder "-p") none :: calls) (importerOf "t" none)
        = [".t, .x, .x.w"] ∧
      importedTexts calls (importerOf "t" none) = [".t, .x"]) ∧
    (let screen := some ["screen"]
    let first := extensionCall ["a"] (.className "q") screen
    let calls :=
      [extensionCall ["a"] (.className "t") screen, extensionCall ["b"] (.className "a") screen]
    importedTexts (first :: extensionCall ["a"] (.placeholder "-p") none :: calls)
          (importerOf "t" screen)
        = [".t, .a"] ∧
      importedTexts (first :: calls) (importerOf "t" screen) = [".t, .a, .b"]) := by
  cbv

end Store

end SelectorAlgebra
