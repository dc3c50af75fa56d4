import Mathlib
import SelectorAlgebra.Proofs.Retention
import SelectorAlgebra.Proofs.Settling

/-!
# Proofs/Authorship — a store never loses what an author wrote

* `authored_retained` — in a store that does not replace, a selector without arguments that an
  author wrote is in the value of its rule for ever, whatever calls come later and whether they fail
  or not.  The same goes for extending outside a style sheet.

A call takes a store to one that comes after it in the preorder `Store.Keeps`: no author-written
selector is lost from the record, nor from any rule.  Only `extendSelectors` and `addSelector` write
selectors at all; both write what `extendList` gave (`extendList_ensures`), and everything else only
adds to the record.
-/

namespace SelectorAlgebra.Store

/-! ## What every operation keeps -/

/-- Every author-written selector without arguments is still where it was. -/
structure Keeps (s s' : Store) : Prop where
  mode : s'.mode = s.mode
  authored : Grows s.authored s'.authored
  slots : ∀ {id : ℕ} {slot : Slot}, s.slots[id]? = some slot →
    ∃ slot', s'.slots[id]? = some slot' ∧ ∀ c, s.authored.contains c = true → c.isFlat = true →
      slot.value.contains c = true → slot'.value.contains c = true

instance : Std.Refl Keeps :=
  ⟨fun _ => ⟨rfl, Std.Refl.refl _, fun h => ⟨_, h, fun _ _ _ mem => mem⟩⟩⟩

instance : IsTrans Store Keeps where
  trans _ _ _ h h' :=
    { mode := h'.mode.trans h.mode
      authored := IsTrans.trans _ _ _ h.authored h'.authored
      slots := fun hs => by
        obtain ⟨slot', hs', kept⟩ := h.slots hs
        obtain ⟨slot'', hs'', kept'⟩ := h'.slots hs'
        exact ⟨slot'', hs'', fun c own flat mem =>
          kept' c (h.authored c own) flat (kept c own flat mem)⟩ }

variable {s s' : Store}

theorem Keeps.mode_ne (h : Keeps s s') (hm : s.mode ≠ .replace) : s'.mode ≠ .replace := by
  rwa [h.mode]

/-- A change to the extensions and the indexes alone loses nothing. -/
theorem keeps_of_eq (mode : s'.mode = s.mode) (authored : s'.authored = s.authored)
    (slots : s'.slots = s.slots) : Keeps s s' :=
  ⟨mode, authored ▸ Std.Refl.refl _, fun h => ⟨_, slots ▸ h, fun _ _ _ mem => mem⟩⟩

/-- More authored choices keep everything. -/
theorem keeps_of_grows {authored : List Complex} (h : Grows s.authored authored) :
    Keeps s { s with authored := authored } :=
  ⟨rfl, h, fun hs => ⟨_, hs, fun _ _ _ mem => mem⟩⟩

theorem keeps_addAuthored (l : SelectorList) : Keeps s (s.addAuthored l) :=
  keeps_of_grows fun _ own => contains_foldl_addDistinct l (.inl own)

theorem keeps_pushSlot (slot : Slot) : Keeps s (s.pushSlot slot) := by
  refine ⟨rfl, Std.Refl.refl _, fun {id slot'} h => ⟨slot', ?_, fun _ _ _ mem => mem⟩⟩
  have := (List.getElem?_eq_some_iff.1 h).1
  simp only [pushSlot]
  rw [List.getElem?_append_left this, h]

/-- Changing a slot keeps what was asked of it when the new value has the authored flat choices of
the old. -/
theorem keeps_setSelector {id : ℕ} {slot : Slot} {value : SelectorList}
    (hs : s.slots[id]? = some slot) (kept : ∀ c, s.authored.contains c = true → c.isFlat = true →
      slot.value.contains c = true → value.contains c = true) :
    Keeps s (s.setSelector id slot value) := by
  refine ⟨rfl, Std.Refl.refl _, fun {id' slot'} h => ?_⟩
  by_cases same : id = id'
  · subst same
    obtain rfl := Option.some.inj (hs.symm.trans h)
    have lt := (List.getElem?_eq_some_iff.1 hs).1
    exact ⟨{ slot with value := value }, by simp only [setSelector, List.getElem?_set_self lt],
      kept⟩
  · exact ⟨slot', by simp only [setSelector, List.getElem?_set_ne same, h], fun _ _ _ mem => mem⟩

/-- A run of extension inside a store changes only the authored choices. -/
theorem extending_ensures {α : Type} {extensions : ExtensionMap} {span : Span}
    {media : Option MediaContext} {step : ExtendContext → Extending α} {Q : α → Store → Prop}
    (h : Ensures Grows (step ⟨s.mode, s.sources, extensions, media⟩) s.authored fun a authored =>
      Q a { s with authored := authored }) :
    Ensures Keeps (Storing.extending extensions span media step) s Q := by
  obtain ⟨grows, hQ⟩ := h
  refine .extending (keeps_of_grows grows) fun a authored run => ?_
  rw [run] at hQ
  exact hQ a rfl

/-! ## Extending extenders -/

theorem ofExcept_keeps {α : Type} (e : Except Failure α) :
    Ensures Keeps (Storing.ofExcept e) s fun _ _ => True :=
  .ofExcept fun _ _ => trivial

/-- A derived extension touches no slot. -/
theorem addDerived_keeps (pending : ExtensionMap) (r : ExtendRule) :
    Ensures Keeps (addDerived pending r) s fun _ _ => True := by
  refine Ensures.get_bind ?_
  split
  · split
    · exact .pure trivial
    · exact (ofExcept_keeps _).bind fun _ _ _ _ => .modify_pure (keeps_of_eq rfl rfl rfl) trivial
  · exact .modify_pure (keeps_of_eq rfl rfl rfl) trivial

theorem extendRule_keeps (hm : s.mode ≠ .replace) (pending : ExtensionMap) (r : ExtendRule) :
    Ensures Keeps (extendRule pending r) s fun _ _ => True := by
  refine (extending_ensures (Q := fun _ _ => True)
    (ExtendContext.extendComplex_grows hm r.extender)).bind fun found s' _ _ => ?_
  split
  · exact .pure trivial
  · refine Ensures.get_bind ?_
    split
    · exact .pure trivial
    · refine (Ensures.mapM (S := fun _ _ => True) fun c _ s'' _ => addDerived_keeps pending _).bind
        fun added s'' _ _ => ?_
      dsimp only
      split
      · exact .modify_pure (keeps_of_eq rfl rfl rfl) trivial
      · exact .pure trivial

/-- Any number of rounds touches no slot, by induction on the rounds and the rules left. -/
theorem settleWithin_keeps (limit : ℕ) : ∀ (n : ℕ) {s : Store} (_ : s.mode ≠ .replace)
    (rules : List ExtendRule) (pending new : ExtensionMap),
    Ensures Keeps (settleWithin limit n rules pending new) s fun _ _ => True
  | _, _, _, [], _, _ => by
    unfold settleWithin
    exact .pure trivial
  | 0, _, _, _ :: _, _, _ => .throw _
  | n + 1, s, hm, r :: rules, pending, new => by
    refine (Ensures.mapM (S := fun _ _ => True) fun r _ s' kept =>
      extendRule_keeps (kept.mode_ne hm) pending r).bind fun added s' kept _ => ?_
    dsimp only
    split
    · exact .pure trivial
    · exact Ensures.get_bind (settleWithin_keeps limit n (kept.mode_ne hm) _ _ _)

theorem settle_keeps (hm : s.mode ≠ .replace) (rules : List ExtendRule) (new : ExtensionMap) :
    Ensures Keeps (settle rules new) s fun _ _ => True :=
  Ensures.get_bind (settleWithin_keeps _ _ hm rules new new)

/-! ## Selectors -/

/-- Extending slots changes their values, and each new value retains what was authored. -/
theorem extendSelectors_keeps (hm : s.mode ≠ .replace) (new : ExtensionMap) (ids : List ℕ) :
    Ensures Keeps (extendSelectors new ids) s fun _ _ => True := by
  refine Ensures.forM fun id _ s' kept => Ensures.get_bind ?_
  split
  · exact .pure trivial
  rename_i slot hslot
  -- what the record gains while the selector is extended need not be in the result
  refine (extending_ensures
    (Q := fun found s'' => (∃ authored, s'' = { s' with authored := authored }) ∧
    ∀ c, s'.authored.contains c = true → c.isFlat = true → slot.value.contains c = true →
      (found.getD slot.value).contains c = true)
        ((ExtendContext.extendList_ensures (kept.mode_ne hm)
        slot.value).mono fun _ authored _ h => ⟨⟨authored, rfl⟩, h⟩)).bind_from
    fun found s'' kept' ⟨⟨authored, hs⟩, h⟩ => ?_
  split
  · exact .pure_of kept' trivial
  rename_i extended
  split
  · exact .pure_of kept' trivial
  · refine .modify ?_ trivial
    subst hs
    exact IsTrans.trans _ _ _ (keeps_setSelector hslot h) (keeps_of_grows kept'.authored)

/-- A new slot is found under the number that is returned. -/
theorem pushSlot_ensures {s₁ : Store} (same : s.slots = s₁.slots) (slot : Slot) :
    Ensures Keeps (do modify (·.pushSlot slot); pure s₁.count : Storing ℕ) s fun id s' =>
      s'.slots[id]? = some slot :=
  (Ensures.modify (Q := fun _ s' => s' = s.pushSlot slot) (keeps_pushSlot slot) rfl).bind
    fun _ _ _ hs => .pure (by simp [hs, pushSlot, count, same])

/-- A new selector is in its place, and all of it is on record. -/
theorem addSelector_ensures (hm : s.mode ≠ .replace) (l : SelectorList) (span : Span)
    (media : Option MediaContext) :
    Ensures Keeps (addSelector l span media) s fun id s' => l.isInvisible = false →
      ∃ slot, s'.slots[id]? = some slot ∧
        ∀ c ∈ l, c.isFlat = true → s'.authored.contains c = true ∧
          slot.value.contains c = true := by
  have kept : ∀ {s₁ : Store}, s₁.mode ≠ .replace → ∀ extensions : ExtensionMap,
      Ensures Keeps (Storing.extending extensions span media (·.extendList l)) s₁ fun found s₂ =>
        s₂.slots = s₁.slots ∧ ∀ c ∈ l, s₁.authored.contains c = true → c.isFlat = true →
          (found.getD l).contains c = true := fun hm₁ _ =>
    extending_ensures ((ExtendContext.extendList_ensures hm₁ l).mono fun _ _ _ h =>
      ⟨rfl, fun c mem own flat => h c own flat (List.elem_eq_true_of_mem mem)⟩)
  have placed : ∀ {s₁ : Store}, s₁.mode ≠ .replace →
      Ensures Keeps (placeSelector l span media) s₁ fun id s' => ∃ slot, s'.slots[id]? = some slot ∧
        ∀ c ∈ l, s₁.authored.contains c = true → c.isFlat = true →
          slot.value.contains c = true := by
    intro s₁ hm₁
    refine Ensures.get_bind ?_
    split
    · exact (pushSlot_ensures rfl ⟨l, span, media⟩).mono fun _ _ _ hs =>
        ⟨_, hs, fun _ mem _ _ => List.elem_eq_true_of_mem mem⟩
    · exact (kept hm₁ _).bind fun found s₂ _ ⟨same, h⟩ =>
        (pushSlot_ensures same _).mono fun _ _ _ hs => ⟨_, hs, h⟩
  rw [addSelector_eq]
  split
  · rename_i invisible
    exact (placed hm).mono fun _ _ _ _ visible => absurd visible (by simpa using invisible)
  · refine (Ensures.modify (Q := fun _ s₁ => ∀ c ∈ l, s₁.authored.contains c = true)
      (keeps_addAuthored l) fun c mem => contains_foldl_addDistinct l (.inr mem)).bind
        fun _ s₁ kept₁ own => ?_
    exact (placed (kept₁.mode_ne hm)).mono fun id s' kept' ⟨slot, hs, h⟩ _ =>
      ⟨slot, hs, fun c mem flat => ⟨kept'.authored c (own c mem), h c mem (own c mem) flat⟩⟩

theorem addRule_keeps (r : ExtendRule) : Ensures Keeps (addRule r) s fun _ _ => True := by
  refine Ensures.get_bind ?_
  split
  · exact (ofExcept_keeps _).bind fun _ _ _ _ => .modify_pure (keeps_of_eq rfl rfl rfl) trivial
  · exact .modify_pure (keeps_of_eq rfl rfl rfl) trivial

/-- An extension notes its rules, settles them and extends the slots. -/
theorem addExtension_keeps (hm : s.mode ≠ .replace) (extender : SelectorList) (extenderSpan : Span)
    (target : Simple) (span : Span) (media : Option MediaContext) (optional : Bool) :
    Ensures Keeps (addExtension extender extenderSpan target span media optional) s
      fun _ _ => True := by
  refine Ensures.get_bind ?_
  dsimp only
  refine (Ensures.modify (Q := fun _ _ => True) (keeps_of_eq rfl rfl rfl) trivial).bind
    fun _ s₁ kept₁ _ => ?_
  refine (Ensures.mapM (S := fun _ _ => True) fun c _ s' _ => addRule_keeps _).bind
    fun added s₂ kept₂ _ => ?_
  split
  · exact .pure trivial
  split
  · exact .pure trivial
  · have hm₂ : s₂.mode ≠ .replace := kept₂.mode_ne (kept₁.mode_ne hm)
    exact (settle_keeps hm₂ _ _).bind fun new s₃ kept₃ _ =>
      Ensures.get_bind (extendSelectors_keeps (kept₃.mode_ne hm₂) _ _)

/-! ## Other style sheets -/

/-- Importing one target touches no slot. -/
theorem importTarget_keeps (found : Import) (entry : Simple × OrderedMap Complex Extension) :
    Ensures Keeps (importTarget found entry) s fun _ _ => True := by
  obtain ⟨target, sources⟩ := entry
  simp only [importTarget]
  split
  · exact .pure trivial
  refine Ensures.get_bind ?_
  refine (Ensures.modify (Q := fun _ _ => True) (keeps_of_eq rfl rfl rfl) trivial).bind
    fun _ s₁ _ _ => ?_
  refine (Ensures.mapM (S := fun _ _ => True) fun e _ s' _ => ?_).bind
    fun added s₂ _ _ => .pure trivial
  refine Ensures.get_bind ?_
  split
  · exact (ofExcept_keeps _).bind fun _ _ _ _ => .modify_pure (keeps_of_eq rfl rfl rfl) trivial
  · exact .modify_pure (keeps_of_eq rfl rfl rfl) trivial

theorem importStore_keeps (found : Import) (other : Store) :
    Ensures Keeps (importStore found other) s fun _ _ => True := by
  unfold importStore
  split
  · exact .pure trivial
  · exact (Ensures.modify (Q := fun _ _ => True) (keeps_of_eq rfl rfl rfl) trivial).bind
      fun _ s' _ _ => Ensures.foldlM (I := fun _ => True)
        (fun entry _ found s'' _ _ => importTarget_keeps found entry) trivial

/-- Importing stores extends the slots at the end. -/
theorem addExtensions_keeps (hm : s.mode ≠ .replace) (others : List Store) :
    Ensures Keeps (addExtensions others) s fun _ _ => True := by
  refine (Ensures.foldlM (I := fun _ => True)
    (fun other _ found s' _ _ => importStore_keeps found other) trivial).bind
      fun found s₁ kept₁ _ => ?_
  split
  · exact .pure trivial
  · exact (settle_keeps (kept₁.mode_ne hm) _ _).bind fun new s₂ kept₂ _ =>
      extendSelectors_keeps (kept₂.mode_ne (kept₁.mode_ne hm)) _ _

/-! ## Calls -/

/-- A call that changes a store. -/
inductive Call where
  | addSelector (l : SelectorList) (span : Span) (media : Option MediaContext)
  | addExtension (extender : SelectorList) (extenderSpan : Span) (target : Simple) (span : Span)
      (media : Option MediaContext) (optional : Bool)
  | addExtensions (others : List Store)

/-- What a call does. -/
def Call.operation : Call → Storing Unit
  | .addSelector l span media => do let _ ← Store.addSelector l span media
  | .addExtension extender extenderSpan target span media optional =>
    Store.addExtension extender extenderSpan target span media optional
  | .addExtensions others => Store.addExtensions others

/-- The store after some calls, those that failed included. -/
def afterCalls (calls : List Call) (s : Store) : Store :=
  calls.foldl (fun s call => (outcomeFrom call.operation s).2) s

/-- **Every call keeps.** -/
theorem Call.keeps (call : Call) (hm : s.mode ≠ .replace) :
    Keeps s (outcomeFrom call.operation s).2 := by
  cases call with
  | addSelector l span media =>
    exact ((addSelector_ensures hm l span media).bind fun _ _ _ _ =>
      Ensures.pure (Q := fun _ _ => True) trivial).1
  | addExtension extender extenderSpan target span media optional =>
    exact (addExtension_keeps hm extender extenderSpan target span media optional).1
  | addExtensions others => exact (addExtensions_keeps hm others).1

/-- **Every run of calls keeps.** -/
theorem afterCalls_keeps (calls : List Call) (hm : s.mode ≠ .replace) :
    Keeps s (afterCalls calls s) := by
  induction calls generalizing s with
  | nil => exact Std.Refl.refl s
  | cons call calls ih =>
    have step := call.keeps hm
    exact IsTrans.trans _ _ _ step (ih (step.mode_ne hm))

/-- **What an author wrote is never lost.**  A selector without arguments in a visible rule is in
the value of the rule after any later calls, failed ones included; and in what `extend` gives. -/
theorem authored_retained {mode : ExtendMode} (hm : mode ≠ .replace) (limit : ℕ) :
    (∀ (earlier later : List Call) (l : SelectorList) (span : Span) (media : Option MediaContext)
      (id : ℕ) (s : Store), l.isInvisible = false →
      outcomeFrom (Store.addSelector l span media) (afterCalls earlier (.empty mode limit))
        = (.ok id, s) →
      ∃ value, (afterCalls later s).selector? id = some value ∧
        ∀ c ∈ l, c.isFlat = true → ∃ d ∈ value, (c == d) = true) ∧
    ∀ (l source targets extended : SelectorList) (span : Span), l.isInvisible = false →
      l.extend source targets span = .ok extended →
      ∀ c ∈ l, c.isFlat = true → ∃ d ∈ extended, (c == d) = true := by
  refine ⟨fun earlier later l span media id s visible h => ?_,
    fun l source targets extended span visible h c mem flat =>
      List.contains_iff_exists_mem_beq.1 (contains_extend visible h mem flat)⟩
  have before := afterCalls_keeps (s := .empty mode limit) earlier hm
  obtain ⟨kept, added⟩ := addSelector_ensures (before.mode_ne hm) l span media
  rw [h] at kept added
  obtain ⟨slot, hslot, own⟩ := added id rfl visible
  have after := afterCalls_keeps later (kept.mode_ne (before.mode_ne hm))
  obtain ⟨slot', hslot', kept'⟩ := after.slots hslot
  refine ⟨slot'.value, by rw [selector?, hslot', Option.map_some], fun c mem flat => ?_⟩
  obtain ⟨recorded, present⟩ := own c mem flat
  exact List.contains_iff_exists_mem_beq.1 (kept' c recorded flat present)

/-- The rule `.a .c` is still there after `.b` extended `.a`, before it was added and again
later. -/
theorem authored_retained_descendant :
    let row : Complex := ⟨[.compound [.className "a"], .compound [.className "c"]], false⟩
    let call : Call :=
      .addExtension [.ofCompound [.className "b"]] default (.className "a") default none false
    let added := outcomeFrom (Store.addSelector [row] default none)
      (afterCalls [call] (.empty .normal 1))
    added.1.toOption = some 0 ∧
      ∃ value, (afterCalls [call] added.2).selector? 0 = some value ∧
        ∃ d ∈ value, (row == d) = true := by
  intro row call added
  have ok : added.1 = .ok 0 := by
    unfold added call row
    cbv
  obtain ⟨value, h, kept⟩ := (@authored_retained .normal (by decide) 1).1 [call]
    [call] [row] default none 0 added.2 rfl (Prod.ext ok rfl)
  exact ⟨by rw [ok]; rfl, value, h, kept row (List.mem_singleton_self _) rfl⟩

end SelectorAlgebra.Store
