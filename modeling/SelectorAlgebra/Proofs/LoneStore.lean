import SelectorAlgebra.Proofs.ExtensionTables
import SelectorAlgebra.Proofs.LoneSelectors
import SelectorAlgebra.Proofs.Settling

/-!
# Proofs/LoneStore — a store of lone selectors, and its extensions

A store whose selectors and extenders are all lone is read as a graph: rule `id` *has* the
condition `x` (`Store.Has`), and `x` *is extended by* `y` (`Extends`).  This module is about
the second relation: which pairs a rule brings in (`addRule_lone`), and which ones follow
from them (`settle_lone`).

The engine is that one round of extending extenders is enough: the rules that mention the target
have all their pairs at the end of it, and whatever was new in it is not a target itself.
-/

namespace SelectorAlgebra

/-! ## Extensions put into a map -/

section SetExtension

variable {m : ExtensionMap} {t x y : Simple} {c : Complex} {e : Extension}

/-- What one more entry adds. -/
theorem extends_setExtension : Extends (Store.setExtension m t c e) x y ↔
    Extends m x y ∨ (t == x) = true ∧ (c == lone y) = true := by
  unfold Extends Store.setExtension
  rw [OrderedMap.get?_alter]
  by_cases h : (t == x) = true
  · rw [m.get?_congr h]
    simp only [h, if_true, Option.some.injEq, exists_eq_left', true_and, OrderedMap.insert,
      OrderedMap.contains_alter, Bool.or_eq_true]
    cases m.get? x with
    | none => simp [OrderedMap.contains, OrderedMap.empty]
    | some sources => simp [or_comm]
  · simp [h]

/-- An extension by a lone selector may be set. -/
theorem AreLoneExtensions.setExtension (hm : AreLoneExtensions m) (he : IsLoneExtension t c e) :
    AreLoneExtensions (Store.setExtension m t c e) := by
  have insert : ∀ {t' : Simple} {sources : OrderedMap Complex Extension}, (t' == t) = true →
      (∀ e ∈ sources.entries, IsLoneExtension t' e.1 e.2) →
      ∀ e' ∈ (sources.insert c e).entries, IsLoneExtension t' e'.1 e'.2 := by
    intro t' sources ht hs e' he'
    rcases OrderedMap.mem_entries_alter he' with old | ⟨v, -, same, value⟩ | rfl
    · exact hs e' old
    · rw [value]
      exact he.congr (BEq.symm ht) (BEq.symm same)
    · exact he.congr (BEq.symm ht) BEq.rfl
  intro entry mem
  rcases OrderedMap.mem_entries_alter mem with old | ⟨sources, old, same, value⟩ | rfl
  · exact hm entry old
  · rw [value]
    exact insert same (hm _ old)
  · exact insert BEq.rfl fun e' he' => absurd he' List.not_mem_nil

/-- Extending is being in the table. -/
theorem extends_iff_get? (hc : (c == lone y) = true) :
    Extends m t y ↔ ((m.get? t).bind (·.get? c)).isSome = true := by
  unfold Extends
  cases m.get? t with
  | none => simp
  | some sources =>
    simp [OrderedMap.contains_eq_isSome, sources.get?_congr hc]

end SetExtension

namespace Store

/-- The rule has the condition among its choices. -/
def Has (s : Store) (id : ℕ) (x : Simple) : Prop :=
  ∃ slot, s.slots[id]? = some slot ∧ slot.value.contains (lone x) = true

theorem Has.congr {s : Store} {id : ℕ} {x y : Simple} (h : s.Has id x) (same : (x == y) = true) :
    s.Has id y := by
  obtain ⟨slot, hs, hx⟩ := h
  exact ⟨slot, hs, (contains_lone_congr same).symm.trans hx⟩

/-- The position `id` stands under `x` in the index. -/
def Listed (index : OrderedMap Simple (List ℕ)) (x : Simple) (id : ℕ) : Prop :=
  ∃ ids, index.get? x = some ids ∧ id ∈ ids

/-- The store holds nothing but lone selectors, outside of media queries, and its indexes miss
nothing. -/
structure IsLoneStore (s : Store) : Prop where
  mode : s.mode = .normal
  rounds : 0 < s.roundLimit
  slots : ∀ slot ∈ s.slots, slot.media = none ∧ AreLone slot.value
  extensions : AreLoneExtensions s.extensions
  /-- Every condition points to the rules that have it. -/
  indexed : ∀ {id : ℕ} {x : Simple}, s.Has id x → Listed s.bySimple x id
  /-- Every extender points to what it extends… -/
  ruled : ∀ {x y : Simple}, Extends s.extensions x y →
    ∃ r ∈ s.rulesUnder y, (r.target == x) = true
  /-- …and to nothing else. -/
  sound : ∀ {y : Simple}, ∀ r ∈ s.rulesUnder y, r.media = none ∧ IsLone r.extender ∧
    (r.extender == lone y) = true ∧ Extends s.extensions r.target y

/-- The store `s'` has the rules of `s`, and the extensions of `s` and `new`. -/
structure Gains (s s' : Store) (new : Simple → Simple → Prop) : Prop where
  isLone : IsLoneStore s'
  slots : s'.slots = s.slots
  bySimple : s'.bySimple = s.bySimple
  extends_iff : ∀ x y, Extends s'.extensions x y ↔ Extends s.extensions x y ∨ new x y

variable {s s' s'' : Store} {new new' : Simple → Simple → Prop}

theorem Gains.trans (h : Gains s s' new) (h' : Gains s' s'' new') :
    Gains s s'' fun x y => new x y ∨ new' x y :=
  ⟨h'.isLone, h'.slots.trans h.slots, h'.bySimple.trans h.bySimple, fun x y => by
    rw [h'.extends_iff, h.extends_iff, or_assoc]⟩

theorem Gains.congr (h : Gains s s' new) (iff : ∀ x y, new x y ↔ new' x y) : Gains s s' new' :=
  ⟨h.isLone, h.slots, h.bySimple, fun x y => by rw [h.extends_iff, iff]⟩

/-- Only the record of author-written selectors and the source specificities change. -/
theorem IsLoneStore.gains_nothing (h : IsLoneStore s) (sources : SourceSpecificity)
    (authored : List Complex) :
    Gains s { s with sources := sources, authored := authored } fun _ _ => False :=
  ⟨⟨h.mode, h.rounds, h.slots, h.extensions, h.indexed, h.ruled, h.sound⟩, rfl, rfl,
    fun _ _ => (or_iff_left not_false).symm⟩

/-- A pair that is there already is no gain. -/
theorem IsLoneStore.gains_known (h : IsLoneStore s) {t y : Simple}
    (known : Extends s.extensions t y) :
    Gains s s fun x z => (t == x) = true ∧ (y == z) = true :=
  ⟨h, rfl, rfl, fun _ _ => (or_iff_left_of_imp fun ⟨hx, hz⟩ =>
    (known.congr_left hx).congr_right hz).symm⟩

/-! ## One more pair -/

theorem beq_lone_iff {c : Complex} {y z : Simple} (hc : (c == lone y) = true) :
    (c == lone z) = true ↔ (y == z) = true := by
  rw [BEq.congr_left hc, lone_beq_lone]

theorem simples_of_lone {c : Complex} {y : Simple} (hc : c.items = [.compound [y]])
    (plain : y.argument? = none) : c.simples = [y] := by
  rw [Complex.simples, hc]
  rcases y with _ | _ | _ | _ | _ | _ | _ | ⟨_, _, _ | _⟩ <;> first | rfl | cases plain

/-- A pair that is there may get another extension. -/
theorem IsLoneStore.put (h : IsLoneStore s) {t y : Simple} {c : Complex} {e : Extension}
    (hc : (c == lone y) = true) (known : Extends s.extensions t y) (he : IsLoneExtension t c e) :
    Gains s (s.putExtension t c e) fun x z => (t == x) = true ∧ (y == z) = true := by
  have iff : ∀ x z, Extends (s.putExtension t c e).extensions x z ↔
      Extends s.extensions x z ∨ (t == x) = true ∧ (y == z) = true := fun x z => by
    rw [putExtension, extends_setExtension, beq_lone_iff hc]
  refine ⟨⟨h.mode, h.rounds, h.slots, h.extensions.setExtension he, h.indexed, fun {x z} hx => ?_,
    fun {z} r hr => ?_⟩, rfl, rfl, iff⟩
  · rcases (iff x z).1 hx with old | ⟨hx, hz⟩
    · exact h.ruled old
    · exact h.ruled ((known.congr_left hx).congr_right hz)
  · obtain ⟨media, lone, same, old⟩ := h.sound r hr
    exact ⟨media, lone, same, (iff _ _).2 (.inl old)⟩

/-- A new pair, with its rule in the index. -/
theorem IsLoneStore.addPair (h : IsLoneStore s) {r : ExtendRule} {y : Simple}
    (media : r.media = none) (hc : r.extender.items = [.compound [y]])
    (plain : y.argument? = none) :
    Gains s ((s.indexRule r [y]).putExtension r.target r.extender (.rule r)) fun x z =>
      (r.target == x) = true ∧ (y == z) = true := by
  have hl : IsLone r.extender := ⟨y, hc, plain⟩
  have iff : ∀ x z, Extends (setExtension s.extensions r.target r.extender (.rule r)) x z ↔
      Extends s.extensions x z ∨ (r.target == x) = true ∧ (y == z) = true := fun x z => by
    rw [extends_setExtension, beq_lone_iff (beq_lone hc)]
  have listed : ∀ {z}, [y].contains z = true ↔ (y == z) = true := fun {z} => by
    rw [List.contains_cons, List.contains_nil, Bool.or_false, BEq.comm]
  refine ⟨⟨h.mode, h.rounds, h.slots, h.extensions.setExtension ⟨media, BEq.rfl, BEq.rfl, hl⟩,
    h.indexed, fun {x z} hx => ?_, fun {z} r' hr' => ?_⟩, rfl, rfl, iff⟩
  · rcases (iff x z).1 hx with old | ⟨hx, hz⟩
    · obtain ⟨r', hr', target⟩ := h.ruled old
      exact ⟨r', mem_rulesUnder_indexRule.2 (.inl hr'), target⟩
    · exact ⟨r, mem_rulesUnder_indexRule.2 (.inr ⟨listed.2 hz, rfl⟩), hx⟩
  · rcases mem_rulesUnder_indexRule.1 hr' with old | ⟨hz, rfl⟩
    · obtain ⟨media, lone, same, known⟩ := h.sound r' old
      exact ⟨media, lone, same, (iff _ _).2 (.inl known)⟩
    · have hz := listed.1 hz
      exact ⟨media, hl, (beq_lone_iff (beq_lone hc)).2 hz, (iff _ _).2 (.inr ⟨BEq.rfl, hz⟩)⟩

/-- The extension of a pair that is there goes together with a new rule for it. -/
theorem IsLoneStore.exists_merge (h : IsLoneStore s) {r : ExtendRule} {y : Simple}
    {existing : Extension} (media : r.media = none) (hc : r.extender.items = [.compound [y]])
    (plain : y.argument? = none)
    (found : (s.extensions.get? r.target).bind (·.get? r.extender) = some existing) :
    Extends s.extensions r.target y ∧ ∃ merged, existing.merge (.rule r) = .ok merged ∧
      Gains s (s.putExtension r.target r.extender merged) fun x z =>
        (r.target == x) = true ∧ (y == z) = true := by
  obtain ⟨sources, hs, he⟩ := Option.bind_eq_some_iff.1 found
  obtain ⟨merged, hmerged, good⟩ := (h.extensions.get? hs he).exists_merge
    (show IsLoneExtension r.target r.extender (.rule r) from
      ⟨media, BEq.rfl, BEq.rfl, y, hc, plain⟩)
  have known : Extends s.extensions r.target y := by
    rw [extends_iff_get? (beq_lone hc), found]
    rfl
  exact ⟨known, merged, hmerged, h.put (beq_lone hc) known good⟩

/-- A rule adds its pair, and is passed on if the pair is new. -/
theorem addRule_lone (h : IsLoneStore s) {r : ExtendRule} {y : Simple} (media : r.media = none)
    (hc : r.extender.items = [.compound [y]]) (plain : y.argument? = none) :
    Yields (addRule r) s fun added s' =>
      Gains s s' (fun x z => (r.target == x) = true ∧ (y == z) = true) ∧
        (Extends s.extensions r.target y ∨ added = some r) ∧ (added = none ∨ added = some r) := by
  refine Yields.get_bind ?_
  cases found : (s.extensions.get? r.target).bind (·.get? r.extender) with
  | some existing =>
    obtain ⟨known, merged, hmerged, gains⟩ := h.exists_merge media hc plain found
    exact (Yields.ofOk (Q := fun e s' => e = merged ∧ s' = s) hmerged ⟨rfl, rfl⟩).bind
      fun e s' ⟨he, hs⟩ => Yields.modify_bind (.pure (by
        subst he hs
        exact ⟨gains, .inl known, .inl rfl⟩))
  | none =>
    refine Yields.modify_bind (.pure ⟨?_, .inr rfl, .inr rfl⟩)
    rw [simples_of_lone hc plain]
    have gains := h.addPair media hc plain
    exact (gains.trans (gains.isLone.gains_nothing _ _)).congr fun x z => or_iff_left not_false

/-- A derived rule adds its pair, and is passed on only if it is new and its target is among the
pending ones. -/
theorem addDerived_lone (h : IsLoneStore s) (pending : ExtensionMap) {r : ExtendRule} {y : Simple}
    (media : r.media = none) (hc : r.extender.items = [.compound [y]])
    (plain : y.argument? = none) :
    Yields (addDerived pending r) s fun added s' =>
      Gains s s' (fun x z => (r.target == x) = true ∧ (y == z) = true) ∧
        (Extends s.extensions r.target y ∨ pending.contains r.target = false → added = none) := by
  refine Yields.get_bind ?_
  cases found : (s.extensions.get? r.target).bind (·.get? r.extender) with
  | some existing =>
    obtain ⟨known, merged, hmerged, gains⟩ := h.exists_merge media hc plain found
    dsimp only
    split
    · exact .pure ⟨h.gains_known known, fun _ => rfl⟩
    · exact (Yields.ofOk (Q := fun e s' => e = merged ∧ s' = s) hmerged ⟨rfl, rfl⟩).bind
        fun e s' ⟨he, hs⟩ => Yields.modify_bind (.pure (by
          subst he hs
          exact ⟨gains, fun _ => rfl⟩))
  | none =>
    refine Yields.modify_bind (.pure ⟨?_, ?_⟩)
    · rw [show r.extender.compounds.flatten = [y] by simp [Complex.compounds, hc, Item.compound?]]
      exact h.addPair media hc plain
    · rintro (known | other)
      · rw [extends_iff_get? (beq_lone hc), found] at known
        cases known
      · simp [other]

/-! ## Extending extenders -/

/-- A run of extension that does not fail leaves the store but for its authored choices. -/
theorem extending_yields {α : Type} {extensions : ExtensionMap} {span : Span}
    {media : Option MediaContext} {step : ExtendContext → Extending α} {Q : α → Prop}
    (h : Yields (step ⟨s.mode, s.sources, extensions, media⟩) s.authored fun a _ => Q a) :
    Yields (Storing.extending extensions span media step) s fun a s' =>
      Q a ∧ ∃ authored, s' = { s with authored := authored } := by
  obtain ⟨a, authored, run, hQ⟩ := h
  refine (Yields.extending run).mono ?_
  rintro _ _ ⟨rfl, rfl⟩
  exact ⟨hQ, authored, rfl⟩

section Settle

variable {pending : ExtensionMap} {t : Simple}

theorem contains_concat_lone_iff {c : Complex} {y z : Simple} (hc : c.items = [.compound [y]])
    {l : List Complex} :
    (l ++ [c]).contains (lone z) = true ↔ l.contains (lone z) = true ∨ (y == z) = true := by
  rw [List.contains_append, Bool.or_eq_true, ← beq_lone_iff (beq_lone hc), BEq.comm]
  simp

/-- One rule with several extenders; none of the pairs is new if the target is being extended. -/
theorem mapM_addDerived_lone (h : IsLoneStore s) {r : ExtendRule} (media : r.media = none)
    {others : SelectorList} (hl : AreLone others)
    (settled : pending.contains r.target = true →
      ∀ y, others.contains (lone y) = true → Extends s.extensions r.target y) :
    Yields (others.mapM fun c => addDerived pending (r.withExtender c)) s fun added s' =>
      (∀ o ∈ added, o = none) ∧
        Gains s s' fun x z => (r.target == x) = true ∧ others.contains (lone z) = true := by
  refine Yields.mapM (I := fun before added s' => (∀ o ∈ added, o = none) ∧
    Gains s s' fun x z => (r.target == x) = true ∧ List.contains before (lone z) = true)
    (fun before c added s' hc ⟨idle, gains⟩ => ?_)
    ⟨by simp, h, rfl, rfl, fun x z => by simp⟩
  obtain ⟨y, hitems, plain⟩ := hl c hc
  have mem : others.contains (lone y) = true :=
    List.contains_iff_exists_mem_beq.2 ⟨c, hc, BEq.symm (beq_lone hitems)⟩
  refine (addDerived_lone (r := r.withExtender c) gains.isLone pending media hitems plain).mono
    fun o s'' ⟨gains', silent⟩ =>
      ⟨List.forall_mem_append.2 ⟨idle, ?_⟩, (gains.trans gains').congr ?_⟩
  · rw [List.forall_mem_singleton]
    apply silent
    cases target : pending.contains r.target with
    | false => exact .inr target
    | true => exact .inl ((gains.extends_iff _ _).2 (.inl (settled target y mem)))
  · intro x z
    rw [contains_concat_lone_iff hitems, and_or_left]
    rfl

/-- A rule whose extender is the target gets all pending extenders, and nothing is new about it. -/
theorem extendRule_lone (h : IsLoneStore s) (hp : AreLoneExtensions pending)
    (only : ∀ x, pending.contains x = true → (t == x) = true)
    (known : ∀ y, Extends pending t y → Extends s.extensions t y) {r : ExtendRule}
    (media : r.media = none) (hl : IsLone r.extender) (hrt : (r.extender == lone t) = true)
    (reached : Extends s.extensions r.target t) :
    Yields (extendRule pending r) s fun added s' => added = [] ∧
      Gains s s' fun x z => (r.target == x) = true ∧ Extends pending t z := by
  obtain ⟨t', ht', plain⟩ := hl
  have same : (t' == t) = true := (beq_lone_iff (beq_lone ht')).1 hrt
  refine (extending_yields (Q := fun found => found = (pending.get? t').map fun sources =>
    breakLines r.extender.lineBreak (withExtenders t' sources))
    (ExtendContext.extendComplexWith_lone h.mode hp ht' plain)).bind
      fun found s₁ ⟨hfound, authored, hs⟩ => ?_
  have gains₁ : Gains s s₁ fun _ _ => False := hs ▸ h.gains_nothing s.sources authored
  cases hsources : pending.get? t' with
  | none =>
    rw [hfound, hsources]
    refine .pure ⟨rfl, gains₁.congr fun x z => ?_⟩
    refine (iff_false_intro ?_).symm
    rintro ⟨-, sources, hs', -⟩
    rw [← pending.get?_congr same, hsources] at hs'
    cases hs'
  | some sources =>
    rw [hfound, hsources]
    refine Yields.get_bind ?_
    have target : s₁.extensions.contains r.target = true :=
      ((gains₁.extends_iff _ _).2 (.inl reached)).contains
    have keeps : (breakLines r.extender.lineBreak (withExtenders t' sources)).head?.any
        (· == r.extender) = true :=
      BEq.trans (beq_lone rfl) (BEq.symm (beq_lone ht'))
    have extending : ∀ y, (breakLines r.extender.lineBreak
        (sources.values.map Extension.extender)).contains (lone y) = true ↔
        Extends pending t y := by
      intro y
      rw [contains_breakLines, contains_extenders hp hsources]
      exact ⟨fun h => h.congr_left same, fun h => h.congr_left (BEq.symm same)⟩
    have lone : AreLone (breakLines r.extender.lineBreak (sources.values.map Extension.extender)) :=
      AreLone.breakLines (List.forall_mem_cons.1 (withExtenders_lone hp plain hsources)).2 _
    simp only [target, keeps, Bool.not_true, Bool.false_eq_true, if_false, if_true]
    refine (mapM_addDerived_lone gains₁.isLone media lone fun pended y hy =>
      (gains₁.extends_iff _ _).2
        (.inl ((known y ((extending y).1 hy)).congr_left (only _ pended)))).bind
        fun added s₂ ⟨idle, gains₂⟩ => .pure ⟨?_, (gains₁.trans gains₂).congr fun x z => ?_⟩
    · exact List.filterMap_eq_nil_iff.2 idle
    · rw [false_or]
      exact and_congr_right fun _ => extending z

/-- One round: all rules whose extender is the target get their pairs. -/
theorem mapM_extendRule_lone (h : IsLoneStore s) (hp : AreLoneExtensions pending)
    (only : ∀ x, pending.contains x = true → (t == x) = true)
    (known : ∀ y, Extends pending t y → Extends s.extensions t y) {rules : List ExtendRule}
    (hrules : ∀ r ∈ rules, r.media = none ∧ IsLone r.extender ∧ (r.extender == lone t) = true ∧
      Extends s.extensions r.target t) :
    Yields (rules.mapM (extendRule pending)) s fun added s' => (∀ o ∈ added, o = []) ∧
      Gains s s' fun x z => (∃ r ∈ rules, (r.target == x) = true) ∧ Extends pending t z := by
  refine Yields.mapM (I := fun before added s' => (∀ o ∈ added, o = []) ∧ Gains s s'
    fun x z => (∃ r : ExtendRule, r ∈ before ∧ (r.target == x) = true) ∧ Extends pending t z)
    (fun before r added s' hr ⟨idle, gains⟩ => ?_) ⟨by simp, h, rfl, rfl, fun x z => by simp⟩
  obtain ⟨media, hl, hrt, reached⟩ := hrules r hr
  have still : ∀ {x y}, Extends s.extensions x y → Extends s'.extensions x y := fun old =>
    (gains.extends_iff _ _).2 (.inl old)
  refine (extendRule_lone gains.isLone hp only (fun y hy => still (known y hy)) media hl hrt
    (still reached)).mono ?_
  rintro o s'' ⟨rfl, gains'⟩
  refine ⟨List.forall_mem_append.2 ⟨idle, List.forall_mem_singleton.2 rfl⟩,
    (gains.trans gains').congr fun x z => ?_⟩
  simp only [List.mem_append, List.mem_singleton, or_and_right, exists_or, exists_eq_left]

/-- **One round is enough**: the rules whose extender is the target have all their pairs after it,
and what it adds extends no target of the pending extensions. -/
theorem settle_lone (h : IsLoneStore s) (hp : AreLoneExtensions pending)
    (only : ∀ x, pending.contains x = true → (t == x) = true)
    (known : ∀ y, Extends pending t y → Extends s.extensions t y) {rules : List ExtendRule}
    (hrules : ∀ r ∈ rules, r.media = none ∧ IsLone r.extender ∧ (r.extender == lone t) = true ∧
      Extends s.extensions r.target t) :
    Yields (settle rules pending) s fun new s' => new = pending ∧
      Gains s s' fun x z => (∃ r ∈ rules, (r.target == x) = true) ∧ Extends pending t z := by
  refine Yields.get_bind ?_
  obtain ⟨n, hn⟩ := Nat.exists_eq_succ_of_ne_zero (Nat.pos_iff_ne_zero.1 h.rounds)
  rw [hn]
  cases rules with
  | nil => exact .pure ⟨rfl, h, rfl, rfl, fun x z => by simp⟩
  | cons r₀ rules =>
    refine (mapM_extendRule_lone h hp only known hrules).bind fun added s' ⟨idle, gains⟩ => ?_
    have empty : (mapOfRules added.flatten).isEmpty = true := by
      rw [List.flatten_eq_nil_iff.2 idle]
      rfl
    rw [if_pos empty]
    exact .pure ⟨rfl, gains⟩

end Settle

end Store

end SelectorAlgebra
