import Mathlib
import SelectorAlgebra.Proofs.CanonicalExtension
import SelectorAlgebra.Proofs.LoneUpdate
import SelectorAlgebra.Proofs.MediaFree
import SelectorAlgebra.Proofs.Repetition

/-!
# Proofs/Commutation — a rule and an extension in either order

* `rule_and_extension_commute` — from an empty store, a rule followed by an extension and the
  extension followed by the rule both succeed and leave equivalent selectors.

If the rule comes first, its selector is extended by the new rules, one for each pair.  If it comes
last, it is extended by all that the store holds by then, where rules for equivalent extenders have
been merged.  The two tables have the same faces (`Gathers`), so they extend alike.  Adding the
rules does not look at selectors, so its run is the same in both orders: it is described once, for
all stores `t` that share the extensions of a given one (`withExtensionsOf`).
-/

namespace SelectorAlgebra

/-! ## Tables of faces -/

namespace Store

variable {m : ExtensionMap} {t : Simple} {c : Complex} {e existing : Extension}

/-- Setting an extension sets its face. -/
theorem faces_setExtension (m : ExtensionMap) (t : Simple) (c : Complex) (e : Extension) :
    (setExtension m t c e).faces = setExtension m.faces t c e.face := by
  refine OrderedMap.mapValues_alter (fun old => ?_) m t
  rw [OrderedMap.mapValues_insert]
  cases old <;> rfl

/-- Setting an extension with the face that is there already leaves the table of faces. -/
theorem faces_setExtension_of_known (known : (m.get? t).bind (·.get? c) = some existing)
    (same : e.face = existing.face) : (setExtension m t c e).faces = m.faces := by
  obtain ⟨sources, hsources, hexisting⟩ := Option.bind_eq_some_iff.1 known
  have inner : (sources.insert c e).mapValues Extension.face = sources.mapValues Extension.face :=
    congrArg OrderedMap.mk (OrderedMap.map_entries_alter hexisting same)
  exact congrArg OrderedMap.mk (OrderedMap.map_entries_alter hsources inner)

theorem setExtension_insertNew (m : ExtensionMap) (t : Simple) (c : Complex) (e : Extension) :
    setExtension (m.insertNew t .empty) t c e = (setExtension m t c e).insertNew t .empty := by
  rw [setExtension, OrderedMap.insertNew, OrderedMap.alter_alter, setExtension,
    OrderedMap.insertNew, OrderedMap.alter_alter]
  rfl

end Store

/-! ## Rules for one target -/

namespace Extension

variable {e e' m : Extension} {r : ExtendRule} {target : Simple} {c c' : Complex} {span : Span}

/-- The extension makes `c` extend `target` everywhere, at the wish of a rule at `span`. -/
structure Serves (e : Extension) (target : Simple) (span : Span) (c : Complex) : Prop where
  extender : (e.extender == c) = true
  target : (e.target == target) = true
  span : e.asRule.span = span
  media : e.asRule.media = none

theorem Serves.congr (h : e.Serves target span c) (same : (c == c') = true) :
    e.Serves target span c' :=
  ⟨BEq.trans h.extender same, h.target, h.span, h.media⟩

/-- All that serve the same pair have one face. -/
theorem Serves.face_eq (h : e.Serves target span c) (h' : e'.Serves target span c) :
    e.face = e'.face := by
  have extender := Complex.beq_iff.1 (BEq.trans h.extender (BEq.symm h'.extender))
  rw [face, face, extender, h.span, h'.span, h.media, h'.media]

theorem Serves.merge (h : e.Serves target span c) (h' : e'.Serves target span c)
    (hm : e.merge e' = .ok m) : m.Serves target span c := by
  rcases merge_cases hm with ⟨-, rfl⟩ | ⟨-, -, rfl⟩ | ⟨-, -, rfl⟩
  · exact h
  · exact h'
  · refine ⟨h.extender, h.target, h.span, ?_⟩
    show e.asRule.media.or e'.asRule.media = none
    rw [h.media, h'.media, Option.or_none]

theorem serves_rule (media : r.media = none) : (rule r).Serves r.target r.span r.extender :=
  ⟨BEq.rfl, BEq.rfl, rfl, media⟩

/-- Merging a rule without media context never fails. -/
theorem Serves.exists_merge (h : e.Serves r.target r.span r.extender) (media : r.media = none) :
    ∃ m, e.merge (.rule r) = .ok m ∧ m.Serves r.target r.span r.extender := by
  have absorbs : e.Absorbs r := ⟨h.extender, h.target, by simp [media]⟩
  obtain ⟨m, hm⟩ := absorbs.exists_merge
  exact ⟨m, hm, h.merge (serves_rule media) hm⟩

end Extension

namespace Store

variable {s : Store} {target : Simple} {span : Span} {rules : List ExtendRule} {r : ExtendRule}

/-- The store with the extensions of another one, and what goes with them. -/
def withExtensionsOf (t s : Store) : Store :=
  { t with extensions := s.extensions, byExtender := s.byExtender, sources := s.sources }

/-- All extensions are of `target` and come from rules at `span`, of which `rules` are
the first for each pair. -/
structure Gathers (s : Store) (target : Simple) (span : Span) (rules : List ExtendRule) : Prop where
  -- the target has an entry from the start, the map of the rules has one from the first rule on
  faces : s.extensions.faces = ExtensionMap.faces ((mapOfRules rules).insertNew target .empty)
  serves : ∀ {c e}, s.extension? target c = some e → e.Serves target span c
  nonempty : ∀ {c e}, s.extension? target c = some e → rules ≠ []
  wished : ∀ r ∈ rules, (Extension.rule r).Serves target span r.extender

/-- A fresh store with room for the target has gathered nothing. -/
theorem gathers_fresh (mode : ExtendMode) (limit : ℕ) (target : Simple) (span : Span) :
    Gathers (ensureTarget (.empty mode limit) target) target span [] := by
  have nothing : ∀ c, (ensureTarget (.empty mode limit) target).extension? target c = none :=
    fun c => extension?_ensureTarget _ _ _ _
  refine ⟨rfl, fun {c e} known => ?_, fun {c e} known => ?_, List.forall_mem_nil _⟩
  all_goals
    rw [nothing] at known
    cases known

/-- The extension that is put in for a pair serves it, and the others serve theirs. -/
theorem Gathers.serves_put (h : s.Gathers r.target r.span rules) {e e' : Extension} {c : Complex}
    (serves : e.Serves r.target r.span r.extender)
    (known : (s.putExtension r.target r.extender e).extension? r.target c = some e') :
    e'.Serves r.target r.span c := by
  rw [extension?_putExtension] at known
  split at known
  · rename_i same
    rw [Bool.and_eq_true] at same
    obtain rfl := Option.some.inj known
    exact serves.congr same.2
  · exact h.serves known

theorem Gathers.merge (h : s.Gathers r.target r.span rules) {existing m : Extension}
    (known : s.extension? r.target r.extender = some existing)
    (serves : m.Serves r.target r.span r.extender) :
    (s.putExtension r.target r.extender m).Gathers r.target r.span rules := by
  have faces := faces_setExtension_of_known known (serves.face_eq (h.serves known))
  exact ⟨faces.trans h.faces, h.serves_put serves, fun _ => h.nonempty known, h.wished⟩

/-- A new extender gathers its rule. -/
theorem Gathers.put (h : s.Gathers r.target r.span rules) (media : r.media = none) :
    (s.putExtension r.target r.extender (.rule r)).Gathers r.target r.span (rules ++ [r]) := by
  have serves := Extension.serves_rule media
  refine ⟨?_, h.serves_put serves, fun _ => List.append_ne_nil_of_right_ne_nil _
    (List.cons_ne_nil r []),
    List.forall_mem_append.2 ⟨h.wished, List.forall_mem_singleton.2 serves⟩⟩
  rw [putExtension, faces_setExtension, h.faces, ← faces_setExtension, setExtension_insertNew,
    mapOfRules_concat]

/-- What a rule for a new extender does: it is put, indexed and noted. -/
theorem addRule_new (new : s.extension? r.target r.extender = none) : outcomeFrom (addRule r) s
    = (.ok (some r), ((s.putExtension r.target r.extender (.rule r)).indexRule r
      r.extender.simples).noteSources r.extender) := by
  rw [extension?] at new
  rw [addRule, outcomeFrom_get_bind, new]
  rfl

/-- **Adding one rule** succeeds in the same way whatever selectors there are. -/
theorem addRule_gathers (media : r.media = none) (h : s.Gathers r.target r.span rules) :
    ∃ found s', (∀ t : Store, outcomeFrom (addRule r) (t.withExtensionsOf s)
        = (.ok found, t.withExtensionsOf s')) ∧
      s'.Gathers r.target r.span (rules ++ found.toList) ∧ rules ++ found.toList ≠ [] := by
  cases known : s.extension? r.target r.extender with
  | some existing =>
    obtain ⟨m, hm, serves⟩ := (h.serves known).exists_merge media
    refine ⟨none, s.putExtension r.target r.extender m, fun t => ?_, ?_, ?_⟩
    · exact addRule_known (s := t.withExtensionsOf s) known hm
    · simpa using h.merge known serves
    · simpa using h.nonempty known
  | none =>
    refine ⟨some r, ((s.putExtension r.target r.extender (.rule r)).indexRule r
      r.extender.simples).noteSources r.extender, fun t => ?_, ?_, by simp⟩
    · exact addRule_new (s := t.withExtensionsOf s) known
    · have put := h.put media
      exact ⟨put.faces, put.serves, put.nonempty, put.wished⟩

/-- **Adding rules for one target**, one for each choice of an extender. -/
theorem addRules_gathers (rule : Complex → ExtendRule) (target_eq : ∀ c, (rule c).target = target)
    (span_eq : ∀ c, (rule c).span = span) (media : ∀ c, (rule c).media = none) :
    ∀ (choices : SelectorList) {s : Store} {rules : List ExtendRule}, s.Gathers target span rules →
      ∃ added s', (∀ t : Store, outcomeFrom (choices.mapM fun c => addRule (rule c))
          (t.withExtensionsOf s) = (.ok added, t.withExtensionsOf s')) ∧
        s'.Gathers target span (rules ++ added.filterMap id) ∧
        (choices ≠ [] → rules ++ added.filterMap id ≠ [])
  | [], s, rules, h => by
    refine ⟨[], s, fun t => ?_, by simpa using h, fun nonempty => absurd rfl nonempty⟩
    rw [List.mapM_nil]
    rfl
  | c :: choices, s, rules, h => by
    rw [← target_eq c, ← span_eq c] at h
    obtain ⟨found, s₁, first, h₁, nonempty⟩ := addRule_gathers (media c) h
    rw [target_eq c, span_eq c] at h₁
    obtain ⟨added, s₂, others, h₂, -⟩ := addRules_gathers rule target_eq span_eq media choices h₁
    have all : (found :: added).filterMap id = found.toList ++ added.filterMap id := by
      cases found <;> rfl
    rw [List.append_assoc, ← all] at h₂
    refine ⟨found :: added, s₂, fun t => ?_, h₂, fun _ => ?_⟩
    · rw [List.mapM_cons, outcomeFrom_bind, first]
      dsimp only
      rw [outcomeFrom_bind, others]
      rfl
    · rw [all, ← List.append_assoc]
      exact List.append_ne_nil_of_left_ne_nil nonempty _

/-! ## What is read off the tables -/

/-- The two tables extend alike. -/
theorem Gathers.canonical_eq (h : s.Gathers target span rules) (filled : rules ≠ [])
    (mode : ExtendMode) (sources : SourceSpecificity) (media : Option MediaContext) :
    ExtendContext.canonical ⟨mode, sources, s.extensions, media⟩
      = ExtendContext.canonical ⟨mode, sources, mapOfRules rules, media⟩ := by
  obtain ⟨r, hr⟩ := List.exists_mem_of_ne_nil rules filled
  have there : (mapOfRules rules).contains target = true :=
    contains_mapOfRules.2 ⟨r, hr, (h.wished r hr).target⟩
  rw [OrderedMap.contains_eq_isSome] at there
  obtain ⟨sources', found⟩ := Option.isSome_iff_exists.1 there
  have faces := h.faces
  rw [OrderedMap.insertNew, OrderedMap.alter_eq_self found rfl] at faces
  rw [ExtendContext.canonical, ExtendContext.canonical, faces]

theorem Gathers.isEmpty_eq_false (h : s.Gathers target span rules) :
    s.extensions.isEmpty = false := by
  have there := congrArg (OrderedMap.contains · target) h.faces
  simp only [OrderedMap.contains_mapValues, OrderedMap.insertNew, OrderedMap.contains_alter,
    BEq.rfl, Bool.true_or] at there
  by_contra bare
  rw [Bool.not_eq_false, OrderedMap.isEmpty, List.isEmpty_iff] at bare
  rw [OrderedMap.contains, bare] at there
  cases there

/-- The gathered rules have no other target. -/
theorem Gathers.contains_mapOfRules_eq_false (h : s.Gathers target span rules) {x : Simple}
    (other : (target == x) = false) : (mapOfRules rules).contains x = false := by
  by_contra there
  rw [Bool.not_eq_false, contains_mapOfRules] at there
  obtain ⟨r, hr, same⟩ := there
  rw [BEq.trans (BEq.symm (h.wished r hr).target) same] at other
  cases other

theorem exists_rule_of_mem_mapOfRules {entry : Simple × OrderedMap Complex Extension}
    {pair : Complex × Extension} (hentry : entry ∈ (mapOfRules rules).entries)
    (hpair : pair ∈ entry.2.entries) : ∃ r ∈ rules, pair.2 = .rule r := by
  induction rules using List.reverseRecOn generalizing entry with
  | nil => cases hentry
  | append_singleton rules r ih =>
    rw [mapOfRules_concat] at hentry
    rcases mem_setExtension hentry hpair with ⟨old, mem, -, hpair⟩ | ⟨-, -, value⟩
    · obtain ⟨r', hr', value⟩ := ih mem hpair
      exact ⟨r', List.mem_append_left _ hr', value⟩
    · exact ⟨r, List.mem_append_right _ (List.mem_singleton_self r), value⟩

/-- Extension by the gathered rules cannot fail a media check. -/
theorem Gathers.isMediaFree (h : s.Gathers target span rules) (mode : ExtendMode)
    (sources : SourceSpecificity) (media : Option MediaContext) :
    ExtendContext.IsMediaFree ⟨mode, sources, mapOfRules rules, media⟩ := by
  rintro e ⟨x, sources, found, he⟩
  obtain ⟨x', hentry, -⟩ := OrderedMap.exists_mem_of_get? found
  obtain ⟨pair, hpair, rfl⟩ := List.mem_map.1 he
  obtain ⟨r, hr, value⟩ := exists_rule_of_mem_mapOfRules hentry hpair
  rw [value]
  exact (h.wished r hr).media

/-! ## One rule in a store -/

/-- What an author wrote with a rule, unless it is invisible. -/
def authoredOf (l : SelectorList) : List Complex :=
  if l.isInvisible then [] else l.foldl addDistinct []

/-- The store of a style sheet with one rule. -/
def ofRule (mode : ExtendMode) (limit : ℕ) (l : SelectorList) (span : Span) : Store :=
  { empty mode limit with
    slots := [⟨l, span, none⟩], bySimple := register .empty l 0, authored := authoredOf l }

section Orders

variable {mode : ExtendMode} {limit : ℕ} {l : SelectorList} {found : Option SelectorList}
  {authored : List Complex} {new : ExtensionMap}

/-- The first selector of a store is stored as it is, there being nothing to extend it with. -/
theorem addSelector_empty : outcomeFrom (addSelector l span none) (.empty mode limit)
    = (.ok 0, ofRule mode limit l span) := by
  unfold addSelector ofRule authoredOf
  cases l.isInvisible <;> rfl

/-- A rule that comes after extensions. -/
theorem addSelector_yields (filled : s.extensions.isEmpty = false)
    (run : outcomeFrom (ExtendContext.extendList ⟨mode, s.sources, s.extensions, none⟩ l)
      (authoredOf l)
      = (.ok found, authored)) :
    Yields (addSelector l span none) ((empty mode limit).withExtensionsOf s) fun id s' =>
      id = 0 ∧ s'.selector? 0 = some (found.getD l) := by
  have placed : Yields (placeSelector l span none)
      { (empty mode limit).withExtensionsOf s with authored := authoredOf l } fun id s' =>
        id = 0 ∧ s'.selector? 0 = some (found.getD l) := by
    refine Yields.get_bind ?_
    rw [if_neg (by simpa [withExtensionsOf] using filled)]
    refine (Yields.extending run).bind ?_
    rintro _ _ ⟨rfl, rfl⟩
    exact Yields.modify_bind (.pure ⟨rfl, rfl⟩)
  rw [addSelector_eq]
  by_cases invisible : l.isInvisible = true
  · rw [authoredOf, if_pos invisible] at placed
    rw [if_pos invisible]
    exact placed
  · rw [authoredOf, if_neg invisible] at placed
    rw [if_neg invisible]
    exact Yields.modify_bind placed

/-- Extending the only rule. -/
theorem extendSelectors_yields (only : s.slots = [⟨l, span, none⟩])
    (run : outcomeFrom (ExtendContext.extendList ⟨s.mode, s.sources, new, none⟩ l) s.authored
      = (.ok found, authored)) :
    Yields (extendSelectors new [0]) s fun _ s' =>
      ∃ v, s'.selector? 0 = some v ∧ (v == found.getD l) = true := by
  refine Yields.bind (Q := fun _ s' => ∃ v, s'.selector? 0 = some v ∧ (v == found.getD l) = true) ?_
    fun _ _ h => .pure h
  refine Yields.get_bind ?_
  rw [only]
  dsimp only [List.getElem?_cons_zero]
  refine (Yields.extending run).bind ?_
  rintro _ _ ⟨rfl, rfl⟩
  have kept : { s with authored := authored }.selector? 0 = some l := by rw [selector?, only]; rfl
  split
  · exact .pure ⟨l, kept, BEq.rfl⟩
  · rename_i extended
    split
    · -- what is equivalent is not written back, so the two orders may leave different forms
      rename_i same
      exact .pure ⟨l, kept, SelectorList.beq_iff.2 (SelectorList.beq_iff.1 same).symm⟩
    · refine .modify ⟨extended, ?_, BEq.rfl⟩
      rw [selector?, setSelector, only]
      rfl

theorem settle_nil (new : ExtensionMap) :
    Yields (settle [] new) s fun new' s' => new' = new ∧ s' = s := by
  refine Yields.get_bind ?_
  unfold settleWithin
  exact .pure ⟨rfl, rfl⟩

section Call

variable {choices : SelectorList} {extenderSpan : Span} {optional : Bool} {t s₁ : Store}
  {added : List (Option ExtendRule)}

/-- An extension that reaches nothing is only kept. -/
theorem addExtension_unreached (rules : t.byExtender.get? target = none)
    (index : t.bySimple.contains target = false)
    (run : outcomeFrom ((choices.filter (!·.isUseless)).mapM fun c =>
      addRule (.written c extenderSpan target span none optional)) (t.ensureTarget target)
        = (.ok added, s₁)) :
    Yields (addExtension choices extenderSpan target span none optional) t fun _ s' => s' = s₁ := by
  have ran : Yields _ (t.ensureTarget target) fun added' s' => added' = added ∧ s' = s₁ :=
    ⟨added, s₁, run, rfl, rfl⟩
  refine Yields.get_bind (Yields.modify_bind (ran.bind ?_))
  rintro _ _ ⟨rfl, rfl⟩
  rw [rules, index]
  exact .pure rfl

/-- An extension that reaches selectors, and no rules, extends the selectors at once. -/
theorem addExtension_reached {Q : Unit → Store → Prop} (rules : t.byExtender.get? target = none)
    (index : t.bySimple.contains target = true)
    (run : outcomeFrom ((choices.filter (!·.isUseless)).mapM fun c =>
      addRule (.written c extenderSpan target span none optional)) (t.ensureTarget target)
        = (.ok added, s₁)) (new : added.filterMap id ≠ [])
    (extended : Yields (extendSelectors (mapOfRules (added.filterMap id))
      ((s₁.bySimple.get? target).getD [])) s₁ Q) :
    Yields (addExtension choices extenderSpan target span none optional) t Q := by
  have ran : Yields _ (t.ensureTarget target) fun added' s' => added' = added ∧ s' = s₁ :=
    ⟨added, s₁, run, rfl, rfl⟩
  refine Yields.get_bind (Yields.modify_bind (ran.bind ?_))
  rintro _ _ ⟨rfl, rfl⟩
  rw [rules, index, if_neg (by simp)]
  split
  · contradiction
  · refine (settle_nil _).bind ?_
    rintro _ _ ⟨rfl, rfl⟩
    exact Yields.get_bind extended

/-- A rule that comes before an extension of `target`. -/
theorem addExtension_ofRule {ruleSpan : Span}
    (run : ∀ t : Store, outcomeFrom ((choices.filter (!·.isUseless)).mapM fun c =>
      addRule (.written c extenderSpan target span none optional))
        (t.withExtensionsOf (ensureTarget (.empty mode limit) target))
        = (.ok added, t.withExtensionsOf s))
    (gathers : s.Gathers target span (added.filterMap id)) (new : added.filterMap id ≠ [])
    (extended : outcomeFrom (ExtendContext.extendList
      ⟨mode, s.sources, mapOfRules (added.filterMap id), none⟩ l) (authoredOf l)
        = (.ok found, authored)) :
    Yields (addExtension choices extenderSpan target span none optional)
      (ofRule mode limit l ruleSpan)
      fun _ s' => ∃ v, s'.selector? 0 = some v ∧ (v == found.getD l) = true := by
  have index : (register .empty l 0).get? target
      = if (SelectorList.simples l).contains target then some [0] else none :=
    get?_register .empty l 0 target
  by_cases mentioned : (SelectorList.simples l).contains target = true
  · rw [if_pos mentioned] at index
    refine addExtension_reached rfl (by rw [ofRule, OrderedMap.contains_eq_isSome, index]; rfl)
      (run _) new ?_
    rw [withExtensionsOf, ofRule, index]
    exact extendSelectors_yields rfl extended
  · -- the call stops early, and extending would have changed nothing
    rw [if_neg mentioned] at index
    have idle : ∀ x ∈ SelectorList.simples l, (mapOfRules (added.filterMap id)).contains x
        = false := by
      intro x hx
      refine gathers.contains_mapOfRules_eq_false (Bool.eq_false_iff.2 fun same => mentioned ?_)
      exact List.contains_iff_exists_mem_beq.2 ⟨x, hx, same⟩
    rw [ExtendContext.extendList_idle idle] at extended
    obtain rfl : none = found := Except.ok.inj (Prod.mk.inj extended).1
    refine (addExtension_unreached rfl (by rw [ofRule, OrderedMap.contains_eq_isSome, index]; rfl)
      (run (ofRule mode limit l ruleSpan))).mono ?_
    rintro _ _ rfl
    exact ⟨l, rfl, BEq.rfl⟩

end Call

/-- The two tables extend a selector to equivalent ones. -/
theorem Gathers.exists_extended (h : s.Gathers target span rules) (filled : rules ≠ [])
    (mode : ExtendMode) (sources : SourceSpecificity) (l : SelectorList) (authored : List Complex) :
    ∃ found found' authored₁ authored₂,
      outcomeFrom (ExtendContext.extendList ⟨mode, sources, mapOfRules rules, none⟩ l) authored
        = (.ok found, authored₁) ∧
      outcomeFrom (ExtendContext.extendList ⟨mode, sources, s.extensions, none⟩ l) authored
        = (.ok found', authored₂) ∧
      (found.getD l).map Complex.canonical = (found'.getD l).map Complex.canonical := by
  obtain ⟨found, authored₁, run, -⟩ :=
    ExtendContext.extendList_mediaFree (h.isMediaFree mode sources none) l authored
  have same := ExtendContext.extendList_congr (h.canonical_eq filled mode sources none) l authored
  rw [run] at same
  rcases run' : outcomeFrom (ExtendContext.extendList ⟨mode, sources, s.extensions, none⟩ l)
    authored with ⟨_ | found', authored₂⟩
  · rw [run'] at same
    cases same
  · rw [run'] at same
    refine ⟨found, found', authored₁, authored₂, run, rfl, ?_⟩
    have same := Except.ok.inj same
    cases found <;> cases found'
    · rfl
    · cases same
    · cases same
    · exact (Option.some.inj same).symm

end Orders

/-- **A rule and an extension commute.**  In an empty style sheet, let at least one choice of the
extender not be useless.  Adding the rule and then the extension, or the extension and then the
rule, succeeds, and the selector of the rule is the same up to equivalence. -/
theorem rule_and_extension_commute (mode : ExtendMode) (limit : ℕ) (l : SelectorList)
    (ruleSpan : Span) (extender : SelectorList) (extenderSpan : Span) (target : Simple)
    (span : Span) (optional : Bool) (useful : ∃ c ∈ extender, c.isUseless = false) :
    let rule := addSelector l ruleSpan none
    let extension := addExtension extender extenderSpan target span none optional
    ∃ s₁ s₂ v₁ v₂,
      outcomeFrom (do let id ← rule; extension; return id) (.empty mode limit) = (.ok 0, s₁) ∧
      outcomeFrom (do extension; rule) (.empty mode limit) = (.ok 0, s₂) ∧
      s₁.selector? 0 = some v₁ ∧ s₂.selector? 0 = some v₂ ∧ (v₁ == v₂) = true := by
  intro rule extension
  obtain ⟨added, s, run, gathers, nonempty⟩ := addRules_gathers
    (.written · extenderSpan target span none optional) (fun _ => rfl) (fun _ => rfl) (fun _ => rfl)
    (extender.filter (!·.isUseless)) (gathers_fresh mode limit target span)
  rw [List.nil_append] at gathers nonempty
  obtain ⟨c, hc, hu⟩ := useful
  replace nonempty := nonempty (List.ne_nil_of_mem (List.mem_filter.2 ⟨hc, by simpa using hu⟩))
  obtain ⟨found, found', authored₁, authored₂, extended, extended', same⟩ :=
    gathers.exists_extended nonempty mode s.sources l (authoredOf l)
  have first : Yields (do let id ← rule; extension; return id) (.empty mode limit) fun id s₁ =>
      id = 0 ∧ ∃ v, s₁.selector? 0 = some v ∧ (v == found.getD l) = true := by
    refine Yields.bind (Q := fun id s₁ => id = 0 ∧ s₁ = ofRule mode limit l ruleSpan)
      ⟨0, _, addSelector_empty, rfl, rfl⟩ ?_
    rintro _ _ ⟨rfl, rfl⟩
    exact (addExtension_ofRule run gathers nonempty extended).bind fun _ _ h => .pure ⟨rfl, h⟩
  have second : Yields (do extension; rule) (.empty mode limit) fun id s₂ =>
      id = 0 ∧ s₂.selector? 0 = some (found'.getD l) := by
    refine (addExtension_unreached rfl rfl (run (.empty mode limit))).bind ?_
    rintro _ _ rfl
    exact addSelector_yields gathers.isEmpty_eq_false extended'
  obtain ⟨_, s₁, run₁, rfl, v, hv, equal⟩ := first
  obtain ⟨_, s₂, run₂, rfl, hv'⟩ := second
  refine ⟨s₁, s₂, v, found'.getD l, run₁, run₂, hv, hv', SelectorList.beq_iff.2 ?_⟩
  exact (SelectorList.beq_iff.1 equal).trans same

/-- Of `> > .c`, `.b` and `.b` on a new line the first is useless and the last is merged into the
second.  They extend `.a` inside `:not(.a)`, before and after that rule. -/
theorem rule_and_extension_commute_merged :
    let negated (name : String) : Simple := .pseudo (.around "not" [.ofCompound [.className name]])
    let b : Complex := .ofCompound [.className "b"]
    let c : Complex := ⟨[.combinator .child, .combinator .child, .compound [.className "c"]], false⟩
    let extender : SelectorList := [c, b, { b with lineBreak := true }]
    let rule := addSelector [.ofCompound [negated "a"]] default none
    let extension := addExtension extender default (.className "a") default none false
    (∃ c ∈ extender, c.isUseless = false) ∧
      (outcomeFrom (do extension; rule) (.empty .normal 0)).2.selector? 0
        = some [.ofCompound [negated "a", negated "b"]] ∧
      ∃ s₁ s₂ v₁ v₂,
        outcomeFrom (do let id ← rule; extension; return id) (.empty .normal 0) = (.ok 0, s₁) ∧
        outcomeFrom (do extension; rule) (.empty .normal 0) = (.ok 0, s₂) ∧
        s₁.selector? 0 = some v₁ ∧ s₂.selector? 0 = some v₂ ∧ (v₁ == v₂) = true := by
  intro negated b c extender rule extension
  have useful : ∃ c ∈ extender, c.isUseless = false := by
    refine ⟨b, List.mem_cons_of_mem _ List.mem_cons_self, ?_⟩
    unfold b
    cbv
  refine ⟨useful, ?_, rule_and_extension_commute .normal 0 _ default extender default _
    default false useful⟩
  unfold extension rule extender c b negated
  cbv

end Store

end SelectorAlgebra
