import Mathlib
import SelectorAlgebra.Proofs.ExtenderIndex
import SelectorAlgebra.Proofs.Frame
import SelectorAlgebra.Proofs.Merging

/-!
# Proofs/Repetition — asking for the same extension again

* `repeated_extension_changes_nothing` — after a call that added an extension whose extenders
  do not mention the target, the same call succeeds and changes nothing but what is
  remembered of the rules.

The first call leaves every one of its pairs with an extension that **absorbs** the rule of the
call: merging the rule into it cannot fail.  Nothing later in that call undoes this.  A merge keeps
it, whatever is merged; and settling drops only rules whose extender mentions the target, since it
looks them up under the target (`IndexesOwn`).
-/

namespace SelectorAlgebra

/-! ## Extensions that absorb a rule -/

namespace Extension

variable {left right m e : Extension} {r : ExtendRule}

/-- The extension is one of the pair of `r`, and stands inside the media queries of `r` if there are
any. -/
structure Absorbs (e : Extension) (r : ExtendRule) : Prop where
  extender : (e.extender == r.extender) = true
  target : (e.target == r.target) = true
  media : ∀ queries, r.media = some queries → e.asRule.media = some queries

/-- An extension made of one rule absorbs it. -/
theorem absorbs_rule (r : ExtendRule) : (rule r).Absorbs r := ⟨BEq.rfl, BEq.rfl, fun _ h => h⟩

theorem media_eq_of_not_mediaConflict (free : left.mediaConflict right = false)
    {queries queries' : MediaContext} (hl : left.asRule.media = some queries)
    (hr : right.asRule.media = some queries') : queries = queries' := by
  rw [mediaConflict, hl, hr] at free
  simpa using free

/-- A rule with a media context is never idle. -/
theorem not_isIdle_of_media {queries : MediaContext} (h : e.asRule.media = some queries) :
    e.isIdle = false := by
  rw [isIdle, h, Option.isNone_some, Bool.and_false]

/-- The media queries of either side are those of the merged extension. -/
theorem media_of_merge (h : left.merge right = .ok m) {queries : MediaContext}
    (side : left.asRule.media = some queries ∨ right.asRule.media = some queries) :
    m.asRule.media = some queries := by
  have free := (alike_of_merge h).2.2
  rcases merge_cases h with ⟨idle, rfl⟩ | ⟨-, idle, rfl⟩ | ⟨-, -, rfl⟩
  · refine side.resolve_right fun hr => ?_
    rw [not_isIdle_of_media hr] at idle
    cases idle
  · refine side.resolve_left fun hl => ?_
    rw [not_isIdle_of_media hl] at idle
    cases idle
  · show left.asRule.media.or right.asRule.media = some queries
    rcases side with hl | hr
    · rw [hl, Option.some_or]
    · cases hl : left.asRule.media with
      | none => rw [Option.none_or, hr]
      | some queries' => rw [Option.some_or, media_eq_of_not_mediaConflict free hl hr]

/-- Once merged, a rule is absorbed. -/
theorem absorbs_of_merge (h : e.merge (.rule r) = .ok m) : m.Absorbs r :=
  ⟨(pair_of_merge h).1, (pair_of_merge h).2, fun _ hr => media_of_merge h (.inr hr)⟩

/-- **Merging keeps what was absorbed.** -/
theorem Absorbs.merge (absorbed : left.Absorbs r) (h : left.merge right = .ok m) : m.Absorbs r := by
  obtain ⟨extender, target, -⟩ := alike_of_merge h
  exact ⟨BEq.trans (pair_of_merge h).1 (BEq.trans (BEq.symm extender) absorbed.extender),
    BEq.trans (pair_of_merge h).2 (BEq.trans (BEq.symm target) absorbed.target),
    fun queries hr => media_of_merge h (.inl (absorbed.media queries hr))⟩

/-- **A rule that is absorbed can be merged again.** -/
theorem Absorbs.exists_merge (h : e.Absorbs r) : ∃ m, e.merge (.rule r) = .ok m := by
  refine exists_merge_of_alike h.extender h.target ?_
  unfold mediaConflict
  split
  · rename_i queries queries' he hr
    have same := (h.media queries' hr).symm.trans he
    simpa using (Option.some.inj same).symm
  · rfl

end Extension

/-! ## What the first call leaves -/

namespace Store

variable {s s' : Store} {target : Simple} {r : ExtendRule}

/-- The extension of the rule's pair absorbs the rule. -/
def Absorbed (s : Store) (r : ExtendRule) : Prop :=
  ∃ e, s.extension? r.target r.extender = some e ∧ e.Absorbs r

/-- Every rule that is listed under a condition has an extender that mentions it. -/
def IndexesOwn (s : Store) : Prop :=
  ∀ x, ∀ r ∈ (s.byExtender.get? x).getD [], r.extender.simples.contains x = true

theorem IndexesOwn.indexRule (h : IndexesOwn s) {conditions : List Simple}
    (own : conditions ⊆ r.extender.simples) : IndexesOwn (s.indexRule r conditions) := by
  intro x r' hr'
  rcases mem_rulesUnder_indexRule.1 hr' with old | ⟨listed, rfl⟩
  · exact h x r' old
  · obtain ⟨y, hy, same⟩ := List.contains_iff_exists_mem_beq.1 listed
    exact List.contains_iff_exists_mem_beq.2 ⟨y, own hy, same⟩

/-- Every change keeps the index to the extenders' own conditions. -/
theorem IndexesOwn.change (change : Change (fun _ _ => True) s s') (h : IndexesOwn s) :
    IndexesOwn s' := by
  cases change with
  | note | push | select | target | drop | merge | bring => exact h
  | write => exact IndexesOwn.indexRule (s := s.putExtension _ _ _) h (List.Subset.refl _)
  | derive => exact h.indexRule (topSimples_subset_simples _)

/-- So the index of every reachable store is kept to them. -/
theorem afterCalls_indexesOwn (mode : ExtendMode) (limit : ℕ) (calls : List Call) :
    IndexesOwn (afterCalls calls (.empty mode limit)) := by
  have reached : Reaches (fun _ _ => True) (.empty mode limit)
    (afterCalls calls (.empty mode limit)) :=
    afterCalls_reaches fun _ _ _ => trivial
  exact reached.keeps (fun _ _ => IndexesOwn.change) fun _ => List.forall_mem_nil _

/-- What a call that extends `target` keeps: targets, and absorbed rules unless their
extender mentions `target`. -/
structure Retains (target : Simple) (s s' : Store) : Prop where
  indexesOwn : s.IndexesOwn → s'.IndexesOwn
  targets : ∀ t, s.extensions.contains t = true → s'.extensions.contains t = true
  absorbed : ∀ r : ExtendRule, r.extender.simples.contains target = false → s.Absorbed r →
    s'.Absorbed r

instance reflRetains : Std.Refl (Retains target) := ⟨fun _ => ⟨id, fun _ => id, fun _ _ => id⟩⟩

instance isTransRetains : IsTrans Store (Retains target) :=
  ⟨fun _ _ _ first second => ⟨second.indexesOwn ∘ first.indexesOwn,
    fun t => second.targets t ∘ first.targets t,
    fun r free => second.absorbed r free ∘ first.absorbed r free⟩⟩

theorem absorbed_of_extensions (same : s'.extensions = s.extensions) (h : s.Absorbed r) :
    s'.Absorbed r := by
  rwa [Absorbed, extension?, same]

/-- A change to neither the extensions nor the index. -/
theorem retains_of_eq (extensions : s'.extensions = s.extensions)
    (index : s'.byExtender = s.byExtender) : Retains target s s' :=
  ⟨fun own => by rwa [IndexesOwn, index], fun t h => extensions ▸ h,
    fun _ _ => absorbed_of_extensions extensions⟩

theorem contains_putExtension {t t' : Simple} {c : Complex} {e : Extension}
    (h : s.extensions.contains t = true) :
    (s.putExtension t' c e).extensions.contains t = true := by
  rw [putExtension, setExtension, OrderedMap.contains_alter, h, Bool.or_true]

/-- Merging something else forgets no absorbed rule. -/
theorem absorbed_merge {t : Simple} {c : Complex} {existing e merged : Extension}
    (known : s.extension? t c = some existing) (h : existing.merge e = .ok merged)
    (absorbed : s.Absorbed r) : (s.putExtension t c merged).Absorbed r := by
  obtain ⟨e', he', absorbs⟩ := absorbed
  rw [Absorbed, extension?_putExtension]
  split
  · rename_i same
    rw [Bool.and_eq_true] at same
    rw [← extension?_congr s same.1 same.2, known] at he'
    obtain rfl := Option.some.inj he'
    exact ⟨merged, rfl, absorbs.merge h⟩
  · exact ⟨e', he', absorbs⟩

/-- So merging retains. -/
theorem retains_merge {t : Simple} {c : Complex} {existing e merged : Extension}
    (known : s.extension? t c = some existing) (h : existing.merge e = .ok merged) :
    Retains target s (s.putExtension t c merged) :=
  ⟨IndexesOwn.change (.merge known h), fun _ => contains_putExtension,
    fun _ _ => absorbed_merge known h⟩

/-- A new pair is no pair of an absorbed rule. -/
theorem absorbed_put_new {t : Simple} {c : Complex} (new : s.extension? t c = none) (e : Extension)
    (h : s.Absorbed r) : (s.putExtension t c e).Absorbed r := by
  obtain ⟨e', he', absorbs⟩ := h
  rw [Absorbed, extension?_putExtension]
  split
  · rename_i same
    rw [Bool.and_eq_true] at same
    rw [← extension?_congr s same.1 same.2, new] at he'
    cases he'
  · exact ⟨e', he', absorbs⟩

/-- An extension that absorbs a rule, put in the rule's place. -/
theorem absorbed_putExtension (s : Store) (r : ExtendRule) {e : Extension} (h : e.Absorbs r) :
    (s.putExtension r.target r.extender e).Absorbed r := by
  refine ⟨e, ?_, h⟩
  rw [extension?_putExtension, if_pos]
  simp

/-- Adding a rule makes it absorbed. -/
theorem addRule_retains (r : ExtendRule) :
    Ensures (Retains target) (addRule r) s fun _ s' => s'.Absorbed r := by
  refine Ensures.get_bind ?_
  split
  · rename_i existing known
    refine (Ensures.ofExcept (Q := fun merged s' => existing.merge (.rule r) = .ok merged ∧ s' = s)
      fun merged h => ⟨h, rfl⟩).bind fun merged s' _ ⟨h, hs⟩ => ?_
    subst hs
    exact .modify_pure (retains_merge known h)
      (absorbed_putExtension s' r (Extension.absorbs_of_merge h))
  · rename_i new
    refine .modify_pure ⟨fun own => ?_, fun t => contains_putExtension, fun r' _ h => ?_⟩ ?_
    · exact IndexesOwn.change (.note _ _ s.authored) (IndexesOwn.change (.write new) own)
    · exact absorbed_of_extensions rfl (absorbed_put_new new (.rule r) h)
    · exact absorbed_of_extensions rfl (absorbed_putExtension s r (Extension.absorbs_rule r))

theorem contains_dropExtension {t t' : Simple} {c : Complex} (h : s.extensions.contains t = true) :
    (s.dropExtension t' c).extensions.contains t = true := by
  rw [dropExtension, OrderedMap.contains_alter, h, Bool.or_true]

theorem extension?_dropExtension_of_ne {t t' : Simple} {c c' : Complex} (h : (c == c') = false) :
    (s.dropExtension t c).extension? t' c' = s.extension? t' c' := by
  rw [extension?, dropExtension, OrderedMap.get?_alter]
  split
  · rename_i same
    rw [extension?, ← s.extensions.get?_congr same, Option.bind_some,
      OrderedMap.get?_erase_of_ne _ h]
    cases s.extensions.get? t with
    | none => rfl
    | some sources => rfl
  · rfl

/-- The extenders that mention a condition. -/
abbrev Mentioning (target : Simple) (_ : Simple) (c : Complex) : Prop :=
  c.simples.contains target = true

/-- **A step of settling retains all it should**, as long as it drops only pairs whose
extender mentions the target. -/
theorem Rewrite.retains (step : Rewrite (Mentioning target) s s') : Retains target s s' := by
  cases step with
  | note authored => exact retains_of_eq rfl rfl
  | merge known h => exact retains_merge known h
  | derive new =>
    exact ⟨IndexesOwn.change (.derive new), fun t => contains_putExtension,
      fun r _ h => absorbed_put_new new _ (absorbed_of_extensions rfl h)⟩
  | drop mentions =>
    refine ⟨id, fun t => contains_dropExtension, fun r free absorbed => ?_⟩
    obtain ⟨e, he, absorbs⟩ := absorbed
    refine ⟨e, ?_, absorbs⟩
    rw [extension?_dropExtension_of_ne, he]
    by_contra same
    rw [Bool.not_eq_false] at same
    rw [(contains_simples_congr same target).1 mentions] at free
    cases free

/-- Rewritten extenders retain, step by step. -/
theorem Rewrites.retains (h : Rewrites (Mentioning target) s s') : Retains target s s' := by
  induction h with
  | refl => exact Std.Refl.refl s
  | tail _ step ih => exact IsTrans.trans _ _ _ ih step.retains

/-- Rules that are listed under the target mention it. -/
theorem IndexesOwn.mentioning (own : IndexesOwn s) {x : Simple} (same : (target == x) = true) :
    ∀ r ∈ (s.byExtender.get? x).getD [], Mentioning target r.target r.extender := by
  intro r hr
  obtain ⟨y, hy, equal⟩ := List.contains_iff_exists_mem_beq.1 (own x r hr)
  exact List.contains_iff_exists_mem_beq.2 ⟨y, hy, BEq.trans same equal⟩

/-- Settling rewrites only extenders that mention the target. -/
theorem settle_retains (own : IndexesOwn s) {rules : List ExtendRule} {new : ExtensionMap}
    (hrules : ∀ r ∈ rules, Mentioning target r.target r.extender)
    (hnew : ∀ x, new.contains x = true → (target == x) = true) :
    Ensures (Retains target) (settle rules new) s fun _ _ => True :=
  ((settle_rewrites (Mentioning target) (fun x => (target == x) = true) hrules hnew
    fun _ reached _ same => ((Rewrites.retains reached).indexesOwn own).mentioning same).weaken
      fun _ => Rewrites.retains).mono fun _ _ _ _ => trivial

/-- Extending slots does not touch the table. -/
theorem extendSelectors_retains (new : ExtensionMap) (ids : List ℕ) :
    Ensures (Retains target) (extendSelectors new ids) s fun _ _ => True := by
  refine Ensures.forM fun id _ s' _ => Ensures.get_bind ?_
  split
  · exact .pure trivial
  refine (Ensures.extending (Q := fun _ _ => True) (retains_of_eq rfl rfl)
    fun _ _ _ => trivial).bind fun found s'' _ _ => ?_
  split
  · exact .pure trivial
  split
  · exact .pure trivial
  · exact .modify (retains_of_eq rfl rfl) trivial

section Call

variable (choices : SelectorList) (extenderSpan span : Span) (media : Option MediaContext)
  (optional : Bool)

/-- **What a call leaves that succeeds**: the target has an entry, and the rules of the call are
absorbed. -/
theorem addExtension_absorbs (own : IndexesOwn s)
    (free : ∀ c ∈ choices, c.simples.contains target = false) :
    Ensures (Retains target) (addExtension choices extenderSpan target span media optional) s
      fun _ s' => s'.extensions.contains target = true ∧ ∀ c ∈ choices.filter (!·.isUseless),
        s'.Absorbed (.written c extenderSpan target span media optional) := by
  have ensured : Retains target s (s.ensureTarget target) := by
    refine ⟨IndexesOwn.change (.target s target), fun t h => ?_, fun r _ h => ?_⟩
    · rw [ensureTarget, OrderedMap.insertNew, OrderedMap.contains_alter, h, Bool.or_true]
    · rwa [Absorbed, extension?_ensureTarget]
  have entry : (s.ensureTarget target).extensions.contains target = true := by
    rw [ensureTarget, OrderedMap.insertNew, OrderedMap.contains_alter, BEq.rfl, Bool.true_or]
  have keeps : ∀ c ∈ choices.filter (!·.isUseless), ∀ s s', Retains target s s' →
      s.Absorbed (.written c extenderSpan target span media optional) →
      s'.Absorbed (.written c extenderSpan target span media optional) := fun c hc s s' retains =>
    retains.absorbed _ (free c (List.mem_of_mem_filter hc))
  refine Ensures.get_bind (.modify_bind ensured ?_)
  refine ((Ensures.mapM_each keeps fun c _ s' _ => addRule_retains _).and
    (@addRules_spares (fun _ => True) _ (.written · extenderSpan target span media optional) target
      (fun _ => rfl) _)).bind ?_
  rintro added s₁ retains ⟨absorbed, targets⟩
  have done := And.intro (retains.targets target entry) absorbed
  split
  · exact .pure done
  split
  · exact .pure done
  have own₁ := retains.indexesOwn (ensured.indexesOwn own)
  refine (settle_retains own₁ (own.mentioning BEq.rfl) targets).bind fun new s₂ retains₂ _ =>
    Ensures.get_bind ?_
  refine (extendSelectors_retains _ _).mono fun _ s₃ retains₃ _ => ?_
  have later : Retains target s₁ s₃ := IsTrans.trans _ _ _ retains₂ retains₃
  exact ⟨later.targets target done.1, fun c hc => keeps c hc s₁ s₃ later (absorbed c hc)⟩

/-! ## The second call -/

/-- The targets with their extenders. -/
def pairs (s : Store) : List (Simple × List Complex) :=
  s.extensions.entries.map fun entry => (entry.1, entry.2.keys)

/-- The two stores differ in nothing but the extensions of their pairs. -/
structure HasSamePairs (s s' : Store) : Prop where
  others : s' = { s with extensions := s'.extensions }
  pairs : s'.pairs = s.pairs

theorem ensureTarget_of_contains (h : s.extensions.contains target = true) :
    s.ensureTarget target = s := by
  rw [OrderedMap.contains_eq_isSome] at h
  obtain ⟨sources, found⟩ := Option.isSome_iff_exists.1 h
  rw [ensureTarget, OrderedMap.insertNew, OrderedMap.alter_eq_self found rfl]

/-- An extension put in a known place brings no new pair. -/
theorem pairs_putExtension {t : Simple} {c : Complex} {existing : Extension}
    (known : s.extension? t c = some existing) (e : Extension) :
    (s.putExtension t c e).pairs = s.pairs := by
  obtain ⟨sources, hsources, hexisting⟩ := Option.bind_eq_some_iff.1 known
  exact OrderedMap.map_entries_alter hsources (OrderedMap.keys_alter_of_get? hexisting)

/-- A rule for a known extender is merged, and nothing is passed on. -/
theorem addRule_known {existing merged : Extension}
    (known : s.extension? r.target r.extender = some existing)
    (h : existing.merge (.rule r) = .ok merged) :
    outcomeFrom (addRule r) s = (.ok none, s.putExtension r.target r.extender merged) := by
  rw [extension?] at known
  rw [addRule, outcomeFrom_get_bind, known]
  dsimp only
  rw [h]
  rfl

/-- Adding an absorbed rule again changes its extension and returns nothing. -/
theorem addRule_again (h : s.Absorbed r) : Yields (addRule r) s fun found s' =>
    found = none ∧ HasSamePairs s s' ∧ ∀ r', s.Absorbed r' → s'.Absorbed r' := by
  obtain ⟨e, known, absorbs⟩ := h
  obtain ⟨merged, hm⟩ := absorbs.exists_merge
  exact ⟨none, _, addRule_known known hm, rfl, ⟨rfl, pairs_putExtension known merged⟩,
    fun r' => absorbed_merge known hm⟩

/-- **A call whose rules are all absorbed** changes extensions and nothing else. -/
theorem addExtension_again (entry : s.extensions.contains target = true)
    (absorbed : ∀ c ∈ choices.filter (!·.isUseless),
      s.Absorbed (.written c extenderSpan target span media optional)) :
    Yields (addExtension choices extenderSpan target span media optional) s fun _ s' =>
      HasSamePairs s s' := by
  refine Yields.get_bind (Yields.modify_bind ?_)
  rw [ensureTarget_of_contains entry]
  refine (Yields.mapM (I := fun _ added s' => (∀ found ∈ added, found = none) ∧ HasSamePairs s s' ∧
    ∀ r, s.Absorbed r → s'.Absorbed r) (fun _ c added s' hc done => ?_) ?_).bind
      fun added s' done => ?_
  · obtain ⟨untouched, same, keeps⟩ := done
    refine (addRule_again (keeps _ (absorbed c hc))).mono fun found s'' ⟨hfound, same', keeps'⟩ =>
      ⟨?_, ⟨?_, ?_⟩, fun r hr => keeps' r (keeps r hr)⟩
    · rw [List.forall_mem_append, List.forall_mem_singleton]
      exact ⟨untouched, hfound⟩
    · rw [same'.others, same.others]
    · rw [same'.pairs, same.pairs]
  · exact ⟨List.forall_mem_nil _, ⟨rfl, rfl⟩, fun _ => id⟩
  · have nothing : added.filterMap id = [] := by
      rw [List.filterMap_eq_nil_iff]
      exact done.1
    split
    · exact .pure done.2.1
    · rw [nothing]
      exact .pure done.2.1

end Call

/-! ## Every reachable store -/

theorem contains_simples_of_not_mentions {choices : SelectorList}
    (free : ¬ choices.Mentions target) :
    ∀ c ∈ choices, c.simples.contains target = false := by
  intro c hc
  by_contra mentions
  rw [Bool.not_eq_false, List.contains_iff_exists_mem_beq] at mentions
  obtain ⟨x, hx, same⟩ := mentions
  refine free (mentions_iff.2 (List.contains_iff_exists_mem_beq.2 ⟨x, ?_, same⟩))
  rw [SelectorList.simples, simplesOfList_eq_flatMap]
  exact List.mem_flatMap.2 ⟨c, hc, hx⟩

/-- **Asking again changes nothing.**  In a store that any calls have reached, let a call add an
extension whose extenders mention the target nowhere, and succeed.  Then the same call succeeds
again, and leaves all selectors, both indexes, the source specificities and the author-written
selectors, and the targets with their extenders. -/
theorem repeated_extension_changes_nothing (mode : ExtendMode) (limit : ℕ) (calls : List Call)
    (choices : SelectorList) (extenderSpan : Span) (target : Simple) (span : Span)
    (media : Option MediaContext) (optional : Bool) {s : Store} (free : ¬ choices.Mentions target)
    (first : outcomeFrom (addExtension choices extenderSpan target span media optional)
      (afterCalls calls (.empty mode limit)) = (.ok (), s)) :
    ∃ s', outcomeFrom (addExtension choices extenderSpan target span media optional) s
      = (.ok (), s') ∧
      (∀ id, s'.selector? id = s.selector? id) ∧ s'.bySimple = s.bySimple ∧
      s'.byExtender = s.byExtender ∧ s'.sources = s.sources ∧ s'.authored = s.authored ∧
      s'.pairs = s.pairs := by
  have left := (addExtension_absorbs choices extenderSpan span media optional
    (afterCalls_indexesOwn mode limit calls) (contains_simples_of_not_mentions free)).2 ()
  rw [first] at left
  obtain ⟨entry, absorbed⟩ := left rfl
  obtain ⟨⟨⟩, s', second, same⟩ :=
    addExtension_again choices extenderSpan span media optional entry absorbed
  refine ⟨s', second, fun id => ?_, ?_, ?_, ?_, ?_, same.pairs⟩
  all_goals rw [same.others]
  rfl

/-- `.c` was asked to extend `.a`, optionally; then `.c` and `.d` are.  The first call
merges the one rule, and finds by the other that `.d` extends `.b` as well; the second
one is the same again. -/
theorem repeated_extension_changes_nothing_chain :
    let a : Complex := .ofCompound [.className "a"]
    let b : Complex := .ofCompound [.className "b"]
    let c : Complex := .ofCompound [.className "c"]
    let d : Complex := .ofCompound [.className "d"]
    let calls : List Call := [.addSelector [b] default none,
      .addExtension [a] default (.className "b") default none false,
      .addExtension [c] default (.className "a") default none true]
    let call := addExtension [c, d] default (.className "a") default none false
    let s := (outcomeFrom call (afterCalls calls (.empty .normal 5))).2
    ¬ SelectorList.Mentions [c, d] (.className "a") ∧
      outcomeFrom call (afterCalls calls (.empty .normal 5)) = (.ok (), s) ∧
      s.pairs = [(.className "b", [a, c, d]), (.className "a", [c, d])] ∧
      ∃ s', outcomeFrom call s = (.ok (), s') ∧ (∀ id, s'.selector? id = s.selector? id) ∧
        s'.bySimple = s.bySimple ∧ s'.byExtender = s.byExtender ∧ s'.sources = s.sources ∧
        s'.authored = s.authored ∧ s'.pairs = s.pairs := by
  intro a b c d calls call s
  have free : ¬ SelectorList.Mentions [c, d] (.className "a") := by
    rw [mentions_iff, Bool.not_eq_true]
    unfold c d
    cbv
  have ok : (outcomeFrom call (afterCalls calls (.empty .normal 5))).1 = .ok () := by
    unfold call calls a b c d
    cbv
  have first : outcomeFrom call (afterCalls calls (.empty .normal 5)) = (.ok (), s) := by
    rw [← ok]
  have pairs : s.pairs = [(.className "b", [a, c, d]), (.className "a", [c, d])] := by
    unfold s call calls a b c d
    cbv
  exact ⟨free, first, pairs, repeated_extension_changes_nothing .normal 5 calls
    [c, d] default _ default none false free first⟩

end Store

end SelectorAlgebra
