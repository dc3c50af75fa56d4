import SelectorAlgebra.Proofs.Cover
import SelectorAlgebra.Proofs.Merging
import SelectorAlgebra.Proofs.Retention
import SelectorAlgebra.Proofs.Tables

/-!
# Proofs/LoneSelectors — extending selectors of one condition

A lone selector is one compound of one condition without selector argument.  If all extenders are
lone selectors too, outside of media queries, then extending is about sets of conditions:

* `extendComplexWith_lone` — a lone selector becomes itself and the extenders of its condition;
* `extendListWith_lone` — a list of lone selectors becomes the conditions of the list and all that
  extend one of them.

The engine is that a lone selector is above no other one but its own copies, so trimming changes no
set.  Sets of conditions are sets up to equivalence: a list has the condition `x` if it contains the
selector `lone x`, and a map extends `x` by `y` if it has the extender `lone y` under `x`.
-/

namespace SelectorAlgebra

/-! ## Lone selectors -/

/-- The selector of a single condition. -/
def lone (x : Simple) : Complex := .ofCompound [x]

/-- The selector is a single condition without selector argument. -/
def IsLone (c : Complex) : Prop := ∃ x, c.items = [.compound [x]] ∧ x.argument? = none

/-- All selectors of the list are single conditions without selector argument. -/
def AreLone (l : SelectorList) : Prop := ∀ c ∈ l, IsLone c

theorem beq_lone {c : Complex} {x : Simple} (h : c.items = [.compound [x]]) :
    (c == lone x) = true :=
  Complex.beq_iff.2 (congrArg (fun row => Complex.mk (canonicalItems row) false) h)

theorem lone_beq_lone (x y : Simple) : (lone x == lone y) = (x == y) := by
  rw [Bool.eq_iff_iff, Complex.beq_iff, Simple.beq_iff]
  simp [lone, Complex.canonical, Complex.ofCompound, canonicalItems, canonicalCompound]

/-- Being lone does not see what equality ignores. -/
theorem IsLone.congr {c d : Complex} (h : IsLone c) (same : (c == d) = true) : IsLone d := by
  obtain ⟨x, hx, plain⟩ := h
  have heq : canonicalItems d.items = [.compound [x.canonical]] := by
    have := congrArg Complex.items (Complex.beq_iff.1 same)
    rw [Complex.canonical, Complex.canonical, hx] at this
    exact this.symm
  obtain ⟨y, hy⟩ : ∃ y, d.items = [.compound [y]] := by
    rcases hd : d.items with _ | ⟨_ | _, _ | ⟨_ | _, _⟩⟩ <;>
      simp [hd, canonicalItems, canonicalCompound_eq_map, List.map_eq_singleton_iff] at heq ⊢
    obtain ⟨y, rfl, -⟩ := heq
    exact ⟨y, rfl⟩
  refine ⟨y, hy, ?_⟩
  have hxy : y.canonical = x.canonical := by
    simpa [hy, canonicalItems, canonicalCompound] using heq
  rw [← Option.isNone_iff_eq_none, ← Simple.argument?_canonical, hxy, Simple.argument?_canonical,
    plain]
  rfl

/-- A lone selector gives way only to its own copies. -/
theorem beq_of_dominatedBy {sources : SourceSpecificity} {c d : Complex} (hc : IsLone c)
    (hd : IsLone d) (h : c.dominatedBy sources d = true) : (c == d) = true := by
  obtain ⟨x, hx, hx'⟩ := hc
  obtain ⟨y, hy, hy'⟩ := hd
  have covered : Compound.isSuperselector [y] [x] = true := by
    rw [Complex.dominatedBy, Bool.and_eq_true, Complex.isSuperselector, hx, hy,
      itemsSuperselector_compound] at h
    exact h.2
  have met : y.metBy [x] = true := by
    rw [Compound.isSuperselector, covers, Bool.and_eq_true, List.all_eq_true] at covered
    rw [← Simple.metBehind_eq_metBy hy' [x] []]
    exact covered.1 y (List.mem_singleton_self y)
  have same : (y == x) = true := by
    simpa using (y.metBy_eq_contains (c := [x]) (by simpa using hx')).symm.trans met
  rw [← lone_beq_lone] at same
  exact BEq.trans (beq_lone hx) (BEq.trans (BEq.symm same) (BEq.symm (beq_lone hy)))

/-! ## Extensions by lone selectors -/

/-- The extension is by a lone selector, holds everywhere, and stands under its own target and
extender. -/
structure IsLoneExtension (target : Simple) (extender : Complex) (e : Extension) : Prop where
  media : e.asRule.media = none
  sameExtender : (e.extender == extender) = true
  sameTarget : (e.target == target) = true
  lone : IsLone extender

/-- Being an extension by a lone selector does not see what equality ignores. -/
theorem IsLoneExtension.congr {t t' : Simple} {c c' : Complex} {e : Extension}
    (h : IsLoneExtension t c e) (ht : (t == t') = true) (hc : (c == c') = true) :
    IsLoneExtension t' c' e :=
  ⟨h.media, BEq.trans h.sameExtender hc, BEq.trans h.sameTarget ht, h.lone.congr hc⟩

/-- Two extensions of one pair can always be merged, outside of media queries. -/
theorem IsLoneExtension.exists_merge {t : Simple} {c : Complex} {e e' : Extension}
    (h : IsLoneExtension t c e) (h' : IsLoneExtension t c e') :
    ∃ merged, e.merge e' = .ok merged ∧ IsLoneExtension t c merged := by
  obtain ⟨merged, hm⟩ := Extension.exists_merge_of_alike
    (BEq.trans h.sameExtender (BEq.symm h'.sameExtender))
    (BEq.trans h.sameTarget (BEq.symm h'.sameTarget)) (by rw [Extension.mediaConflict, h.media])
  refine ⟨merged, hm, ?_⟩
  rcases Extension.merge_cases hm with ⟨-, rfl⟩ | ⟨-, -, rfl⟩ | ⟨-, -, rfl⟩
  · exact h
  · exact h'
  · refine ⟨?_, h.sameExtender, h.sameTarget, h.lone⟩
    simp [Extension.asRule, h.media, h'.media]

/-- All extensions of the map are by lone selectors. -/
def AreLoneExtensions (m : ExtensionMap) : Prop :=
  ∀ entry ∈ m.entries, ∀ e ∈ entry.2.entries, IsLoneExtension entry.1 e.1 e.2

/-- The map extends `x` by the lone selector `y`. -/
def Extends (m : ExtensionMap) (x y : Simple) : Prop :=
  ∃ sources, m.get? x = some sources ∧ sources.contains (lone y) = true

section Extends

variable {m : ExtensionMap} {x x' y y' : Simple}

theorem contains_lone_congr {l : SelectorList} (h : (y == y') = true) :
    l.contains (lone y) = l.contains (lone y') :=
  List.contains_congr (by rwa [lone_beq_lone])

/-- Extending does not depend on how the target is written. -/
theorem Extends.congr_left (h : Extends m x y) (hx : (x == x') = true) : Extends m x' y := by
  obtain ⟨sources, hs, hy⟩ := h
  exact ⟨sources, by rwa [← m.get?_congr hx], hy⟩

/-- Nor on how the extender is written. -/
theorem Extends.congr_right (h : Extends m x y) (hy : (y == y') = true) : Extends m x y' := by
  obtain ⟨sources, hs, h⟩ := h
  refine ⟨sources, hs, ?_⟩
  rw [OrderedMap.contains_eq_isSome] at h ⊢
  rwa [← sources.get?_congr (by rwa [lone_beq_lone])]

theorem Extends.contains (h : Extends m x y) : m.contains x = true := by
  obtain ⟨sources, hs, -⟩ := h
  rw [OrderedMap.contains_eq_isSome, hs]
  rfl

theorem not_extends_empty : ¬ Extends .empty x y := by
  rintro ⟨_, ⟨⟩, _⟩

/-- The extension that a look-up finds. -/
theorem AreLoneExtensions.get? (hm : AreLoneExtensions m) {sources : OrderedMap Complex Extension}
    (hs : m.get? x = some sources) {c : Complex} {e : Extension} (he : sources.get? c = some e) :
    IsLoneExtension x c e := by
  obtain ⟨x', mem, hx⟩ := OrderedMap.exists_mem_of_get? hs
  obtain ⟨c', mem', hc⟩ := OrderedMap.exists_mem_of_get? he
  exact (hm _ mem _ mem').congr hx hc

end Extends

/-! ## Extending a lone selector -/

/-- A lone selector and the extenders of its condition. -/
def withExtenders (x : Simple) (sources : OrderedMap Complex Extension) : List Complex :=
  lone x :: sources.values.map Extension.extender

/-- The same selectors behind a new line, if there is one. -/
def breakLines (lineBreak : Bool) (l : List Complex) : List Complex :=
  l.map fun c => ⟨c.items, lineBreak || c.lineBreak⟩

/-- One compound with its choices weaves to the choices. -/
theorem weaveChoices_single (lineBreak : Bool) {options : List Complex}
    (h : ∀ c ∈ options, c.items ≠ []) :
    ExtendContext.weaveChoices lineBreak [options] = breakLines lineBreak options := by
  have picks : selections [options] = options.map fun c => [c] := by
    simp [selections, ← List.map_eq_flatMap]
  rw [ExtendContext.weaveChoices, picks, List.flatMap_map, breakLines, List.map_eq_flatMap]
  refine List.flatMap_congr fun c hc => ?_
  simp [weave, weaveWith, h c hc]

/-- A lone selector and its extenders are lone. -/
theorem withExtenders_lone {m : ExtensionMap} (hm : AreLoneExtensions m) {x : Simple}
    (plain : x.argument? = none) {sources : OrderedMap Complex Extension}
    (hs : m.get? x = some sources) : AreLone (withExtenders x sources) := by
  rw [AreLone, withExtenders, List.forall_mem_cons]
  refine ⟨⟨x, rfl, plain⟩, fun c hc => ?_⟩
  obtain ⟨e, he, rfl⟩ := List.mem_map.1 hc
  obtain ⟨⟨c, e⟩, mem, rfl⟩ := List.mem_map.1 he
  obtain ⟨x', mem', -⟩ := OrderedMap.exists_mem_of_get? hs
  have good := hm _ mem' _ mem
  exact good.lone.congr (BEq.symm good.sameExtender)

theorem AreLone.items_ne {l : SelectorList} (h : AreLone l) : ∀ c ∈ l, c.items ≠ [] := by
  intro c hc empty
  obtain ⟨x, hx, -⟩ := h c hc
  rw [hx] at empty
  cases empty

/-- The extenders of a condition are what extends it. -/
theorem contains_extenders {m : ExtensionMap} (hm : AreLoneExtensions m) {x y : Simple}
    {sources : OrderedMap Complex Extension} (hs : m.get? x = some sources) :
    (sources.values.map Extension.extender).contains (lone y) = true ↔ Extends m x y := by
  obtain ⟨x', mem', -⟩ := OrderedMap.exists_mem_of_get? hs
  have same : ∀ entry ∈ sources.entries, (lone y == entry.2.extender) = (entry.1 == lone y) := by
    intro entry mem
    have good := hm _ mem' _ mem
    rw [BEq.comm, BEq.congr_left good.sameExtender]
  rw [List.contains_eq_any_beq, OrderedMap.values, List.map_map, List.any_map, Function.comp_def,
    Function.comp_def, any_congr_mem same]
  exact ⟨fun h => ⟨sources, hs, h⟩, fun ⟨sources', hs', h⟩ => by
    obtain rfl := Option.some.inj (hs.symm.trans hs')
    exact h⟩

/-- The conditions that a lone selector becomes. -/
theorem contains_withExtenders {m : ExtensionMap} (hm : AreLoneExtensions m) {x y : Simple}
    {sources : OrderedMap Complex Extension} (hs : m.get? x = some sources) :
    (withExtenders x sources).contains (lone y) = true ↔ (x == y) = true ∨ Extends m x y := by
  rw [withExtenders, List.contains_cons, lone_beq_lone, BEq.comm, Bool.or_eq_true,
    contains_extenders hm hs]

/-- Line breaks do not change what a list contains. -/
theorem contains_breakLines (lineBreak : Bool) (l : List Complex) (c : Complex) :
    (breakLines lineBreak l).contains c = l.contains c := by
  rw [List.contains_eq_any_beq, List.contains_eq_any_beq, breakLines, List.any_map]
  rfl

theorem AreLone.breakLines {l : SelectorList} (h : AreLone l) (lineBreak : Bool) :
    AreLone (breakLines lineBreak l) := by
  intro c hc
  obtain ⟨d, hd, rfl⟩ := List.mem_map.1 hc
  exact h d hd

namespace ExtendContext

variable {ctx : ExtendContext} {inner : SelectorList → Extending (Option SelectorList)}
  {authored : List Complex} {x : Simple} {c : Complex}

/-- A compound of one condition has the choices of that condition. -/
theorem compoundChoices_lone (ctx : ExtendContext) (x : Simple) :
    ctx.compoundChoices [(x, none)] = (ctx.substitutes? x).map fun options => [options] := by
  cases h : ctx.substitutes? x <;> simp [compoundChoices, choicesFor, h]

/-- Outside of media queries nothing keeps the extenders from standing there. -/
theorem complexesOfChoices_lone (hx : AreLoneExtensions ctx.extensions) (own : Bool)
    {sources : OrderedMap Complex Extension} (hs : ctx.extensions.get? x = some sources) :
    ctx.complexesOfChoices own [.kept [x] :: sources.values.map .extended]
      = .ok (withExtenders x sources) := by
  have allowed : ∀ o ∈ Substitute.kept [x] :: sources.values.map .extended,
      (do o.checkMedia ctx.media; return o.complex : Except SelectorError Complex)
      = .ok o.complex := by
    rw [List.forall_mem_cons]
    refine ⟨rfl, fun o ho => ?_⟩
    obtain ⟨e, he, rfl⟩ := List.mem_map.1 ho
    obtain ⟨⟨c, e⟩, mem, rfl⟩ := List.mem_map.1 he
    obtain ⟨x', mem', -⟩ := OrderedMap.exists_mem_of_get? hs
    rw [Substitute.checkMedia, ExtendRule.checkMedia, (hx _ mem' _ mem).media]
    rfl
  rw [complexesOfChoices, mapM_ok allowed]
  simp [withExtenders, lone, Substitute.complex, Function.comp_def]

/-- A lone compound becomes itself and its extenders, if it is a target. -/
theorem extendCompound_lone (hm : ctx.mode = .normal) (hx : AreLoneExtensions ctx.extensions)
    (plain : x.argument? = none) (own : Bool) :
    Yields (ctx.extendCompound inner own [x]) authored fun found _ =>
      found = (ctx.extensions.get? x).map (withExtenders x) := by
  have untouched : x.extendArgument inner = (pure none : Extending _) := by
    cases x with
    | pseudo p => simp [Simple.extendArgument, show p.selector = none from plain]
    | _ => rfl
  have parts : ([x].mapM fun s => do return (s, ← s.extendArgument inner) : Extending _)
      = pure [(x, none)] := by
    simp [untouched]
  rw [extendCompound, parts, pure_bind, compoundChoices_lone, substitutes?]
  cases hs : ctx.extensions.get? x with
  | none => exact .pure rfl
  | some sources =>
    have enough : ctx.enoughTargets [(x, none)] = true := by
      rw [enoughTargets, hm]
      rfl
    simp only [Option.map_some, hm, reduceCtorEq, if_false, enough, if_true]
    exact (Yields.ofOk (Q := fun found _ => found = withExtenders x sources)
      (complexesOfChoices_lone hx own hs) rfl).bind fun found _ h => .pure (congrArg some h)

/-- A selector of one compound becomes what its compound becomes. -/
theorem extendComplexWith_single {Q : Option (List Complex) → Prop} {conditions : Compound}
    (hc : c.items = [.compound conditions])
    (h : ∀ own authored',
      Yields (ctx.extendCompound inner own conditions) authored' fun found _ => Q found)
    (filled : ∀ found, Q (some found) → ∀ d ∈ found, d.items ≠ []) :
    Yields (ctx.extendComplexWith inner c) authored fun found _ =>
      ∃ part, Q part ∧ found = part.map (breakLines c.lineBreak) := by
  refine Yields.get_bind ?_
  rw [hc]
  refine (Yields.mapM_forall₂ (S := fun _ found => Q found)
    fun item mem authored' => ?_).bind fun parts authored' hparts => ?_
  · obtain rfl := List.mem_singleton.1 mem
    exact h _ authored'
  · obtain ⟨part, rest, hpart, hrest, rfl⟩ := List.forall₂_cons_left_iff.1 hparts
    obtain rfl := List.forall₂_nil_left_iff.1 hrest
    cases part with
    | none => exact .pure ⟨none, hpart, rfl⟩
    | some found =>
      have woven : weaveChoices c.lineBreak [found] = breakLines c.lineBreak found :=
        weaveChoices_single c.lineBreak (filled found hpart)
      have result : ∃ part, Q part ∧ some (weaveChoices c.lineBreak [found])
          = part.map (breakLines c.lineBreak) := ⟨some found, hpart, congrArg some woven⟩
      simp only [List.all_cons, Option.isNone_some, Bool.false_and, Bool.false_eq_true, if_false]
      split
      · split
        · exact Yields.modify_bind (.pure result)
        · exact .pure result
      · exact .pure result

/-- **A lone selector becomes itself and the extenders of its condition.** -/
theorem extendComplexWith_lone (hm : ctx.mode = .normal) (hx : AreLoneExtensions ctx.extensions)
    (hc : c.items = [.compound [x]]) (plain : x.argument? = none) :
    Yields (ctx.extendComplexWith inner c) authored fun found _ =>
      found = (ctx.extensions.get? x).map fun sources =>
        breakLines c.lineBreak (withExtenders x sources) := by
  refine (extendComplexWith_single hc (fun own _ => extendCompound_lone hm hx plain own)
    fun found hfound => ?_).mono fun found _ hfound => ?_
  · obtain ⟨sources, hs, rfl⟩ := Option.map_eq_some_iff.1 hfound.symm
    exact (withExtenders_lone hx plain hs).items_ne
  · obtain ⟨part, rfl, rfl⟩ := hfound
    rw [Option.map_map]
    rfl

end ExtendContext

/-! ## Extending a list of lone selectors -/

/-- The conditions of the list are those of `l` and all that extend one of them. -/
def IsExtended (m : ExtensionMap) (l extended : SelectorList) : Prop :=
  AreLone extended ∧ ∀ y, extended.contains (lone y) = true ↔
    l.contains (lone y) = true ∨ ∃ x, l.contains (lone x) = true ∧ Extends m x y

section IsExtended

variable {m : ExtensionMap} {l l' extended extended' : SelectorList}

theorem isExtended_nil (m : ExtensionMap) : IsExtended m [] [] :=
  ⟨fun _ h => absurd h List.not_mem_nil, by simp⟩

/-- Extended parts make an extended whole. -/
theorem IsExtended.append (h : IsExtended m l extended) (h' : IsExtended m l' extended') :
    IsExtended m (l ++ l') (extended ++ extended') := by
  refine ⟨List.forall_mem_append.2 ⟨h.1, h'.1⟩, fun y => ?_⟩
  simp only [List.contains_append, Bool.or_eq_true, h.2, h'.2, or_and_right, exists_or]
  exact or_or_or_comm

/-- The case of one selector: it stays, and its extenders join it. -/
theorem isExtended_single {c : Complex} {x : Simple} (hm : AreLoneExtensions m)
    (hc : c.items = [.compound [x]]) (plain : x.argument? = none) :
    IsExtended m [c] (((m.get? x).map fun sources =>
      breakLines c.lineBreak (withExtenders x sources)).getD [c]) := by
  have own : ∀ y, [c].contains (lone y) = true ↔ (x == y) = true := by
    intro y
    rw [← lone_beq_lone, ← BEq.congr_left (beq_lone hc), BEq.comm]
    simp
  have extending : ∀ y, (∃ x', [c].contains (lone x') = true ∧ Extends m x' y) ↔ Extends m x y :=
    fun y => ⟨fun ⟨x', hx', h⟩ => h.congr_left (BEq.symm ((own x').1 hx')),
      fun h => ⟨x, (own x).2 BEq.rfl, h⟩⟩
  cases hs : m.get? x with
  | none =>
    have not : ∀ y, ¬ Extends m x y := by
      rintro y ⟨sources, hs', -⟩
      rw [hs] at hs'
      cases hs'
    refine ⟨fun d hd => ?_, fun y => ?_⟩
    · obtain rfl := List.mem_singleton.1 hd
      exact ⟨x, hc, plain⟩
    · rw [extending, or_iff_left (not y)]
      rfl
  | some sources =>
    refine ⟨(withExtenders_lone hm plain hs).breakLines _, fun y => ?_⟩
    rw [Option.map_some, Option.getD_some, contains_breakLines, contains_withExtenders hm hs, own,
      extending]

/-- Trimming loses nothing here, since lone selectors are dropped only for equal ones. -/
theorem IsExtended.trim (h : IsExtended m l extended) (sources : SourceSpecificity)
    (authored : Complex → Bool) : IsExtended m l (trim sources authored extended) := by
  have only : ∀ c ∈ extended, ∀ d ∈ extended, c.dominatedBy sources d = true → (c == d) = true :=
    fun c hc d hd => beq_of_dominatedBy (h.1 c hc) (h.1 d hd)
  refine ⟨fun c hc => h.1 c (mem_of_mem_trim hc), fun y => ?_⟩
  rw [← h.2 y]
  constructor
  · intro hy
    obtain ⟨c, hc, same⟩ := List.contains_iff_exists_mem_beq.1 hy
    exact List.contains_iff_exists_mem_beq.2 ⟨c, mem_of_mem_trim hc, same⟩
  · intro hy
    obtain ⟨c, hc, same⟩ := List.contains_iff_exists_mem_beq.1 hy
    rw [List.contains_congr same]
    exact contains_trim only hc

end IsExtended

namespace ExtendContext

variable {ctx : ExtendContext} {inner : SelectorList → Extending (Option SelectorList)}
  {authored : List Complex} {l : SelectorList}

/-- What every selector of a list becomes, the list becomes, for any relation to what there was that
trimming does not break. -/
theorem extendListWith_yields {P : SelectorList → SelectorList → Prop} (nil : P [] [])
    (append : ∀ {l m l' m'}, P l m → P l' m' → P (l ++ l') (m ++ m'))
    (trimmed : ∀ {m} authored, P l m → P l (trim ctx.sources authored m)) (own : P l [] → P l l)
    (each : ∀ c ∈ l, ∀ authored', Yields (ctx.extendComplexWith inner c) authored' fun part _ =>
      P [c] (part.getD [c])) :
    Yields (ctx.extendListWith inner l) authored fun found _ => P l (found.getD l) := by
  refine (Yields.mapM_forall₂ (S := fun c part => P [c] (part.getD [c])) each).bind
    fun parts authored' hparts => ?_
  have whole : P l (List.zipWith (fun c part => part.getD [c]) l parts).flatten := by
    clear each trimmed own
    induction hparts with
    | nil => exact nil
    | cons h _ ih => exact append h ih
  split
  · -- nothing is extended: the list is what it becomes
    rename_i untouched
    have same : (List.zipWith (fun c part => part.getD [c]) l parts).flatten = l := by
      clear each trimmed own whole
      induction hparts with
      | nil => rfl
      | @cons c part l parts _ _ ih =>
        rw [List.all_cons, Bool.and_eq_true, Option.isNone_iff_eq_none] at untouched
        rw [List.zipWith_cons_cons, List.flatten_cons, ih untouched.2, untouched.1]
        rfl
    rw [same] at whole
    exact .pure whole
  · refine Yields.get_bind ?_
    have kept := trimmed authored'.contains whole
    split
    · rename_i untouched
      rw [untouched] at kept
      exact .pure (own kept)
    · exact .pure kept

/-- **A list of lone selectors becomes its conditions and all that extend one of them.** -/
theorem extendListWith_lone (hm : ctx.mode = .normal) (hx : AreLoneExtensions ctx.extensions)
    (hl : AreLone l) :
    Yields (ctx.extendListWith inner l) authored fun found _ =>
      IsExtended ctx.extensions l (found.getD l) := by
  refine extendListWith_yields (isExtended_nil _) (fun h h' => h.append h')
    (fun authored h => h.trim ctx.sources authored) (fun lone => ⟨hl, fun y => ?_⟩)
    fun c hc authored' => ?_
  · exact ⟨.inl, fun h => absurd ((lone.2 y).2 h) Bool.false_ne_true⟩
  · obtain ⟨x, hitems, lone⟩ := hl c hc
    exact (extendComplexWith_lone hm hx hitems lone).mono fun part _ hpart => by
      rw [hpart]
      exact isExtended_single hx hitems lone

end ExtendContext

end SelectorAlgebra
