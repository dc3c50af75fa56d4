import Mathlib
import SelectorAlgebra.Proofs.Commutation
import SelectorAlgebra.Proofs.ExtensionTables
import SelectorAlgebra.Proofs.Occurrence
import SelectorAlgebra.Proofs.ReadSources

/-!
# Proofs/SecretExtensions — two stores that differ in the extensions of some private targets

A **veil** is put over two kinds of conditions: some private placeholders are *secret*, and
conditions that only their extenders mention are kept *apart*.  Nothing but extensions of secret
targets, and source specificities of conditions that are apart, sets two stores under it apart
(`Agrees`).  Two judgements go with that relation.

* `InBoth v m s s' Q` — an operation gives the same in both stores, of which `Q` holds, and
  leaves them agreeing.  Extending a rule does, if neither its target nor its extender is behind
  the veil (`extendRule_inBoth`).
* `Shields v s` — an operation of the second store alone leaves it agreeing with `s`.  Settling does
  if it only has rules of secret targets to extend (`settleWithin_shields`).

What extending gives is made of the conditions it is given (`extendComplex_isMadeOf`), so no rule
ever comes to mention a condition behind the veil by itself; and it only reads their source
specificities (`extendComplex_withSources`).
-/

namespace SelectorAlgebra

/-! ## Conditions behind a veil -/

/-- Not an element, and without a selector argument: no unification or extension makes such a
condition up from others. -/
def Simple.isAtomic (x : Simple) : Bool := !x.isUniversalOrType && x.argument?.isNone

variable {apart : Simple → Bool} {x y : Simple}

/-- Being atomic does not see what equality ignores. -/
theorem Simple.isAtomic_congr (same : (x == y) = true) : x.isAtomic = y.isAtomic := by
  have canonical : ∀ z : Simple, z.canonical.isAtomic = z.isAtomic := by
    intro z
    rw [isAtomic, isAtomic, argument?_canonical]
    cases z with
    | pseudo p => rw [canonical_pseudo]; rfl
    | _ => rfl
  rw [← canonical x, ← canonical y, Simple.beq_iff.1 same]

/-- Private placeholders are equal only to themselves. -/
theorem eq_of_beq_of_isPrivatePlaceholder (h : x.isPrivatePlaceholder = true)
    (same : (x == y) = true) : y = x := by
  cases x with
  | placeholder name =>
    rw [Simple.beq_iff, Simple.canonical_placeholder] at same
    cases y with
    | pseudo p => rw [Simple.canonical_pseudo] at same; cases same
    | _ => exact same.symm
  | _ => cases h

theorem isAtomic_of_isPrivatePlaceholder (h : x.isPrivatePlaceholder = true) :
    x.isAtomic = true := by
  cases x with
  | placeholder name => rfl
  | _ => cases h

/-- Some private placeholders, and with them some atomic conditions. -/
structure Veil where
  /-- The targets of extensions that are not to be seen. -/
  secret : Simple → Bool
  /-- What only the extenders of secret targets mention. -/
  apart : Simple → Bool
  isPrivate : ∀ x, secret x = true → x.isPrivatePlaceholder = true
  apart_of_secret : ∀ x, secret x = true → apart x = true
  isAtomic : ∀ x, apart x = true → x.isAtomic = true
  apart_congr : ∀ {x y}, (x == y) = true → apart x = apart y

namespace Veil

variable (v : Veil)

/-- Being secret does not see what equality ignores. -/
theorem secret_congr (same : (x == y) = true) : v.secret x = v.secret y := by
  rw [Bool.eq_iff_iff]
  constructor
  · intro h
    rwa [eq_of_beq_of_isPrivatePlaceholder (v.isPrivate x h) same]
  · intro h
    rwa [eq_of_beq_of_isPrivatePlaceholder (v.isPrivate y h) (BEq.symm same)]

/-- Some private placeholders as secret targets, and atomic conditions that are kept apart with
them. -/
def of (placeholders others : List Simple) (hp : ∀ x ∈ placeholders, x.isPrivatePlaceholder = true)
    (ho : ∀ x ∈ others, x.isAtomic = true) : Veil where
  secret := placeholders.contains
  apart x := placeholders.contains x || others.contains x
  isPrivate x h := by
    obtain ⟨y, hy, same⟩ := List.contains_iff_exists_mem_beq.1 h
    rw [eq_of_beq_of_isPrivatePlaceholder (hp y hy) (BEq.symm same)]
    exact hp y hy
  apart_of_secret x h := by rw [h, Bool.true_or]
  isAtomic x h := by
    have listed : ∃ y ∈ placeholders ++ others, (x == y) = true := by
      rwa [← List.contains_iff_exists_mem_beq, List.contains_append]
    obtain ⟨y, hy, same⟩ := listed
    rw [Simple.isAtomic_congr same]
    obtain hy | hy := List.mem_append.1 hy
    · exact isAtomic_of_isPrivatePlaceholder (hp y hy)
    · exact ho y hy
  apart_congr same := by rw [List.contains_congr same, List.contains_congr same]

/-- No target is secret. -/
def IsOpen : Prop := ∀ x, v.secret x = false

/-- The veil with no secret targets. -/
def opened : Veil :=
  { v with secret := fun _ => false, isPrivate := nofun, apart_of_secret := nofun }

variable {v}

theorem not_isOpen (closed : v.secret x = true) : ¬ v.IsOpen := by
  intro h
  rw [h x] at closed
  cases closed

theorem isOpen_opened : v.opened.IsOpen := fun _ => rfl

end Veil

/-- Neither the condition nor what is in its argument is kept apart. -/
def Simple.IsClearOf (apart : Simple → Bool) (s : Simple) : Prop := ∀ x ∈ s.simples, apart x = false

/-- No condition of the selector is kept apart, at any depth. -/
def Complex.IsClearOf (apart : Simple → Bool) (c : Complex) : Prop :=
  ∀ x ∈ c.simples, apart x = false

instance Complex.decidableIsClearOf {c : Complex} : Decidable (c.IsClearOf apart) :=
  inferInstanceAs (Decidable (∀ x ∈ c.simples, apart x = false))

/-- Being clear is a property of the compounds. -/
theorem Complex.isClearOf_iff {c : Complex} : c.IsClearOf apart ↔
    AllCompounds (fun d => ∀ s ∈ d, s.IsClearOf apart) c.items := by
  simp only [IsClearOf, Complex.simples, mem_simplesOfItems, AllCompounds, Simple.IsClearOf]
  constructor
  · intro h d hd s hs x hx
    exact h x ⟨d, hd, s, hs, hx⟩
  · rintro h x ⟨d, hd, s, hs, hx⟩
    exact h d hd s hs x hx

/-- Atomic conditions are not made up by unification, so being clear of them is hereditary. -/
theorem isHereditary_isClearOf (atomic : ∀ x, apart x = true → x.isAtomic = true) :
    IsHereditary (Simple.IsClearOf apart) (fun d => ∀ s ∈ d, s.IsClearOf apart)
      (Complex.IsClearOf apart) where
  toIsLasting := by
    refine isLasting_forall fun s hs x hx => Bool.eq_false_iff.2 fun h => ?_
    have atomic := atomic x h
    cases s with
    | universal | type => cases List.mem_singleton.1 hx; cases atomic
    | _ => cases hs
  ofRow c h := Complex.isClearOf_iff.2 h.2
  row c h := Complex.isClearOf_iff.1 h
  argument p l hp hl c hc x hx := by
    refine hp x (Simple.mem_simples.2 (.inr ⟨l, hl, ?_⟩))
    rw [SelectorList.simples, simplesOfList_eq_flatMap]
    exact List.mem_flatMap.2 ⟨c, hc, hx⟩
  withSelector p l _ _ hl x hx := by
    obtain rfl | ⟨argument, harg, hx⟩ := Simple.mem_simples.1 hx
    · exact Bool.eq_false_iff.2 fun h => by cases atomic _ h
    · obtain rfl : l = argument := Option.some.inj harg
      rw [SelectorList.simples, simplesOfList_eq_flatMap] at hx
      obtain ⟨c, hc, hx⟩ := List.mem_flatMap.1 hx
      exact hl c hc x hx

/-- The extenders of a table mention nothing that is kept apart. -/
abbrev IsClearTable (apart : Simple → Bool) (m : ExtensionMap) : Prop :=
  EachExtension (fun _ _ e => e.extender.IsClearOf apart) m

theorem isFacing_isClearOf (apart : Simple → Bool) :
    IsFacing fun _ _ e => e.extender.IsClearOf apart :=
  ⟨fun _ _ h => h⟩

/-- A clear table extends with clear selectors only. -/
theorem IsClearTable.all {m : ExtensionMap} (h : IsClearTable apart m) (mode : ExtendMode)
    (sources : SourceSpecificity) (media : Option MediaContext) :
    ExtendContext.All (fun d => ∀ s ∈ d, s.IsClearOf apart) ⟨mode, sources, m, media⟩ := by
  rintro e ⟨x, extensions, found, he⟩
  obtain ⟨x', hentry, -⟩ := OrderedMap.exists_mem_of_get? found
  obtain ⟨pair, hpair, rfl⟩ := List.mem_map.1 he
  exact Complex.isClearOf_iff.1 (h _ hentry pair hpair)

/-- Merging takes one of the two extenders. -/
theorem isClearOf_of_merge {left right merged : Extension} (h : left.merge right = .ok merged)
    (hl : left.extender.IsClearOf apart) (hr : right.extender.IsClearOf apart) :
    merged.extender.IsClearOf apart := by
  rcases Extension.merge_cases h with ⟨-, rfl⟩ | ⟨-, -, rfl⟩ | ⟨-, -, rfl⟩
  · exact hl
  · exact hr
  · exact hl

/-! ## Parts of a table -/

namespace OrderedMap

variable {κ ν : Type} [BEq κ] {pick : κ → Bool} {key : κ}

/-- The entries under some of the keys. -/
def restrict (pick : κ → Bool) (m : OrderedMap κ ν) : OrderedMap κ ν :=
  ⟨m.entries.filter fun e => pick e.1⟩

/-- Looking up what a part of a table keeps. -/
theorem get?_restrict (m : OrderedMap κ ν) (respects : ∀ k, (k == key) = true → pick k = pick key)
    (h : pick key = true) : (m.restrict pick).get? key = m.get? key := by
  rw [get?, get?, restrict, List.find?_filter]
  congr 2
  funext e
  by_cases same : (e.1 == key) = true
  · simp [same, respects e.1 same, h]
  · simp [same]

/-- A change inside the part. -/
theorem restrict_alter_of_true (m : OrderedMap κ ν) (change : Option ν → ν)
    (respects : ∀ k, (k == key) = true → pick k = pick key) (h : pick key = true) :
    (m.alter key change).restrict pick = (m.restrict pick).alter key change := by
  obtain ⟨entries⟩ := m
  simp only [alter, restrict, mk.injEq]
  induction entries with
  | nil => simp [alterEntries, h]
  | cons e entries ih =>
    obtain ⟨k, v⟩ := e
    by_cases same : (k == key) = true
    · simp [alterEntries, same, respects k same, h]
    · by_cases picked : pick k = true <;> simp [alterEntries, same, picked, ih]

/-- A change outside the part is not seen in it. -/
theorem restrict_alter_of_false (m : OrderedMap κ ν) (change : Option ν → ν)
    (respects : ∀ k, (k == key) = true → pick k = pick key) (h : pick key = false) :
    (m.alter key change).restrict pick = m.restrict pick := by
  obtain ⟨entries⟩ := m
  simp only [alter, restrict, mk.injEq]
  induction entries with
  | nil => simp [alterEntries, h]
  | cons e entries ih =>
    obtain ⟨k, v⟩ := e
    by_cases same : (k == key) = true
    · simp [alterEntries, same, respects k same, h]
    · by_cases picked : pick k = true <;> simp [alterEntries, same, picked, ih]

/-- Of several insertions the part takes those inside it. -/
theorem restrict_insertAll (m : OrderedMap κ ν) (entries : List (κ × ν))
    (respects : ∀ k k', (k == k') = true → pick k = pick k') :
    (m.insertAll entries).restrict pick
      = (m.restrict pick).insertAll (entries.filter fun e => pick e.1) := by
  induction entries generalizing m with
  | nil => rfl
  | cons e entries ih =>
    show ((m.insert e.1 e.2).insertAll entries).restrict pick = _
    rw [ih, insert]
    by_cases h : pick e.1 = true
    · rw [restrict_alter_of_true _ _ (fun k => respects k e.1) h,
        List.filter_cons_of_pos (p := fun e : κ × ν => pick e.1) h]
      rfl
    · rw [restrict_alter_of_false _ _ (fun k => respects k e.1) (by simpa using h),
        List.filter_cons_of_neg (p := fun e : κ × ν => pick e.1) h]

end OrderedMap

/-! ## Extending without author-written selectors -/

/-- A record that is empty stays so. -/
def StaysEmpty (authored authored' : List Complex) : Prop := authored = [] → authored' = []

instance reflStaysEmpty : Std.Refl StaysEmpty := ⟨fun _ => id⟩

instance isTransStaysEmpty : IsTrans (List Complex) StaysEmpty := ⟨fun _ _ _ h h' => h' ∘ h⟩

namespace ExtendContext

variable {ctx : ExtendContext} {inner : SelectorList → Extending (Option SelectorList)}
  {authored : List Complex}

/-- Without author-written selectors extension writes none. -/
theorem extendCompound_staysEmpty
    (hin : ∀ l authored, Ensures StaysEmpty (inner l) authored fun _ _ => True) (own : Bool)
    (c : Compound) :
    Ensures StaysEmpty (ctx.extendCompound inner own c) authored fun _ _ => True := by
  refine (Ensures.mapM (S := fun _ _ => True) fun s _ _ _ => ?_).bind fun parts _ _ _ => ?_
  · refine Ensures.bind (Q := fun _ _ => True) ?_ fun _ _ _ _ => .pure trivial
    unfold Simple.extendArgument
    split
    · split
      · refine (hin _ _).bind fun found _ _ _ => ?_
        split <;> exact .pure trivial
      · exact .pure trivial
    · exact .pure trivial
  · split
    · exact .pure trivial
    · split
      · exact (Ensures.ofExcept (Q := fun _ _ => True) fun _ _ => trivial).bind
          fun _ _ _ _ => .pure trivial
      · exact .pure trivial

theorem extendComplexWith_staysEmpty
    (hin : ∀ l authored, Ensures StaysEmpty (inner l) authored fun _ _ => True) (c : Complex) :
    Ensures StaysEmpty (ctx.extendComplexWith inner c) authored fun _ _ => True := by
  refine Ensures.get_bind ?_
  refine (Ensures.mapM (S := fun _ _ => True) fun item _ _ _ => ?_).bind_from
    fun parts authored' stays _ => ?_
  · cases item with
    | compound c => exact extendCompound_staysEmpty hin _ c
    | combinator k => exact .pure trivial
  have rest : ∀ {found : Option (List Complex)}, Ensures (fun _ => StaysEmpty authored)
      (pure found : Extending (Option (List Complex))) authored' fun _ _ => True :=
    .pure_of stays trivial
  split
  · exact rest
  · dsimp only
    split
    · -- Only what an author wrote is put on record, so the record was not empty before.
      rename_i own
      have silent : ∀ authored', StaysEmpty authored authored' := by
        rintro _ rfl
        cases own
      split
      · exact ⟨silent _, fun _ _ => trivial⟩
      · exact rest
    · exact rest

/-- At every level. -/
theorem extendListWithin_staysEmpty : ∀ (n : ℕ) (l : SelectorList) (authored : List Complex),
    Ensures StaysEmpty (ctx.extendListWithin n l) authored fun _ _ => True
  | 0, _, _ => .pure trivial
  | n + 1, l, _ => by
    refine (Ensures.mapM (S := fun _ _ => True) fun c _ _ _ =>
      extendComplexWith_staysEmpty (extendListWithin_staysEmpty n) c).bind fun parts _ _ _ => ?_
    split
    · exact .pure trivial
    · refine Ensures.get_bind ?_
      split <;> exact .pure trivial

/-- The form in which stores use it. -/
theorem extendComplex_staysEmpty (c : Complex) :
    (outcomeFrom (ctx.extendComplex c) []).2 = [] :=
  (extendComplexWith_staysEmpty (extendListWithin_staysEmpty _) c).1 rfl

theorem extendList_staysEmpty (l : SelectorList) : (outcomeFrom (ctx.extendList l) []).2 = [] :=
  (extendListWithin_staysEmpty _ l []).1 rfl

end ExtendContext

/-! ## Two stores that differ in secret extensions -/

namespace Store

/-- No selector and no extender of the store mentions a condition that is kept apart. -/
structure IsClearOf (apart : Simple → Bool) (s : Store) : Prop where
  slots : ∀ slot ∈ s.slots, ∀ c ∈ slot.value, c.IsClearOf apart
  extensions : IsClearTable apart s.extensions
  rules : ∀ x, ∀ r ∈ s.rulesUnder x, apart x = false ∧ r.extender.IsClearOf apart

/-- The first store mentions nothing behind the veil, and the stores are the same but
for extensions of secret targets, which only the second one has, and for source
specificities of conditions apart. -/
structure Agrees (v : Veil) (s s' : Store) : Prop where
  mode : s'.mode = s.mode
  roundLimit : s'.roundLimit = s.roundLimit
  slots : s'.slots = s.slots
  bySimple : s'.bySimple = s.bySimple
  authored : s'.authored = s.authored
  sources : s'.sources.restrict (!v.apart ·) = s.sources.restrict (!v.apart ·)
  extensions : s'.extensions.restrict (!v.secret ·) = s.extensions
  rules : ∀ x, (s'.rulesUnder x).filter (!v.secret ·.target) = s.rulesUnder x
  /-- With no secret targets, the rules are under the same conditions. -/
  index : v.IsOpen → s'.byExtender = s.byExtender
  clear : s.IsClearOf v.apart
  /-- With secret targets, there are no selectors. -/
  unwritten : ¬ v.IsOpen → s.bySimple = .empty ∧ s.authored = []

/-- Noting the specificity of an extender is the same for tables that are the same off what is
apart. -/
theorem restrict_noteSources (v : Veil) {s s' : Store} (c : Complex)
    (h : s'.sources.restrict (!v.apart ·) = s.sources.restrict (!v.apart ·)) :
    (s'.noteSources c).sources.restrict (!v.apart ·)
      = (s.noteSources c).sources.restrict (!v.apart ·) := by
  simp only [noteSources]
  generalize s.sources = sources at h
  generalize s'.sources = sources' at h
  induction c.simples generalizing sources sources' with
  | nil => exact h
  | cons x conditions ih =>
    rw [List.foldl_cons, List.foldl_cons]
    refine ih _ _ ?_
    have respects : ∀ k, (k == x) = true → (!v.apart k) = !v.apart x := fun k same =>
      congrArg not (v.apart_congr same)
    cases hx : v.apart x with
    | true =>
      have hidden : (!v.apart x) = false := by simp [hx]
      rw [OrderedMap.insertNew, OrderedMap.insertNew,
        OrderedMap.restrict_alter_of_false _ _ respects hidden,
        OrderedMap.restrict_alter_of_false _ _ respects hidden, h]
    | false =>
      have shown : (!v.apart x) = true := by simp [hx]
      rw [OrderedMap.insertNew, OrderedMap.insertNew,
        OrderedMap.restrict_alter_of_true _ _ respects shown,
        OrderedMap.restrict_alter_of_true _ _ respects shown, h]

/-- The specificity of an extender whose conditions are apart, or have one already,
changes nothing else. -/
theorem restrict_noteSources_self (v : Veil) {s : Store} {c : Complex}
    (noted : ∀ x ∈ c.simples, v.apart x = true ∨ s.sources.contains x = true) :
    (s.noteSources c).sources.restrict (!v.apart ·) = s.sources.restrict (!v.apart ·) := by
  simp only [noteSources]
  generalize s.sources = sources at noted
  generalize c.simples = conditions at noted
  induction conditions generalizing sources with
  | nil => rfl
  | cons x conditions ih =>
    rw [List.forall_mem_cons] at noted
    have kept : ∀ y ∈ conditions, v.apart y = true ∨
        (sources.insertNew x c.specificity.max).contains y = true := by
      intro y hy
      refine (noted.2 y hy).imp_right fun h => ?_
      rw [OrderedMap.insertNew, OrderedMap.contains_alter, h, Bool.or_true]
    rw [List.foldl_cons, ih _ kept]
    obtain hx | hx := noted.1
    · refine OrderedMap.restrict_alter_of_false _ _ (fun k same => ?_) (by simp [hx])
      exact congrArg not (v.apart_congr same)
    · obtain ⟨n, found⟩ :=
        Option.isSome_iff_exists.1 ((OrderedMap.contains_eq_isSome _ _).symm.trans hx)
      rw [OrderedMap.insertNew, OrderedMap.alter_eq_self found rfl]

namespace Agrees

variable {v : Veil} {s s' : Store} {t : Simple}

/-- Shown targets have the same extensions in both stores. -/
theorem get? (h : Agrees v s s') (shown : v.secret t = false) :
    s'.extensions.get? t = s.extensions.get? t := by
  rw [← h.extensions, OrderedMap.get?_restrict]
  · exact fun k same => congrArg not (v.secret_congr same)
  · rw [shown]
    rfl

/-- What is not apart has the same source specificity in both stores. -/
theorem source_eq (h : Agrees v s s') (hx : v.apart x = false) :
    s'.sources.get? x = s.sources.get? x := by
  have respects : ∀ k, (k == x) = true → (!v.apart k) = !v.apart x := fun k same =>
    congrArg not (v.apart_congr same)
  rw [← OrderedMap.get?_restrict s'.sources respects (by rw [hx]; rfl), h.sources,
    OrderedMap.get?_restrict s.sources respects (by rw [hx]; rfl)]

theorem agreeOn (h : Agrees v s s') : AgreeOn (Simple.IsClearOf v.apart) s.sources s'.sources :=
  fun x hx => h.source_eq (hx x (Simple.mem_simples.2 (.inl rfl)))

/-- What is apart or has a source specificity is the same in both stores. -/
theorem noted_iff (h : Agrees v s s') : (v.apart x = true ∨ s'.sources.contains x = true) ↔
    (v.apart x = true ∨ s.sources.contains x = true) := by
  cases hx : v.apart x with
  | true => exact ⟨fun _ => .inl rfl, fun _ => .inl rfl⟩
  | false => rw [OrderedMap.contains_eq_isSome, OrderedMap.contains_eq_isSome, h.source_eq hx]

/-! ### Changes to both stores -/

/-- A change at a shown target, made in both stores. -/
theorem alter (h : Agrees v s s') (shown : v.secret t = false)
    {change : Option (OrderedMap Complex Extension) → OrderedMap Complex Extension}
    (clear : IsClearTable v.apart (s.extensions.alter t change)) :
    Agrees v { s with extensions := s.extensions.alter t change }
      { s' with extensions := s'.extensions.alter t change } :=
  { h with
    extensions := by
      rw [OrderedMap.restrict_alter_of_true _ _ (fun k same => congrArg not (v.secret_congr same))
        (by rw [shown]; rfl), h.extensions]
    clear := ⟨h.clear.slots, clear, h.clear.rules⟩ }

/-- A clear extension of a shown target. -/
theorem putExtension (h : Agrees v s s') (shown : v.secret t = false) (c : Complex) {e : Extension}
    (he : e.extender.IsClearOf v.apart) : Agrees v (s.putExtension t c e) (s'.putExtension t c e) :=
  h.alter shown (h.clear.extensions.setExtension (isFacing_isClearOf _) he)

theorem ensureTarget (h : Agrees v s s') (shown : v.secret t = false) :
    Agrees v (s.ensureTarget t) (s'.ensureTarget t) :=
  h.alter shown (h.clear.extensions.insertNew (isFacing_isClearOf _) t)

theorem dropExtension (h : Agrees v s s') (shown : v.secret t = false) (c : Complex) :
    Agrees v (s.dropExtension t c) (s'.dropExtension t c) :=
  h.alter shown (h.clear.extensions.erase (isFacing_isClearOf _) t c)

/-- A shown rule is indexed in both stores. -/
theorem indexRule (h : Agrees v s s') {r : ExtendRule} {conditions : List Simple}
    (shown : v.secret r.target = false) (clear : r.extender.IsClearOf v.apart)
    (sub : conditions ⊆ r.extender.simples) :
    Agrees v (s.indexRule r conditions) (s'.indexRule r conditions) :=
  { h with
    rules := fun x => by
      rw [rulesUnder_indexRule, rulesUnder_indexRule, List.filter_append, h.rules x]
      simp [shown]
    index := fun isOpen => by
      simp only [Store.indexRule, h.index isOpen]
    clear := by
      refine ⟨h.clear.slots, h.clear.extensions, fun x r' hr' => ?_⟩
      rw [rulesUnder_indexRule] at hr'
      obtain hr' | hr' := List.mem_append.1 hr'
      · exact h.clear.rules x r' hr'
      · obtain ⟨y, hy, rfl⟩ := List.mem_map.1 hr'
        obtain ⟨mem, same⟩ := List.mem_filter.1 hy
        exact ⟨(v.apart_congr same).symm.trans (clear y (sub mem)), clear⟩ }

/-- Source specificities are noted in both stores. -/
theorem noteSources (h : Agrees v s s') (c : Complex) :
    Agrees v (s.noteSources c) (s'.noteSources c) :=
  { h with
    sources := restrict_noteSources v c h.sources
    clear := ⟨h.clear.slots, h.clear.extensions, h.clear.rules⟩ }

theorem setAuthored (h : Agrees v s s') {authored : List Complex}
    (hidden : ¬ v.IsOpen → authored = []) :
    Agrees v { s with authored := authored } { s' with authored := authored } :=
  { h with
    authored := rfl
    clear := ⟨h.clear.slots, h.clear.extensions, h.clear.rules⟩
    unwritten := fun closed => ⟨(h.unwritten closed).1, hidden closed⟩ }

/-- A clear selector is stored in both stores, where nothing is secret any more. -/
theorem setSelector (h : Agrees v s s') (isOpen : v.IsOpen) (id : ℕ) (slot : Slot)
    {value : SelectorList} (clear : ∀ c ∈ value, c.IsClearOf v.apart) :
    Agrees v (s.setSelector id slot value) (s'.setSelector id slot value) :=
  { h with
    slots := congrArg (List.set · id _) h.slots
    bySimple := congrArg (register · value id) h.bySimple
    clear := by
      refine ⟨fun slot' hslot' => ?_, h.clear.extensions, h.clear.rules⟩
      rcases List.mem_or_eq_of_mem_set hslot' with old | rfl
      · exact h.clear.slots slot' old
      · exact clear
    unwritten := fun closed => absurd isOpen closed }

/-! ### Changes to the second store -/

/-- A change at a secret target is not seen. -/
theorem alter_secret (h : Agrees v s s') (closed : v.secret t = true)
    (change : Option (OrderedMap Complex Extension) → OrderedMap Complex Extension) :
    Agrees v s { s' with extensions := s'.extensions.alter t change } :=
  { h with
    extensions := by
      rw [OrderedMap.restrict_alter_of_false _ _ (fun k same => congrArg not (v.secret_congr same))
        (by rw [closed]; rfl), h.extensions] }

/-- Nor is indexing a secret rule. -/
theorem indexRule_secret (h : Agrees v s s') {r : ExtendRule} (closed : v.secret r.target = true)
    (conditions : List Simple) : Agrees v s (s'.indexRule r conditions) :=
  { h with
    rules := fun x => by
      rw [rulesUnder_indexRule, List.filter_append, h.rules x]
      simp [closed]
    index := fun isOpen => absurd isOpen (Veil.not_isOpen closed) }

/-- Nor is noting a selector, when its conditions are apart or noted already. -/
theorem noteSources_secret (h : Agrees v s s') {c : Complex}
    (noted : ∀ x ∈ c.simples, v.apart x = true ∨ s'.sources.contains x = true) :
    Agrees v s (s'.noteSources c) :=
  { h with sources := (restrict_noteSources_self v noted).trans h.sources }

/-- Under a secret condition there are only rules of secret targets. -/
theorem secret_of_mem (h : Agrees v s s') (closed : v.secret x = true) :
    ∀ r ∈ s'.rulesUnder x, v.secret r.target = true := by
  intro r hr
  by_contra shown
  have mem : r ∈ s.rulesUnder x := by
    rw [← h.rules x, List.mem_filter]
    exact ⟨hr, by simpa using shown⟩
  have away := (h.clear.rules x r mem).1
  rw [v.apart_of_secret x closed] at away
  cases away

end Agrees

/-! ## Operations that run in both stores -/

section Both

variable {α β γ : Type} {v : Veil} {s s' : Store} {Q : α → Prop} {P : β → Prop}

/-- The operation has the same result in both stores, of which `Q` holds, and leaves them
agreeing. -/
structure InBoth (v : Veil) (m : Storing α) (s s' : Store) (Q : α → Prop) : Prop where
  same : (outcomeFrom m s').1 = (outcomeFrom m s).1
  agrees : Agrees v (outcomeFrom m s).2 (outcomeFrom m s').2
  result : ∀ a, (outcomeFrom m s).1 = .ok a → Q a

namespace InBoth

theorem pure (h : Agrees v s s') {a : α} (ha : Q a) : InBoth v (Pure.pure a) s s' Q :=
  ⟨rfl, h, fun _ hb => Except.ok.inj hb ▸ ha⟩

theorem throw (h : Agrees v s s') (e : Failure) : InBoth v (throw e : Storing α) s s' Q :=
  ⟨rfl, h, fun _ ha => by cases ha⟩

/-- A step that only computes does so in both stores. -/
theorem ofExcept (h : Agrees v s s') {e : Except Failure α} (he : ∀ a, e = .ok a → Q a) :
    InBoth v (Storing.ofExcept e) s s' Q :=
  ⟨rfl, h, he⟩

/-- The same change in both stores, and what follows. -/
theorem modify_bind {change : Store → Store} {f : Unit → Storing β}
    (h : InBoth v (f ()) (change s) (change s') P) : InBoth v (modify change >>= f) s s' P :=
  ⟨h.same, h.agrees, h.result⟩

theorem modify_pure {change : Store → Store} (h : Agrees v (change s) (change s')) {a : α}
    (ha : Q a) :
    InBoth v (do modify change; Pure.pure a) s s' Q :=
  modify_bind (pure h ha)

theorem modify {change : Store → Store} (h : Agrees v (change s) (change s')) :
    InBoth v (modify change) s s' fun _ => True :=
  ⟨rfl, h, fun _ _ => trivial⟩

/-- Steps that run in both stores, one after another; the results are the same. -/
theorem bind {m : Storing α} {f : α → Storing β} (h : InBoth v m s s' Q)
    (next : ∀ a t t', Q a → Agrees v t t' → InBoth v (f a) t t' P) : InBoth v (m >>= f) s s' P := by
  obtain ⟨same, agrees, result⟩ := h
  rcases hm : outcomeFrom m s with ⟨e | a, t⟩ <;>
    rcases hm' : outcomeFrom m s' with ⟨e' | a', t'⟩ <;>
    rw [hm, hm'] at same agrees <;> rw [hm] at result
  · have failed : outcomeFrom (m >>= f) s = (.error e, t) := by rw [outcomeFrom_bind, hm]
    have failed' : outcomeFrom (m >>= f) s' = (.error e', t') := by rw [outcomeFrom_bind, hm']
    refine ⟨?_, ?_, ?_⟩
    · rw [failed, failed', Except.error.inj same]
    · rwa [failed, failed']
    · intro b hb
      rw [failed] at hb
      cases hb
  · cases same
  · cases same
  · obtain rfl := Except.ok.inj same
    have after : outcomeFrom (m >>= f) s = outcomeFrom (f a') t := by rw [outcomeFrom_bind, hm]
    have after' : outcomeFrom (m >>= f) s' = outcomeFrom (f a') t' := by rw [outcomeFrom_bind, hm']
    obtain ⟨same, agrees, result⟩ := next a' t t' (result a' rfl) agrees
    rw [← after, ← after'] at same agrees
    rw [← after] at result
    exact ⟨same, agrees, result⟩

/-- A step that reads the store may depend on what is the same in both. -/
theorem get_bind {f : Store → Storing α} (same : f s' = f s) (h : InBoth v (f s) s s' Q) :
    InBoth v (get >>= f) s s' Q := by
  obtain ⟨eq, agrees, result⟩ := h
  refine ⟨?_, ?_, ?_⟩
  · rwa [outcomeFrom_get_bind, outcomeFrom_get_bind, same]
  · rwa [outcomeFrom_get_bind, outcomeFrom_get_bind, same]
  · rwa [outcomeFrom_get_bind]

/-- Over a list, by induction. -/
theorem mapM {g : γ → Storing α} {xs : List γ} (h : Agrees v s s')
    (each : ∀ x ∈ xs, ∀ t t', Agrees v t t' → InBoth v (g x) t t' Q) :
    InBoth v (xs.mapM g) s s' fun as => ∀ a ∈ as, Q a := by
  induction xs generalizing s s' with
  | nil =>
    rw [List.mapM_nil]
    exact pure h (List.forall_mem_nil _)
  | cons x xs ih =>
    rw [List.forall_mem_cons] at each
    rw [List.mapM_cons]
    exact (each.1 s s' h).bind fun a t t' ha h' => (ih h' each.2).bind fun as t t' has h'' =>
      pure h'' (List.forall_mem_cons.2 ⟨ha, has⟩)

theorem forM {g : γ → Storing PUnit} {xs : List γ} (h : Agrees v s s')
    (each : ∀ x ∈ xs, ∀ t t', Agrees v t t' → InBoth v (g x) t t' fun _ => True) :
    InBoth v (xs.forM g) s s' fun _ => True := by
  induction xs generalizing s s' with
  | nil => exact pure h trivial
  | cons x xs ih =>
    rw [List.forall_mem_cons] at each
    exact (each.1 s s' h).bind fun _ t t' _ h' => ih h' each.2

/-- With an accumulator, which is the same in both runs. -/
theorem foldlM {g : α → γ → Storing α} {xs : List γ} {a : α} (h : Agrees v s s') (ha : Q a)
    (each : ∀ x ∈ xs, ∀ a t t', Agrees v t t' → Q a → InBoth v (g a x) t t' Q) :
    InBoth v (xs.foldlM g a) s s' Q := by
  induction xs generalizing s s' a with
  | nil => exact pure h ha
  | cons x xs ih =>
    rw [List.forall_mem_cons] at each
    rw [List.foldlM_cons]
    exact (each.1 a s s' h ha).bind fun a' t t' ha' h' => ih h' ha' each.2

end InBoth

/-- A step of extending runs in both stores if it reads nothing in which they differ. -/
theorem extending_inBoth (h : Agrees v s s') {extensions : ExtensionMap} (span : Span)
    {media : Option MediaContext} {step : ExtendContext → Extending α}
    (same : step ⟨s.mode, s'.sources, extensions, media⟩
      = step ⟨s.mode, s.sources, extensions, media⟩)
    (empty : (outcomeFrom (step ⟨s.mode, s.sources, extensions, media⟩) []).2 = [])
    (ensures : Ensures (fun _ _ => True) (step ⟨s.mode, s.sources, extensions, media⟩) s.authored
      fun a _ => Q a) :
    InBoth v (Storing.extending extensions span media step) s s' Q := by
  have out : outcomeFrom (step ⟨s'.mode, s'.sources, extensions, media⟩) s'.authored
      = outcomeFrom (step ⟨s.mode, s.sources, extensions, media⟩) s.authored := by
    rw [h.mode, same, h.authored]
  refine ⟨?_, ?_, ?_⟩
  · rw [outcomeFrom_extending, outcomeFrom_extending, out]
  · rw [outcomeFrom_extending, outcomeFrom_extending, out]
    exact h.setAuthored fun closed => by rw [(h.unwritten closed).2, empty]
  · exact (Ensures.extending (R := fun _ _ => True) (Q := fun a _ => Q a) trivial
      fun a authored run => ensures.2 a (by rw [run])).2

variable {pending : ExtensionMap} {r : ExtendRule}

/-- A clear selector is extended by a clear table, the same in both stores, to clear selectors. -/
theorem extendComplex_inBoth (h : Agrees v s s') (hp : IsClearTable v.apart pending) (span : Span)
    (media : Option MediaContext) {c : Complex} (clear : c.IsClearOf v.apart) :
    InBoth v (Storing.extending pending span media (·.extendComplex c)) s s' fun found =>
      ∀ l, found = some l → ∀ d ∈ l, d.IsClearOf v.apart := by
  have hereditary := isHereditary_isClearOf v.isAtomic
  have all := hp.all s.mode s.sources media
  refine extending_inBoth h span (ExtendContext.extendComplex_withSources hereditary all h.agreeOn
    (hereditary.row c clear)) (ExtendContext.extendComplex_staysEmpty c) ?_
  exact (ExtendContext.extendComplex_isMadeOf hereditary all (hereditary.row c clear)
    s.authored).mono fun found _ _ made l hl d hd => hereditary.ofRow d (made l hl d hd)

/-- So is a list. -/
theorem extendList_inBoth (h : Agrees v s s') (hp : IsClearTable v.apart pending) (span : Span)
    (media : Option MediaContext) {l : SelectorList} (clear : ∀ c ∈ l, c.IsClearOf v.apart) :
    InBoth v (Storing.extending pending span media (·.extendList l)) s s' fun found =>
      ∀ l', found = some l' → ∀ c ∈ l', c.IsClearOf v.apart := by
  have hereditary := isHereditary_isClearOf v.isAtomic
  have all := hp.all s.mode s.sources media
  refine extending_inBoth h span
    (ExtendContext.extendList_withSources hereditary all h.agreeOn clear)
    (ExtendContext.extendList_staysEmpty l) ?_
  exact (ExtendContext.extendList_givesFilled hereditary all clear s.authored).mono
    fun found _ _ filled l' hl' => (filled l' hl').2

/-- One more extension for a pair that is there. -/
theorem merge_inBoth {target : Simple} {extender : Complex} {existing e : Extension}
    {a : Extension → α} (h : Agrees v s s') (shown : v.secret target = false)
    (hl : existing.extender.IsClearOf v.apart) (hr : e.extender.IsClearOf v.apart)
    (ha : ∀ merged : Extension, merged.extender.IsClearOf v.apart → Q (a merged)) :
    InBoth v (do
      let merged ← Storing.ofExcept (existing.merge e)
      modify (·.putExtension target extender merged)
      return a merged) s s' Q :=
  (InBoth.ofExcept h fun _ hm => isClearOf_of_merge hm hl hr).bind fun merged _ _ clear h' =>
    .modify_pure (h'.putExtension shown extender clear) (ha merged clear)

/-- The rule has nothing to do with what is behind the veil. -/
structure IsShown (v : Veil) (r : ExtendRule) : Prop where
  target : v.secret r.target = false
  extender : r.extender.IsClearOf v.apart

/-- A shown derived rule. -/
theorem addDerived_inBoth (h : Agrees v s s') (pending : ExtensionMap) (shown : IsShown v r) :
    InBoth v (addDerived pending r) s s' fun found => ∀ r' ∈ found, IsShown v r' := by
  refine InBoth.get_bind (by rw [h.get? shown.target]) ?_
  split
  · rename_i existing found
    split
    · exact .pure h (by simp)
    · exact merge_inBoth h shown.target (h.clear.extensions.of_get? (isFacing_isClearOf _) found)
        shown.extender (by simp)
  · refine .modify_pure ((h.indexRule shown.target shown.extender
      (topSimples_subset_simples r.extender)).putExtension (e := .rule r)
        shown.target _ shown.extender) ?_
    intro r' hr'
    split at hr'
    · exact Option.mem_some.1 hr' ▸ shown
    · cases hr'

/-- A shown rule. -/
theorem addRule_inBoth (h : Agrees v s s') (shown : IsShown v r) :
    InBoth v (addRule r) s s' fun found => ∀ r' ∈ found, IsShown v r' := by
  refine InBoth.get_bind (by rw [h.get? shown.target]) ?_
  split
  · rename_i existing found
    exact merge_inBoth h shown.target (h.clear.extensions.of_get? (isFacing_isClearOf _) found)
      shown.extender (by simp)
  · exact .modify_pure
      (((h.putExtension (e := .rule r) shown.target _ shown.extender).indexRule shown.target
        shown.extender (List.Subset.refl _)).noteSources _)
      fun r' hr' => Option.mem_some.1 hr' ▸ shown

/-- **Extending a rule** that is shown, by extensions that are, gives the same in both stores. -/
theorem extendRule_inBoth (h : Agrees v s s') (hp : IsClearTable v.apart pending)
    (shown : IsShown v r) :
    InBoth v (extendRule pending r) s s' fun added => ∀ r' ∈ added, IsShown v r' := by
  refine (extendComplex_inBoth h hp _ _ shown.extender).bind fun found t t' clear h' => ?_
  split
  · exact .pure h' (List.forall_mem_nil _)
  rename_i found
  have target : t'.extensions.contains r.target = t.extensions.contains r.target := by
    rw [OrderedMap.contains_eq_isSome, OrderedMap.contains_eq_isSome, h'.get? shown.target]
  refine InBoth.get_bind (by rw [target]) ?_
  split
  · exact .pure h' (List.forall_mem_nil _)
  dsimp only
  have others : ∀ c ∈ if found.head?.any (· == r.extender) then found.tail else found,
      IsShown v (r.withExtender c) := by
    intro c hc
    refine ⟨shown.target, clear found rfl c ?_⟩
    split at hc
    · exact List.mem_of_mem_tail hc
    · exact hc
  refine (InBoth.mapM h' fun c hc _ _ h' => addDerived_inBoth h' pending (others c hc)).bind
    fun added t t' hadded h' => ?_
  have rules : ∀ r' ∈ added.filterMap id, IsShown v r' := by
    intro r' hr'
    obtain ⟨found, mem, hr'⟩ := List.mem_filterMap.1 hr'
    exact hadded found mem r' hr'
  split
  · exact .modify_pure (h'.dropExtension shown.target _) rules
  · exact .pure h' rules

end Both

/-! ## Operations that only touch secret extensions -/

section Secret

variable {v : Veil} {s s' : Store} {pending new : ExtensionMap} {r : ExtendRule}

/-- The second store goes on agreeing with the first. -/
def Shields (v : Veil) (s a b : Store) : Prop := Agrees v s a → Agrees v s b

instance reflShields : Std.Refl (Shields v s) := ⟨fun _ => id⟩

instance isTransShields : IsTrans Store (Shields v s) := ⟨fun _ _ _ h h' => h' ∘ h⟩

/-- What adding a derived rule returns is the rule, and it has a pending target. -/
theorem addDerived_returns (pending : ExtensionMap) (r : ExtendRule) :
    Ensures (fun _ _ => True) (addDerived pending r) s fun found _ =>
      ∀ r' ∈ found, r' = r ∧ pending.contains r'.target = true := by
  refine Ensures.get_bind ?_
  split
  · split
    · exact .pure (by simp)
    · exact (Ensures.ofExcept (Q := fun _ _ => True) fun _ _ => trivial).bind
        fun _ _ _ _ => .modify_pure trivial (by simp)
  · refine Ensures.modify_pure trivial ?_
    split
    · rename_i target
      rintro _ ⟨⟩
      exact ⟨rfl, target⟩
    · simp

/-- What extending a rule returns are rules of the same target, if it is pending. -/
theorem extendRule_returns (pending : ExtensionMap) (r : ExtendRule) :
    Ensures (fun _ _ => True) (extendRule pending r) s fun added _ => ∀ r' ∈ added,
      r'.target = r.target ∧ pending.contains r'.target = true := by
  refine (Ensures.extending (R := fun _ _ => True) (Q := fun _ _ => True) trivial
    fun _ _ _ => trivial).bind fun found t _ _ => ?_
  split
  · exact .pure (List.forall_mem_nil _)
  have each : ∀ others : List Complex, Ensures (fun _ _ => True)
      (others.mapM fun c => addDerived pending (r.withExtender c)) t fun added _ =>
      ∀ r' ∈ added.filterMap id, r'.target = r.target ∧ pending.contains r'.target = true := by
    intro others
    refine (Ensures.mapM_forall (P := fun found => ∀ r' ∈ found,
      r'.target = r.target ∧ pending.contains r'.target = true)
      fun c _ _ _ => (addDerived_returns pending _).mono fun found _ _ h r' hr' => ?_).mono
      fun added _ _ h r' hr' => ?_
    · obtain ⟨rfl, target⟩ := h r' hr'
      exact ⟨rfl, target⟩
    · obtain ⟨found, mem, hr'⟩ := List.mem_filterMap.1 hr'
      exact h found mem r' hr'
  refine Ensures.get_bind ?_
  split
  · exact .pure (List.forall_mem_nil _)
  · refine (each _).bind fun added _ _ returned => ?_
    split
    · exact .modify_pure trivial returned
    · exact .pure returned

/-- There are no author-written selectors to be found where something is secret. -/
theorem extending_shields (closed : ¬ v.IsOpen) (extensions : ExtensionMap) (span : Span)
    (media : Option MediaContext) (c : Complex) :
    Ensures (Shields v s) (Storing.extending extensions span media (·.extendComplex c)) s'
      fun _ _ => True := by
  refine .extending (fun h => ?_) fun _ _ _ => trivial
  have empty : s'.authored = [] := h.authored.trans (h.unwritten closed).2
  rw [empty]
  exact { h with authored :=
    (ExtendContext.extendComplex_staysEmpty c).trans (h.unwritten closed).2.symm }

/-- A secret derived rule. -/
theorem addDerived_shields (pending : ExtensionMap) (closed : v.secret r.target = true) :
    Ensures (Shields v s) (addDerived pending r) s' fun _ _ => True := by
  refine Ensures.get_bind ?_
  split
  · split
    · exact .pure trivial
    · exact (Ensures.ofExcept (Q := fun _ _ => True) fun _ _ => trivial).bind
        fun _ _ _ _ => .modify_pure (fun h => h.alter_secret closed _) trivial
  · exact .modify_pure (fun h => (h.indexRule_secret closed _).alter_secret closed _) trivial

/-- Extending a secret rule's extender. -/
theorem extendRule_shields (pending : ExtensionMap) (closed : v.secret r.target = true) :
    Ensures (Shields v s) (extendRule pending r) s' fun _ _ => True := by
  refine (extending_shields (Veil.not_isOpen closed) _ _ _ _).bind fun found t _ _ => ?_
  split
  · exact .pure trivial
  have each : ∀ others : List Complex, Ensures (Shields v s)
      (others.mapM fun c => addDerived pending (r.withExtender c)) t
        fun _ _ => True := fun others =>
    (Ensures.mapM_forall (P := fun _ => True) fun c _ _ _ =>
      addDerived_shields (r := r.withExtender c) pending closed).mono fun _ _ _ _ => trivial
  refine Ensures.get_bind ?_
  split
  · exact .pure trivial
  · refine (each _).bind fun added _ _ _ => ?_
    split
    · exact .modify_pure (fun h => h.alter_secret closed _) trivial
    · exact .pure trivial

/-- Rounds of secret rules touch nothing that is shown; the induction is on the rounds and the
rules. -/
theorem settleWithin_shields (limit : ℕ) : ∀ (n : ℕ) {s' : Store}
    (rules : List ExtendRule) (pending new : ExtensionMap), Agrees v s s' →
    (∀ r ∈ rules, v.secret r.target = true) → (∀ x, pending.contains x = true → v.secret x = true) →
    Ensures (Shields v s) (settleWithin limit n rules pending new) s' fun _ _ => True
  | _, _, [], _, _, _, _, _ => by
    unfold settleWithin
    exact .pure trivial
  | 0, _, _ :: _, _, _, _, _, _ => .throw _
  | n + 1, s', r :: rules, pending, new, h, closed, hp => by
    refine (Ensures.mapM_forall (P := fun added => ∀ r' ∈ added, pending.contains r'.target = true)
      fun r hr _ _ => ((extendRule_shields pending (closed r hr)).and
        (extendRule_returns pending r)).mono
        fun _ _ _ h r' hr' => (h.2 r' hr').2).bind fun added t shields returned => ?_
    have targets : ∀ x, (mapOfRules added.flatten).contains x = true → v.secret x = true := by
      intro x hx
      obtain ⟨r', hr', same⟩ := contains_mapOfRules.1 hx
      obtain ⟨part, mem, hr'⟩ := List.mem_flatten.1 hr'
      exact (v.secret_congr same).symm.trans (hp _ (returned part mem r' hr'))
    dsimp only
    split
    · exact .pure trivial
    refine Ensures.get_bind (settleWithin_shields limit n _ _ _ (shields h) (fun r' hr' => ?_)
      targets)
    obtain ⟨target, mem, hr'⟩ := List.mem_flatMap.1 (List.mem_filter.1 hr').1
    exact (shields h).secret_of_mem (targets target (contains_of_mem_keys mem)) r' hr'

end Secret

end Store

end SelectorAlgebra
