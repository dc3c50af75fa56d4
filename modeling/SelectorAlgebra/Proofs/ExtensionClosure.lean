import Mathlib.Logic.Equiv.Basic
import Mathlib.Order.Bounds.Basic
import SelectorAlgebra.Proofs.LoneUpdate

/-!
# Proofs/ExtensionClosure — style sheets of lone selectors, in any order

A style sheet of lone selectors is a list of statements: a rule with its selectors, or a rule
extending a condition.  An extending rule extends by whatever its selector is at that moment.  Two
theorems in one (`isLeast_conditions_run`):

* each rule ends up with the least set of conditions that has its own and, with every target, those
  that a rule extending it was written with;
* so the order of the statements does not matter, up to the numbers of the rules.

The engine is the invariant `Settled`: after each statement the store is closed (`Store.IsClosed`),
it has what the statements ask for, and it has nothing that some set they allow leaves out.
-/

namespace SelectorAlgebra.Store

/-! ## Style sheets -/

/-- A statement of a style sheet. -/
inductive Statement where
  /-- A rule with its selectors. -/
  | rule (l : SelectorList) (span : Span)
  /-- Rule `q`, as it is then, extends `target`. -/
  | extend (q : ℕ) (extenderSpan : Span) (target : Simple) (span : Span) (optional : Bool)

/-- What a statement does; the result is the number of the rule, if it is one. -/
def Statement.operation : Statement → Storing (List ℕ)
  | .rule l span => do return [← addSelector l span none]
  | .extend q extenderSpan target span optional => do
    match (← get).selector? q with
    | none => return []
    | some extender =>
      addExtension extender extenderSpan target span none optional
      return []

/-- All statements one after the other, up to the first that fails; the result has the
numbers of the rules. -/
def run : List Statement → Storing (List ℕ)
  | [] => return []
  | statement :: rest => do return (← statement.operation) ++ (← run rest)

/-- The selectors that the rules were written with. -/
def rulesOf (sheet : List Statement) : List SelectorList :=
  sheet.filterMap fun
    | .rule l _ => some l
    | .extend .. => none

/-- The pairs of an extending rule and its target. -/
def pairsOf (sheet : List Statement) : List (ℕ × Simple) :=
  sheet.filterMap fun
    | .rule .. => none
    | .extend q _ target _ _ => some (q, target)

/-- After `n` rules, all selectors are lone, no target has an argument, and only rules that are
there already extend. -/
def IsAdmissible : ℕ → List Statement → Prop
  | _, [] => True
  | n, .rule l _ :: rest => AreLone l ∧ IsAdmissible (n + 1) rest
  | n, .extend q _ target _ _ :: rest => q < n ∧ target.argument? = none ∧ IsAdmissible n rest

/-! ## Closed sets of conditions -/

/-- The conditions that occur in a selector, if there is one. -/
def conditions (l : Option SelectorList) : Set Simple :=
  { x | ∃ value, l = some value ∧ (SelectorList.simples value).contains x = true }

/-- With each target, the set has the conditions of the rules that extend it. -/
def IsExtensionClosed (rules : List SelectorList) (pairs : List (ℕ × Simple)) (X : Set Simple) :
    Prop :=
  ∀ x ∈ X, ∀ p ∈ pairs, (p.2 == x) = true → conditions rules[p.1]? ⊆ X

/-- Fewer rules and fewer pairs ask for less. -/
theorem IsExtensionClosed.mono {rules rules' : List SelectorList} {pairs pairs' : List (ℕ × Simple)}
    {X : Set Simple} (h : IsExtensionClosed rules' pairs' X)
    (hr : ∀ id : ℕ, conditions rules[id]? ⊆ conditions rules'[id]?) (hp : pairs ⊆ pairs') :
    IsExtensionClosed rules pairs X :=
  fun x hx p mem same => (hr p.1).trans (h x hx p (hp mem) same)

theorem mem_conditions_of_lone {l : SelectorList} (hl : AreLone l) (x : Simple) :
    x ∈ conditions (some l) ↔ l.contains (lone x) = true := by
  simp [conditions, contains_simples_lone hl]

/-- The conditions of a stored selector are those the store has for it. -/
theorem IsLoneStore.mem_conditions {s : Store} (h : IsLoneStore s) (id : ℕ) (x : Simple) :
    x ∈ conditions (s.selector? id) ↔ s.Has id x := by
  unfold selector? Has
  rcases hs : s.slots[id]? with _ | slot
  · simp [conditions]
  · rw [Option.map_some, mem_conditions_of_lone (h.slots slot (List.mem_of_getElem? hs)).2]
    simp

/-- A new rule has its own number; the others keep their conditions. -/
theorem conditions_concat {rules : List SelectorList} {l : SelectorList} (hl : AreLone l) (id : ℕ)
    (x : Simple) : x ∈ conditions (rules ++ [l])[id]? ↔
      x ∈ conditions rules[id]? ∨ id = rules.length ∧ l.contains (lone x) = true := by
  rcases Nat.lt_trichotomy id rules.length with lt | rfl | gt
  · simp [List.getElem?_append_left lt, Nat.ne_of_lt lt]
  · rw [List.getElem?_concat_length, mem_conditions_of_lone hl]
    simp [conditions]
  · have empty : (rules ++ [l])[id]? = none := by
      rw [List.getElem?_eq_none_iff, List.length_append]
      exact gt
    simp [empty, List.getElem?_eq_none (Nat.le_of_lt gt), Nat.ne_of_gt gt, conditions]

/-! ## What holds after each statement -/

/-- The store is closed, it has what the statements so far ask for, and only what every closed set
has. -/
structure Settled (rules : List SelectorList) (pairs : List (ℕ × Simple)) (s : Store) : Prop where
  closed : IsClosed s
  count : s.count = rules.length
  earlier : ∀ p ∈ pairs, p.1 < rules.length
  written : ∀ {id : ℕ} {x : Simple}, x ∈ conditions rules[id]? → s.Has id x
  linked : ∀ {p : ℕ × Simple} {x y : Simple}, p ∈ pairs → (p.2 == x) = true →
    y ∈ conditions rules[p.1]? → Extends s.extensions x y
  extends_sound : ∀ {x y : Simple}, Extends s.extensions x y → ∀ {X : Set Simple},
    IsExtensionClosed rules pairs X → x ∈ X → y ∈ X
  has_sound : ∀ {id : ℕ} {x : Simple}, s.Has id x → ∀ {X : Set Simple},
    IsExtensionClosed rules pairs X → conditions rules[id]? ⊆ X → x ∈ X

section Statements

variable {s s' : Store} {rules : List SelectorList} {pairs : List (ℕ × Simple)}

theorem settled_empty (limit : ℕ) : Settled [] [] (.empty .normal (limit + 1)) := by
  have has : ∀ id x, ¬ (Store.empty .normal (limit + 1)).Has id x := by
    rintro id x ⟨slot, hs, -⟩
    simp [Store.empty] at hs
  refine ⟨⟨⟨rfl, Nat.succ_pos limit, fun slot mem => absurd mem List.not_mem_nil,
    fun entry mem => absurd mem List.not_mem_nil, fun h => absurd h (has _ _),
    fun h => absurd h not_extends_empty, fun r mem => absurd mem List.not_mem_nil⟩,
    fun h => absurd h not_extends_empty, fun h => absurd h (has _ _)⟩, rfl,
    by simp, by simp [conditions], by simp,
    fun h => absurd h not_extends_empty, fun h => absurd h (has _ _)⟩

/-- A new rule that is extended by what is known leaves the store closed. -/
theorem IsClosed.registers (h : IsClosed s) {l : SelectorList} (hr : Registers s s' l) :
    IsClosed s' := by
  refine ⟨hr.isLone, ?_, fun {id x y} hx hy => ?_⟩
  · rw [hr.extensions]
    exact h.trans
  · rw [hr.extensions] at hy
    rw [hr.has_iff] at hx ⊢
    rcases hx with hx | ⟨here, hx | ⟨z, hz, hx⟩⟩
    · exact .inl (h.has hx hy)
    · exact .inr ⟨here, .inr ⟨x, hx, hy⟩⟩
    · exact .inr ⟨here, .inr ⟨z, hz, h.trans hx hy⟩⟩

theorem Settled.registers (h : Settled rules pairs s) {l : SelectorList} (hl : AreLone l)
    (hr : Registers s s' l) : Settled (rules ++ [l]) pairs s' := by
  have grow : ∀ id, conditions rules[id]? ⊆ conditions (rules ++ [l])[id]? :=
    fun id x hx => (conditions_concat hl id x).2 (.inl hx)
  have length : (rules ++ [l]).length = rules.length + 1 := by simp
  refine ⟨h.closed.registers hr, by rw [hr.count, h.count, length],
    fun p mem => by rw [length]; exact Nat.lt_succ_of_lt (h.earlier p mem), fun {id x} hx => ?_,
    fun {p x y} mem same hy => ?_, fun {x y} hxy X hX hx => ?_, fun {id x} hx X hX hid => ?_⟩
  · rw [hr.has_iff, h.count]
    exact ((conditions_concat hl id x).1 hx).imp h.written fun ⟨here, hx⟩ => ⟨here, .inl hx⟩
  · rw [hr.extensions]
    refine h.linked mem same (((conditions_concat hl p.1 y).1 hy).resolve_right ?_)
    exact fun here => absurd here.1 (Nat.ne_of_lt (h.earlier p mem))
  · rw [hr.extensions] at hxy
    exact h.extends_sound hxy (hX.mono grow (List.Subset.refl _)) hx
  · have hX' := hX.mono grow (List.Subset.refl _)
    rw [hr.has_iff, h.count] at hx
    rcases hx with hx | ⟨here, hx⟩
    · exact h.has_sound hx hX' ((grow id).trans hid)
    · have own : ∀ z, l.contains (lone z) = true → z ∈ X := fun z hz =>
        hid ((conditions_concat hl id z).2 (.inr ⟨here, hz⟩))
      rcases hx with hx | ⟨z, hz, hx⟩
      · exact own x hx
      · exact h.extends_sound hx hX' (own z hz)

/-- A new extension, carried through to what its extender extends, leaves the store closed. -/
theorem IsClosed.links (h : IsClosed s) {q : ℕ} {t : Simple} {v : SelectorList}
    (hv : ∀ y, v.contains (lone y) = true ↔ s.Has q y) (hl : Links s s' t v) : IsClosed s' := by
  have along : ∀ {x y}, s.Has q x → Extends s'.extensions x y → s.Has q y := by
    intro x y hx hxy
    rw [hl.extends_iff, hv] at hxy
    exact hxy.elim (h.has hx) And.right
  refine ⟨hl.isLone, fun {x y z} hxy hyz => ?_, fun {id x y} hx hxy => ?_⟩
  · rw [hl.extends_iff x y, hv] at hxy
    rcases hxy with hxy | ⟨hx, hy⟩
    · rw [hl.extends_iff] at hyz ⊢
      refine hyz.imp (h.trans hxy) (And.imp_left ?_)
      rintro (same | hyt)
      · exact .inr (hxy.congr_right (BEq.symm same))
      · exact .inr (h.trans hxy hyt)
    · rw [hl.extends_iff, hv]
      exact .inr ⟨hx, along hy hyz⟩
  · rw [hl.has_iff, hv] at hx
    rcases hx with hx | ⟨ht, hx⟩
    · rw [hl.extends_iff] at hxy
      rw [hl.has_iff]
      refine hxy.imp (h.has hx) (And.imp_left ?_)
      rintro (same | hxt)
      · exact hx.congr (BEq.symm same)
      · exact h.has hx hxt
    · rw [hl.has_iff, hv]
      exact .inr ⟨ht, along hx hxy⟩

theorem Settled.links (h : Settled rules pairs s) {q : ℕ} {t : Simple} {v : SelectorList}
    (hq : q < rules.length) (hv : ∀ y, v.contains (lone y) = true ↔ s.Has q y)
    (hl : Links s s' t v) : Settled rules (pairs ++ [(q, t)]) s' := by
  have old : ∀ {X}, IsExtensionClosed rules (pairs ++ [(q, t)]) X →
    IsExtensionClosed rules pairs X :=
    fun hX => hX.mono (fun _ => Set.Subset.rfl) (List.subset_append_left _ _)
  -- a closed set with the target has all that the extending rule has
  have reached : ∀ {X x y}, IsExtensionClosed rules (pairs ++ [(q, t)]) X → x ∈ X →
      (t == x) = true → v.contains (lone y) = true → y ∈ X := by
    intro X x y hX hx same hy
    exact h.has_sound ((hv y).1 hy) (old hX) (hX x hx (q, t) (by simp) same)
  refine ⟨h.closed.links hv hl, hl.count.trans h.count,
    List.forall_mem_append.2 ⟨h.earlier, by simpa using hq⟩,
    fun hx => (hl.has_iff _ _).2 (.inl (h.written hx)), fun {p x y} mem same hy => ?_,
    fun {x y} hxy X hX hx => ?_, fun {id x} hx X hX hid => ?_⟩
  · rw [hl.extends_iff]
    rcases List.mem_append.1 mem with mem | mem
    · exact .inl (h.linked mem same hy)
    · obtain rfl := List.mem_singleton.1 mem
      exact .inr ⟨.inl same, (hv y).2 (h.written hy)⟩
  · rw [hl.extends_iff] at hxy
    rcases hxy with hxy | ⟨same | hxt, hy⟩
    · exact h.extends_sound hxy (old hX) hx
    · exact reached hX hx same hy
    · exact reached hX (h.extends_sound hxt (old hX) hx) BEq.rfl hy
  · rw [hl.has_iff] at hx
    rcases hx with hx | ⟨ht, hx⟩
    · exact h.has_sound hx (old hX) hid
    · exact reached hX (h.has_sound ht (old hX) hid) BEq.rfl hx

theorem Settled.rule (h : Settled rules pairs s) {l : SelectorList} (hl : AreLone l) (span : Span) :
    Yields (Statement.rule l span).operation s fun ids s' =>
      ids = [rules.length] ∧ Settled (rules ++ [l]) pairs s' :=
  (addSelector_lone h.closed.isLone hl span).bind fun id s' ⟨hid, hr⟩ =>
    .pure ⟨by rw [hid, h.count], h.registers hl hr⟩

/-- An extension, run in a settled store. -/
theorem Settled.extend (h : Settled rules pairs s) {q : ℕ} (hq : q < rules.length) (t : Simple)
    (extenderSpan span : Span) (optional : Bool) :
    Yields (Statement.extend q extenderSpan t span optional).operation s fun ids s' =>
      ids = [] ∧ Settled rules (pairs ++ [(q, t)]) s' := by
  refine Yields.get_bind ?_
  have there : q < s.slots.length := Nat.lt_of_lt_of_eq hq h.count.symm
  have hslot := List.getElem?_eq_getElem there
  rw [selector?, hslot]
  exact (addExtension_lone h.closed (h.closed.isLone.slots _ (List.getElem_mem there)).2
    extenderSpan span optional).bind fun _ s' hl =>
      .pure ⟨rfl, h.links hq (fun y => (has_iff_of_slot hslot y).symm) hl⟩

/-- Whatever the statements are, the store is settled after them. -/
theorem run_settled (sheet : List Statement) (h : Settled rules pairs s)
    (ha : IsAdmissible rules.length sheet) :
    Yields (run sheet) s fun ids s' => ids = List.range' rules.length (rulesOf sheet).length ∧
      Settled (rules ++ rulesOf sheet) (pairs ++ pairsOf sheet) s' := by
  induction sheet generalizing rules pairs s with
  | nil => exact .pure ⟨rfl, by simpa [rulesOf, pairsOf] using h⟩
  | cons statement rest ih =>
    match statement, ha with
    | .rule l span, ⟨hl, ha⟩ =>
      refine (h.rule hl span).bind fun ids s₁ ⟨hids, h₁⟩ => ?_
      refine (ih h₁ (by simpa using ha)).bind fun ids' s₂ ⟨hids', h₂⟩ => .pure ⟨?_, ?_⟩
      · simp [hids, hids', rulesOf, List.range'_succ]
      · simpa [rulesOf, pairsOf] using h₂
    | .extend q extenderSpan t span optional, ⟨hq, _, ha⟩ =>
      refine (h.extend hq t extenderSpan span optional).bind fun ids s₁ ⟨hids, h₁⟩ => ?_
      refine (ih h₁ ha).bind fun ids' s₂ ⟨hids', h₂⟩ => .pure ⟨?_, ?_⟩
      · simp [hids, hids', rulesOf]
      · simpa [rulesOf, pairsOf] using h₂

/-- What a settled store has for a rule is the least closed set with the rule's own conditions. -/
theorem Settled.isLeast (h : Settled rules pairs s) (id : ℕ) :
    IsLeast { X | conditions rules[id]? ⊆ X ∧ IsExtensionClosed rules pairs X }
      (conditions (s.selector? id)) := by
  have same := h.closed.isLone.mem_conditions id
  refine ⟨⟨fun x hx => (same x).2 (h.written hx), fun x hx p mem target y hy => ?_⟩,
    fun X ⟨hid, hX⟩ x hx => h.has_sound ((same x).1 hx) hX hid⟩
  exact (same y).2 (h.closed.has ((same x).1 hx) (h.linked mem target hy))

end Statements

/-! ## Any order -/

/-- The store after a style sheet. -/
def after (limit : ℕ) (sheet : List Statement) : Store :=
  (outcomeFrom (run sheet) (.empty .normal limit)).2

/-- The closed sets are the same after a renumbering of the rules. -/
theorem isExtensionClosed_renumbered {rules rules' : List SelectorList}
    {pairs pairs' : List (ℕ × Simple)} (σ : ℕ ≃ ℕ) (hr : ∀ id, rules'[σ id]? = rules[id]?)
    (hp : ∀ q t, (σ q, t) ∈ pairs' ↔ (q, t) ∈ pairs) (X : Set Simple) :
    IsExtensionClosed rules' pairs' X ↔ IsExtensionClosed rules pairs X := by
  constructor
  · rintro h x hx ⟨q, t⟩ mem same
    rw [← hr]
    exact h x hx (σ q, t) ((hp q t).2 mem) same
  · rintro h x hx ⟨q, t⟩ mem same
    obtain ⟨q, rfl⟩ := σ.surjective q
    rw [hr]
    exact h x hx (q, t) ((hp q t).1 mem) same

/-- **The extension graph is closed, in any order.**  No statement fails, the rules are numbered as
they come, and each ends up with the least set of conditions that has its own and is closed under
the extensions.  The same rules and extensions in another order give the same sets. -/
theorem isLeast_conditions_run (limit : ℕ) (sheet : List Statement) (h : IsAdmissible 0 sheet) :
    (outcomeFrom (run sheet) (.empty .normal (limit + 1))).1
        = .ok (List.range (rulesOf sheet).length) ∧
    (∀ id, IsLeast { X | conditions (rulesOf sheet)[id]? ⊆ X ∧
        IsExtensionClosed (rulesOf sheet) (pairsOf sheet) X }
      (conditions ((after (limit + 1) sheet).selector? id))) ∧
    ∀ (sheet' : List Statement) (σ : ℕ ≃ ℕ), IsAdmissible 0 sheet' →
      (∀ id, (rulesOf sheet')[σ id]? = (rulesOf sheet)[id]?) →
      (∀ q t, (σ q, t) ∈ pairsOf sheet' ↔ (q, t) ∈ pairsOf sheet) →
      ∀ id, conditions ((after (limit + 1) sheet').selector? (σ id))
        = conditions ((after (limit + 1) sheet).selector? id) := by
  have settled : ∀ sheet, IsAdmissible 0 sheet →
      (outcomeFrom (run sheet) (.empty .normal (limit + 1))).1
          = .ok (List.range (rulesOf sheet).length) ∧
        Settled (rulesOf sheet) (pairsOf sheet) (after (limit + 1) sheet) := by
    intro sheet h
    obtain ⟨ids, s, hrun, hids, hs⟩ := run_settled sheet (settled_empty limit) h
    rw [after, hrun]
    exact ⟨by rw [hids, List.range_eq_range']; rfl, hs⟩
  obtain ⟨ok, hs⟩ := settled sheet h
  refine ⟨ok, hs.isLeast, fun sheet' σ h' hr hp id => ?_⟩
  have least := (settled sheet' h').2.isLeast (σ id)
  rw [hr] at least
  simp only [isExtensionClosed_renumbered σ hr hp] at least
  exact least.unique (hs.isLeast id)

/-- `.a` and `.b` extend each other and `.a` extends itself, before and after `.b` is there. -/
theorem isLeast_conditions_run_cycle :
    let a : Simple := .className "a"
    let b : Simple := .className "b"
    let extend := fun q target => Statement.extend q default target default false
    let sheet :=
      [.rule [lone a] default, extend 0 a, extend 0 b, .rule [lone b] default, extend 1 a]
    let sheet' :=
      [.rule [lone b] default, .rule [lone a] default, extend 0 a, extend 1 b, extend 1 a]
    IsAdmissible 0 sheet ∧ IsAdmissible 0 sheet' ∧
      (outcomeFrom (run sheet) (.empty .normal 1)).1 = .ok [0, 1] ∧
      IsLeast { X | conditions (some [lone b]) ⊆ X ∧
          IsExtensionClosed [[lone a], [lone b]] [(0, a), (0, b), (1, a)] X }
        (conditions ((after 1 sheet).selector? 1)) ∧
      conditions ((after 1 sheet').selector? 0) = conditions ((after 1 sheet).selector? 1) := by
  intro a b extend sheet sheet'
  have areLone : ∀ name, AreLone [lone (.className name)] := fun name =>
    List.forall_mem_singleton.2 ⟨.className name, rfl, rfl⟩
  have admissible : IsAdmissible 0 sheet :=
    ⟨areLone "a", by decide, rfl, by decide, rfl, areLone "b", by decide, rfl, trivial⟩
  have admissible' : IsAdmissible 0 sheet' :=
    ⟨areLone "b", areLone "a", by decide, rfl, by decide, rfl, by decide, rfl, trivial⟩
  obtain ⟨ok, least, order⟩ := isLeast_conditions_run 0 sheet admissible
  refine ⟨admissible, admissible', ok, least 1, order sheet' (Equiv.swap 0 1) admissible' ?_ ?_ 1⟩
  · rintro (_ | _ | id)
    · rfl
    · rfl
    · rw [Equiv.swap_apply_of_ne_of_ne (by simp) (by simp)]
      rfl
  · rintro (_ | _ | q) t
    · show (1, t) ∈ [(0, a), (1, b), (1, a)] ↔ (0, t) ∈ [(0, a), (0, b), (1, a)]
      simp [or_comm]
    · show (0, t) ∈ [(0, a), (1, b), (1, a)] ↔ (1, t) ∈ [(0, a), (0, b), (1, a)]
      simp
    · rw [Equiv.swap_apply_of_ne_of_ne (by simp) (by simp)]
      show (q + 2, t) ∈ [(0, a), (1, b), (1, a)] ↔ (q + 2, t) ∈ [(0, a), (0, b), (1, a)]
      simp

end SelectorAlgebra.Store
