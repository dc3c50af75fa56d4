import Mathlib.Data.Set.Finite.List
import SelectorAlgebra.Proofs.Document

/-!
# Proofs/Containment — what one row matches, another one matches too

A chain is contained in another one exactly when the upper one can be laid into the lower one:
every compound of the upper chain is sent to a compound of the lower chain with the same conditions
or more, the last to the last, and the joints passed over between two of these imply the joint of
the upper chain (`spans`).

    joint       implied by the joints
    descendant  one that goes down, then any
    >           >, then any between siblings
    +           +
    ~           any between siblings

`contains_rowOf_iff` has both directions.  From right to left, a trail of the lower chain is thinned
out to one of the upper chain.  From left to right, `sample` is a document made for the lower chain,
with room around every element that the chain does not tie to its neighbour; its elements with any
conditions at all are the stops of the chain, so a trail through it is a way to lay a chain into
the lower one.
-/

namespace SelectorAlgebra

/-! ## Joints that imply a joint -/

/-- Whether the joint stays among siblings. -/
def Joint.isSideways : Joint → Bool
  | some .nextSibling => true
  | some .followingSibling => true
  | _ => false

/-- Whether joints one after the other imply a single one. -/
def spans : Joint → List Joint → Bool
  | _, [] => false
  | none, j :: _ => !j.isSideways
  | some .child, j :: js => j == some .child && js.all Joint.isSideways
  | some .nextSibling, j :: js => j == some .nextSibling && js.isEmpty
  | some .followingSibling, j :: js => (j :: js).all Joint.isSideways

/-- The links of a chain, laid into the links of another chain from a common start on. -/
def Follows : List Link → List Link → Prop
  | [], lower => lower = []
  | l :: upper, lower => ∃ passed last rest, lower = passed ++ last :: rest ∧
      spans l.joint ((passed ++ [last]).map Link.joint) = true ∧ l.compound ⊆ last.compound ∧
      Follows upper rest

/-- The compound that a chain has come to after some links. -/
def compoundAfter (c : Compound) (links : List Link) : Compound :=
  (links.getLast?.map Link.compound).getD c

@[simp] theorem compoundAfter_nil (c : Compound) : compoundAfter c [] = c := rfl

@[simp] theorem compoundAfter_concat (c : Compound) (links : List Link) (l : Link) :
    compoundAfter c (links ++ [l]) = l.compound := by simp [compoundAfter]

/-- A chain laid into another one. -/
def ChainEmbeds (c : Compound) (upper : List Link) (d : Compound) (lower : List Link) : Prop :=
  ∃ skipped rest, lower = skipped ++ rest ∧ c ⊆ compoundAfter d skipped ∧ Follows upper rest

/-! ## Trails thinned out -/

namespace Document

variable {doc : Document}

/-- Whatever joint leads on from below an element, it stays below. -/
theorem below_of_holds {j : Joint} {e x y : Address} (h : j.Holds x y)
    (below : ∃ way, way ≠ [] ∧ x = way ++ e) : ∃ way, way ≠ [] ∧ y = way ++ e := by
  obtain ⟨way, hne, rfl⟩ := below
  obtain ⟨m, way, rfl⟩ := List.exists_cons_of_ne_nil hne
  match j, h with
  | none, ⟨more, _, hy⟩ => exact ⟨more ++ m :: way, by simp, by simp [hy]⟩
  | some .child, ⟨i, hy⟩ => exact ⟨i :: m :: way, by simp, by simp [hy]⟩
  | some .nextSibling, ⟨i, place, hx, hy⟩ =>
    obtain ⟨rfl, rfl⟩ := List.cons.inj hx
    exact ⟨(m + 1) :: way, by simp, by simp [hy]⟩
  | some .followingSibling, ⟨i, i', place, hx, hy, _⟩ =>
    obtain ⟨rfl, rfl⟩ := List.cons.inj hx
    exact ⟨i' :: way, by simp, by simp [hy]⟩

/-- A trail that starts below `e` stays below it. -/
theorem below_of_trail {e : Address} : ∀ {links : List Link} {x y : Address},
    doc.Trail x links y → (∃ way, way ≠ [] ∧ x = way ++ e) → ∃ way, way ≠ [] ∧ y = way ++ e
  | [], _, _, rfl, below => below
  | _ :: _, _, _, ⟨_, hj, _, h⟩, below => below_of_trail h (below_of_holds hj below)

/-- A joint between siblings leads further along the same row of siblings. -/
theorem sibling_of_holds {j : Joint} (side : j.isSideways = true) {x y : Address}
    (h : j.Holds x y) : ∃ i i' place, x = i :: place ∧ y = i' :: place ∧ i < i' := by
  match j, side, h with
  | some .nextSibling, _, ⟨i, place, hx, hy⟩ => exact ⟨i, i + 1, place, hx, hy, Nat.lt_succ_self i⟩
  | some .followingSibling, _, h => exact h

/-- A trail that only goes sideways ends at a later sibling. -/
theorem sibling_of_trail : ∀ {links : List Link} {i : ℕ} {place y : Address},
    (links.map Link.joint).all Joint.isSideways = true → doc.Trail (i :: place) links y →
      ∃ i', y = i' :: place ∧ i ≤ i'
  | [], i, _, _, _, rfl => ⟨i, rfl, Nat.le_refl i⟩
  | l :: links, i, place, y, side, ⟨next, hj, _, h⟩ => by
    rw [List.map_cons, List.all_cons, Bool.and_eq_true] at side
    obtain ⟨i₀, i₁, place', hx, rfl, lt⟩ := sibling_of_holds side.1 hj
    obtain ⟨rfl, rfl⟩ := List.cons.inj hx
    obtain ⟨i₂, rfl, le⟩ := sibling_of_trail side.2 h
    exact ⟨i₂, rfl, Nat.le_trans (Nat.le_of_lt lt) le⟩

/-- The ends of a trail are joined by whatever its joints imply. -/
theorem holds_of_spans {j : Joint} {links : List Link} {x y : Address}
    (span : spans j (links.map Link.joint) = true) (h : doc.Trail x links y) : j.Holds x y := by
  cases links with
  | nil => cases j <;> simp [spans] at span
  | cons l links =>
    obtain ⟨next, hj, hm, rest⟩ := h
    match j with
    | none =>
      -- the first joint goes down, and nothing leads up again
      have down : l.joint.isSideways = false := by simpa [spans] using span
      refine below_of_trail rest ?_
      match hl : l.joint, down with
      | none, _ => rw [hl] at hj; exact hj
      | some .child, _ =>
        rw [hl] at hj
        obtain ⟨i, rfl⟩ := hj
        exact ⟨[i], by simp, rfl⟩
    | some .child =>
      have parts : l.joint = some .child ∧ (links.map Link.joint).all Joint.isSideways = true := by
        simpa [spans] using span
      rw [parts.1] at hj
      obtain ⟨i, rfl⟩ := hj
      obtain ⟨i', rfl, -⟩ := sibling_of_trail parts.2 rest
      exact ⟨i', rfl⟩
    | some .nextSibling =>
      have parts : l.joint = some .nextSibling ∧ links = [] := by simpa [spans] using span
      obtain ⟨hl, rfl⟩ := parts
      obtain rfl : next = y := rest
      rw [hl] at hj
      exact hj
    | some .followingSibling =>
      have parts : l.joint.isSideways = true ∧
          (links.map Link.joint).all Joint.isSideways = true := by
        simpa [spans] using span
      obtain ⟨i, i', place, rfl, rfl, lt⟩ := sibling_of_holds parts.1 hj
      obtain ⟨i'', rfl, le⟩ := sibling_of_trail parts.2 rest
      exact ⟨i, i'', place, rfl, rfl, Nat.lt_of_lt_of_le lt le⟩

theorem Meets.mono {e : Address} {c d : Compound} (h : doc.Meets e d) (sub : c ⊆ d) :
    doc.Meets e c :=
  ⟨h.1, fun s hs => h.2 s (sub hs)⟩

/-- The element at the end of a nonempty trail meets the last compound. -/
theorem trail_concat {links : List Link} {l : Link} {x y : Address}
    (h : doc.Trail x (links ++ [l]) y) : doc.Meets y l.compound := by
  obtain ⟨_, _, _, _, hm, rfl⟩ := trail_append.1 h
  exact hm

/-- A trail may be thinned out to the links it follows. -/
theorem trail_of_follows : ∀ {upper lower : List Link} {x y : Address},
    Follows upper lower → doc.Trail x lower y → doc.Trail x upper y
  | [], _, _, _, rfl, h => h
  | l :: upper, _, x, y, ⟨passed, last, rest, rfl, span, sub, fol⟩, h => by
    rw [← List.singleton_append, ← List.append_assoc] at h
    obtain ⟨mid, before, after⟩ := trail_append.1 h
    exact ⟨mid, holds_of_spans span before, (trail_concat before).mono sub,
      trail_of_follows fol after⟩

end Document

/-- A chain laid into another contains it, in every document. -/
theorem contains_of_chainEmbeds {c d : Compound} {upper lower : List Link}
    (h : ChainEmbeds c upper d lower) : Contains (rowOf c upper) (rowOf d lower) := by
  intro doc e hmatch
  obtain ⟨skipped, rest, rfl, sub, fol⟩ := h
  obtain ⟨start, hm, trail⟩ := Document.matches_rowOf.1 hmatch
  obtain ⟨mid, before, after⟩ := Document.trail_append.1 trail
  refine Document.matches_rowOf.2 ⟨mid, ?_, Document.trail_of_follows fol after⟩
  rcases List.eq_nil_or_concat skipped with rfl | ⟨links, l, rfl⟩
  · obtain rfl : start = mid := before
    exact hm.mono sub
  · rw [List.concat_eq_append] at before sub
    rw [compoundAfter_concat] at sub
    exact (Document.trail_concat before).mono sub

/-! ## A document made for a chain -/

/-- Where the next element stands in the sample: right where the joint ties it, or one step further
off if it does not. -/
def Joint.next : Joint → Address → Address
  | none, e => 0 :: 0 :: e
  | some .child, e => 0 :: e
  | some .nextSibling, i :: place => (i + 1) :: place
  | some .followingSibling, i :: place => (i + 2) :: place
  | _, [] => []

/-- Where a chain of links leads from an address in the sample. -/
def stopFrom (e : Address) (links : List Link) : Address :=
  links.foldl (fun e l => l.joint.next e) e

/-- The address of the element for the last compound of a chain. -/
def stop (links : List Link) : Address := stopFrom [0] links

@[simp] theorem stopFrom_nil (e : Address) : stopFrom e [] = e := rfl

@[simp] theorem stopFrom_cons (e : Address) (l : Link) (links : List Link) :
    stopFrom e (l :: links) = stopFrom (l.joint.next e) links := rfl

theorem stopFrom_append (e : Address) (links links' : List Link) :
    stopFrom e (links ++ links') = stopFrom (stopFrom e links) links' := List.foldl_append ..

theorem stop_append (links links' : List Link) :
    stop (links ++ links') = stopFrom (stop links) links' := stopFrom_append ..

/-- One joint leads on: down, or to a later sibling. -/
theorem Joint.next_cons (j : Joint) (i : ℕ) (place : Address) :
    (j.isSideways = false ∧ ∃ m way, j.next (i :: place) = m :: way ++ i :: place) ∨
      (j.isSideways = true ∧ ∃ i', i < i' ∧ j.next (i :: place) = i' :: place) := by
  match j with
  | none => exact .inl ⟨rfl, 0, [0], rfl⟩
  | some .child => exact .inl ⟨rfl, 0, [], rfl⟩
  | some .nextSibling => exact .inr ⟨rfl, i + 1, by omega, rfl⟩
  | some .followingSibling => exact .inr ⟨rfl, i + 2, by omega, rfl⟩

/-- **Stops come in the order of the document**: links lead to a later sibling, or below the element
or a later sibling. -/
theorem stopFrom_cons_eq (l : Link) (links : List Link) (i : ℕ) (place : Address) :
    ∃ way i', stopFrom (i :: place) (l :: links) = way ++ i' :: place ∧
      (i < i' ∨ (i = i' ∧ way ≠ [])) := by
  induction links generalizing l i place with
  | nil =>
    rcases l.joint.next_cons i place with ⟨-, m, way, h⟩ | ⟨-, i', lt, h⟩
    · exact ⟨m :: way, i, h, .inr ⟨rfl, by simp⟩⟩
    · exact ⟨[], i', h, .inl lt⟩
  | cons l' links ih =>
    rw [stopFrom_cons]
    rcases l.joint.next_cons i place with ⟨-, m, way, h⟩ | ⟨-, i', lt, h⟩
    · obtain ⟨way', m', h', -⟩ := ih l' m (way ++ i :: place)
      exact ⟨way' ++ m' :: way, i, by rw [h, List.cons_append, h']; simp, .inr ⟨rfl, by simp⟩⟩
    · obtain ⟨way', i'', h', le⟩ := ih l' i' place
      exact ⟨way', i'', by rw [h, h'], .inl (by omega)⟩

/-- From any element the stops stay at or below a later sibling. -/
theorem stopFrom_eq (links : List Link) (i : ℕ) (place : Address) :
    ∃ way i', stopFrom (i :: place) links = way ++ i' :: place ∧ i ≤ i' := by
  cases links with
  | nil => exact ⟨[], i, rfl, Nat.le_refl i⟩
  | cons l links =>
    obtain ⟨way, i', h, order⟩ := stopFrom_cons_eq l links i place
    exact ⟨way, i', h, by omega⟩

theorem stop_ne_nil (links : List Link) : ∃ i place, stop links = i :: place := by
  obtain ⟨way, i', h, -⟩ := stopFrom_eq links 0 []
  cases way with
  | nil => exact ⟨i', [], h⟩
  | cons m way => exact ⟨m, way ++ [i'], h⟩

/-- Two addresses that end in the same place and one more position agree in that position. -/
theorem eq_of_append_cons_eq (way way' : Address) {place : Address} {i i' : ℕ}
    (h : way ++ i :: place = way' ++ i' :: place) : way = way' ∧ i = i' := by
  obtain ⟨rfl, tail⟩ := List.append_inj' h (by simp)
  exact ⟨rfl, (List.cons.inj tail).1⟩

/-- Links that lead back to where they start are none. -/
theorem eq_nil_of_stopFrom_eq {links : List Link} {i : ℕ} {place : Address}
    (h : stopFrom (i :: place) links = i :: place) : links = [] := by
  cases links with
  | nil => rfl
  | cons l links =>
    obtain ⟨way, i', hs, order⟩ := stopFrom_cons_eq l links i place
    obtain ⟨hw, hi⟩ := eq_of_append_cons_eq [] way (h.symm.trans hs)
    rcases order with lt | ⟨-, hne⟩
    · exact absurd hi (Nat.ne_of_lt lt)
    · exact absurd hw.symm hne

/-- No joint leads back from a stop to an earlier one, or to itself. -/
theorem not_holds_stopFrom {j : Joint} (links : List Link) {i : ℕ} {place : Address} :
    ¬ j.Holds (stopFrom (i :: place) links) (i :: place) := by
  intro h
  obtain ⟨way, i', hs, le⟩ := stopFrom_eq links i place
  rw [hs] at h
  match j, h with
  | none, ⟨more, hne, he⟩ =>
    have := congrArg List.length he
    have := List.length_pos_of_ne_nil hne
    simp only [List.length_append, List.length_cons] at *
    omega
  | some .child, ⟨m, he⟩ =>
    have := congrArg List.length he
    simp only [List.length_append, List.length_cons] at *
    omega
  | some .nextSibling, ⟨m, p, he, he'⟩ =>
    obtain ⟨rfl, rfl⟩ := List.cons.inj he'
    obtain ⟨-, rfl⟩ := eq_of_append_cons_eq way [] he
    omega
  | some .followingSibling, ⟨m, m', p, he, he', lt⟩ =>
    obtain ⟨rfl, rfl⟩ := List.cons.inj he'
    obtain ⟨-, rfl⟩ := eq_of_append_cons_eq way [] he
    omega

/-- Links that lead to a sibling stay among siblings. -/
theorem sideways_of_stopFrom {links : List Link} {i m : ℕ} {place : Address}
    (h : stopFrom (i :: place) links = m :: place) :
    (links.map Link.joint).all Joint.isSideways = true := by
  induction links generalizing i with
  | nil => rfl
  | cons l links ih =>
    rw [stopFrom_cons] at h
    rcases l.joint.next_cons i place with ⟨-, m', way, hn⟩ | ⟨side, i', -, hn⟩
    · -- below the element, addresses are longer
      rw [hn, List.cons_append] at h
      obtain ⟨way', i'', hs, -⟩ := stopFrom_eq links m' (way ++ i :: place)
      have len := congrArg List.length (hs.symm.trans h)
      simp only [List.length_append, List.length_cons] at len
      omega
    · rw [hn] at h
      rw [List.map_cons, List.all_cons, side, ih h]
      rfl

/-- If a first joint stays among siblings, the links do not lead below the element. -/
theorem not_sideways_of_stopFrom {l : Link} {links : List Link} {i : ℕ} {place : Address}
    (way : Address) (h : stopFrom (i :: place) (l :: links) = way ++ i :: place) :
    l.joint.isSideways = false := by
  rcases l.joint.next_cons i place with ⟨down, -⟩ | ⟨-, i', lt, hn⟩
  · exact down
  · rw [stopFrom_cons, hn] at h
    obtain ⟨way', i'', hs, le⟩ := stopFrom_eq links i' place
    obtain ⟨-, hi⟩ := eq_of_append_cons_eq way' way (hs.symm.trans h)
    omega

/-- **Joints between two stops imply every joint that holds between them.** -/
theorem spans_of_holds {j : Joint} {links : List Link} {i : ℕ} {place : Address}
    (h : j.Holds (i :: place) (stopFrom (i :: place) links)) :
    spans j (links.map Link.joint) = true := by
  cases links with
  | nil => exact absurd h (not_holds_stopFrom [])
  | cons l links =>
    match j, h with
    | none, ⟨way, _, hs⟩ => simp [spans, not_sideways_of_stopFrom way hs]
    | some .child, ⟨m, hs⟩ =>
      have down := not_sideways_of_stopFrom [m] hs
      match hl : l.joint, down with
      | none, _ =>
        rw [stopFrom_cons, hl] at hs
        obtain ⟨way, i', hs', -⟩ := stopFrom_eq links 0 (0 :: i :: place)
        have len := congrArg List.length (hs'.symm.trans hs)
        simp only [List.length_append, List.length_cons] at len
        omega
      | some .child, _ =>
        rw [stopFrom_cons, hl] at hs
        have side := @sideways_of_stopFrom links 0 m (i :: place) hs
        rw [List.map_cons, hl, spans, side]
        rfl
    | some .nextSibling, ⟨m, p, he, hs⟩ =>
      obtain ⟨rfl, rfl⟩ := List.cons.inj he
      have side := sideways_of_stopFrom hs
      rw [List.map_cons, List.all_cons, Bool.and_eq_true] at side
      match hl : l.joint, side.1 with
      | some .nextSibling, _ =>
        rw [stopFrom_cons, hl] at hs
        obtain rfl := eq_nil_of_stopFrom_eq hs
        rw [List.map_cons, hl]
        rfl
      | some .followingSibling, _ =>
        rw [stopFrom_cons, hl] at hs
        obtain ⟨way, i', hs', le⟩ := stopFrom_eq links (i + 2) place
        obtain ⟨-, rfl⟩ := eq_of_append_cons_eq way [] (hs'.symm.trans hs)
        omega
    | some .followingSibling, ⟨m, m', p, he, hs, _⟩ =>
      obtain ⟨rfl, rfl⟩ := List.cons.inj he
      exact sideways_of_stopFrom hs

/-! ## The sample contains only what is laid into the chain -/

/-- Addresses of at most `n` positions, all below `n`. -/
def boundedAddresses (n : ℕ) : Set Address := {e | e ≠ [] ∧ e.length ≤ n ∧ ∀ i ∈ e, i < n}

theorem finite_boundedAddresses (n : ℕ) : (boundedAddresses n).Finite := by
  refine ((List.finite_length_le (Fin n) n).image (List.map Fin.val)).subset ?_
  rintro e ⟨-, len, lt⟩
  exact ⟨e.pmap Fin.mk lt, by simpa using len, by simp [List.map_pmap]⟩

/-- One link widens the bound by two. -/
theorem Joint.next_mem_bounded (j : Joint) {n i : ℕ} {place : Address}
    (h : i :: place ∈ boundedAddresses n) : j.next (i :: place) ∈ boundedAddresses (n + 2) := by
  obtain ⟨-, len, lt⟩ := h
  have hi : i < n := lt i List.mem_cons_self
  have rest : ∀ m ∈ place, m < n + 2 :=
    fun m hm => Nat.lt_add_right 2 (lt m (List.mem_cons_of_mem i hm))
  rw [List.length_cons] at len
  rcases j with _ | _ | _ | _ <;> refine ⟨by simp [Joint.next], ?_, ?_⟩
  all_goals simp only [Joint.next, List.length_cons, List.forall_mem_cons]
  all_goals first
    | omega
    | exact ⟨by omega, rest⟩
    | exact ⟨by omega, by omega, rest⟩
    | exact ⟨by omega, by omega, by omega, rest⟩

/-- A chain widens it by two for each link, so a sample document is finite. -/
theorem stopFrom_mem_bounded (links : List Link) {n i : ℕ} {place : Address}
    (h : i :: place ∈ boundedAddresses n) :
    stopFrom (i :: place) links ∈ boundedAddresses (n + 2 * links.length) := by
  induction links generalizing n i place with
  | nil => exact h
  | cons l links ih =>
    have next := l.joint.next_mem_bounded h
    obtain ⟨m, place', hmp⟩ := List.exists_cons_of_ne_nil next.1
    rw [hmp] at next
    rw [stopFrom_cons, hmp, List.length_cons, Nat.mul_succ, Nat.add_comm (2 * _) 2, ← Nat.add_assoc]
    exact ih next

/-- A document made for a chain: its stops have the conditions of the chain's compounds, and the
elements around them have none. -/
def sample (c : Compound) (links : List Link) : Document where
  elements := boundedAddresses (1 + 2 * links.length)
  finite := finite_boundedAddresses _
  nil_notMem h := h.1 rfl
  parent_mem := fun ⟨_, len, lt⟩ hne => ⟨hne, Nat.le_of_succ_le len, fun m hm =>
    lt m (List.mem_cons_of_mem _ hm)⟩
  previous_mem := fun ⟨_, len, lt⟩ => by
    rw [List.forall_mem_cons] at lt
    exact ⟨List.cons_ne_nil _ _, len, List.forall_mem_cons.2 ⟨by omega, lt.2⟩⟩
  traits e := {s | ∃ before after, links = before ++ after ∧ e = stop before ∧
    s ∈ compoundAfter c before}

theorem stop_mem_sample (c : Compound) {links before after : List Link}
    (h : links = before ++ after) : stop before ∈ (sample c links).elements := by
  have mem : stop before ∈ boundedAddresses (1 + 2 * before.length) :=
    stopFrom_mem_bounded before ⟨by simp, by simp, by simp⟩
  have len := congrArg List.length h
  rw [List.length_append] at len
  exact ⟨mem.1, by have := mem.2.1; omega, fun i hi => by have := mem.2.2 i hi; omega⟩

/-- The stop of a part meets the compound the part ends in. -/
theorem meets_sample {c : Compound} {links before after : List Link}
    (h : links = before ++ after) :
    (sample c links).Meets (stop before) (compoundAfter c before) :=
  ⟨stop_mem_sample c h, fun _ hs => ⟨before, after, h, rfl, hs⟩⟩

theorem Joint.holds_next (j : Joint) (i : ℕ) (place : Address) :
    j.Holds (i :: place) (j.next (i :: place)) := by
  match j with
  | none => exact ⟨[0, 0], by simp, rfl⟩
  | some .child => exact ⟨0, rfl⟩
  | some .nextSibling => exact ⟨i, place, rfl, rfl⟩
  | some .followingSibling => exact ⟨i, i + 2, place, rfl, rfl, by omega⟩

/-- The sample has a trail of its own chain. -/
theorem trail_sample {c : Compound} {links : List Link} :
    ∀ {after before : List Link}, links = before ++ after →
      (sample c links).Trail (stop before) after (stop links)
  | [], before, h => by rw [h, List.append_nil]; rfl
  | l :: after, before, h => by
    have h' : links = (before ++ [l]) ++ after := by rw [h, List.append_assoc]; rfl
    obtain ⟨i, place, hs⟩ := stop_ne_nil before
    have step : stop (before ++ [l]) = l.joint.next (stop before) := stop_append before [l]
    have met := meets_sample (c := c) h'
    rw [compoundAfter_concat] at met
    refine ⟨stop (before ++ [l]), ?_, met, trail_sample h'⟩
    rw [step, hs]
    exact l.joint.holds_next i place

/-- One of two beginnings of a chain is a beginning of the other. -/
theorem prefix_cases {links before after before' after' : List Link} (h : links = before ++ after)
    (h' : links = before' ++ after') :
    (∃ passed, before' = before ++ passed ∧ after = passed ++ after') ∨
      ∃ passed, before = before' ++ passed := by
  rcases List.append_eq_append_iff.1 (h.symm.trans h') with ⟨passed, hb, ha⟩ | ⟨passed, hb, -⟩
  · exact .inl ⟨passed, hb, ha⟩
  · exact .inr ⟨passed, hb⟩

/-- Different parts of a chain stop at different elements. -/
theorem eq_of_stop_eq {links before after before' after' : List Link} (h : links = before ++ after)
    (h' : links = before' ++ after') (same : stop before = stop before') : before = before' := by
  obtain ⟨i, place, hs⟩ := stop_ne_nil before
  obtain ⟨i', place', hs'⟩ := stop_ne_nil before'
  rcases prefix_cases h h' with ⟨passed, rfl, -⟩ | ⟨passed, rfl⟩
  · rw [stop_append, hs] at same
    rw [eq_nil_of_stopFrom_eq same.symm, List.append_nil]
  · rw [stop_append, hs'] at same
    rw [eq_nil_of_stopFrom_eq same, List.append_nil]

/-- An element of the sample with any conditions is a stop. -/
theorem exists_stop_of_meets {c d : Compound} {links : List Link} {e : Address} (hne : d ≠ [])
    (h : (sample c links).Meets e d) :
    ∃ before after, links = before ++ after ∧ e = stop before ∧ d ⊆ compoundAfter c before := by
  obtain ⟨s, rest, rfl⟩ := List.exists_cons_of_ne_nil hne
  obtain ⟨before, after, hl, rfl, -⟩ := h.2 s List.mem_cons_self
  refine ⟨before, after, hl, rfl, fun t ht => ?_⟩
  obtain ⟨before', after', hl', same, ht'⟩ := h.2 t ht
  rwa [eq_of_stop_eq hl hl' same]

/-- **A trail through the sample is laid into its chain.** -/
theorem follows_of_trail {c : Compound} {links : List Link} : ∀ {upper before after : List Link},
    (∀ l ∈ upper, l.compound ≠ []) → links = before ++ after →
      (sample c links).Trail (stop before) upper (stop links) → Follows upper after
  | [], before, after, _, h, trail => by
    obtain ⟨i, place, hs⟩ := stop_ne_nil before
    have back : stopFrom (i :: place) after = i :: place := by
      rw [← hs, ← stop_append, ← h]
      exact trail.symm
    exact eq_nil_of_stopFrom_eq back
  | l :: upper, before, after, hne, h, ⟨next, hj, hm, trail⟩ => by
    rw [List.forall_mem_cons] at hne
    obtain ⟨before', after', h', rfl, sub⟩ := exists_stop_of_meets hne.1 hm
    have fol : Follows upper after' := follows_of_trail hne.2 h' trail
    rcases prefix_cases h h' with ⟨passed, rfl, rfl⟩ | ⟨passed, rfl⟩
    · obtain ⟨i, place, hs⟩ := stop_ne_nil before
      rw [stop_append, hs] at hj
      have span := spans_of_holds hj
      rcases List.eq_nil_or_concat passed with rfl | ⟨init, last, rfl⟩
      · cases l.joint <;> simp [spans] at span
      · rw [List.concat_eq_append] at span sub ⊢
        rw [← List.append_assoc, compoundAfter_concat] at sub
        exact ⟨init, last, after', by simp, span, sub, fol⟩
    · -- the trail would lead back
      obtain ⟨i, place, hs⟩ := stop_ne_nil before'
      rw [stop_append, hs] at hj
      exact absurd hj (not_holds_stopFrom passed)

/-- **Containment of chains is the existence of a way to lay one into the other.** -/
theorem contains_rowOf_iff {c d : Compound} {upper lower : List Link} (hc : c ≠ [])
    (hu : ∀ l ∈ upper, l.compound ≠ []) :
    Contains (rowOf c upper) (rowOf d lower) ↔ ChainEmbeds c upper d lower := by
  refine ⟨fun contains => ?_, contains_of_chainEmbeds⟩
  have own : (sample d lower).Matches (rowOf d lower) (stop lower) :=
    Document.matches_rowOf.2 ⟨stop [], @meets_sample d lower [] lower rfl, trail_sample rfl⟩
  obtain ⟨start, hm, trail⟩ := Document.matches_rowOf.1 (contains _ _ own)
  obtain ⟨skipped, rest, hl, rfl, sub⟩ := exists_stop_of_meets hc hm
  exact ⟨skipped, rest, hl, sub, follows_of_trail hu hl trail⟩

end SelectorAlgebra
