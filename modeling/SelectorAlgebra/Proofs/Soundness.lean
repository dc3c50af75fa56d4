import SelectorAlgebra.Proofs.Walk

/-!
# Proofs/Soundness — when a yes of the superselector relation is certain

A yes is meant to say that in every document the upper row matches all that the lower row matches.
For rows of classes, ids and element names:

* `itemsSuperselector_sound_iff` — a yes is certain exactly when the combinators of the upper row
  stand at its end (`combinatorsAtEnd`).  Any other row is also said to be above some row that it
  does not contain; a yes for it is right exactly when it can be laid into the lower row.
* `itemsSuperselector_unsound_grandparent` — `.a > .b .c` is said to be above `.a > .x > .b .c`.

The engine is that the walk looks for the place of a compound as far down the lower row as it likes,
whatever combinator stands before it.  Only the last compound is kept from that, and with it the
last but one if a combinator ties the two (`eq_singleton_of_walk`).  Everywhere else a stranger fits
between a combinator and its compound (`unsound_intruded`).
-/

namespace SelectorAlgebra

/-! ## Basic rows -/

/-- Whether this is a class, an id or an element name without namespace. -/
def Simple.isBasic : Simple → Bool
  | .className _ => true
  | .idName _ => true
  | .type name => name.ns.isNone
  | _ => false

/-- A compound of classes, ids and element names. -/
def Compound.IsBasic (c : Compound) : Prop := c ≠ [] ∧ ∀ s ∈ c, Simple.isBasic s = true

/-- A row of such compounds, with combinators only between them. -/
def IsBasicRow (row : List Item) : Prop :=
  isMisplaced 0 row = false ∧ ∀ c, Item.compound c ∈ row → Compound.IsBasic c

/-- A chain of such compounds. -/
def IsBasicChain (c : Compound) (links : List Link) : Prop :=
  Compound.IsBasic c ∧ ∀ l ∈ links, Compound.IsBasic l.compound

/-- A basic row is a chain of basic compounds. -/
theorem IsBasicRow.exists_chain {row : List Item} (h : IsBasicRow row) :
    ∃ c links, row = rowOf c links ∧ IsBasicChain c links := by
  obtain ⟨c, links, rfl⟩ := exists_rowOf h.1
  exact ⟨c, links, rfl, h.2 c (mem_rowOf.2 (.inl rfl)), fun l hl =>
    h.2 l.compound (mem_rowOf.2 (.inr ⟨l, hl, rfl⟩))⟩

namespace IsBasicChain

variable {c : Compound} {links links' : List Link} {l : Link}

theorem take (h : IsBasicChain c (links ++ links')) : IsBasicChain c links :=
  ⟨h.1, fun l hl => h.2 l (List.mem_append_left _ hl)⟩

theorem drop (h : IsBasicChain c (links ++ l :: links')) : IsBasicChain l.compound links' :=
  ⟨h.2 l (by simp), fun l' hl' => h.2 l' (by simp [hl'])⟩

theorem tail (h : IsBasicChain c (l :: links)) : IsBasicChain l.compound links :=
  ⟨h.2 l (by simp), fun l' hl' => h.2 l' (by simp [hl'])⟩

/-- The compound a basic chain ends in is basic. -/
theorem after (h : IsBasicChain c links) : Compound.IsBasic (compoundAfter c links) := by
  rcases List.eq_nil_or_concat links with rfl | ⟨init, last, rfl⟩
  · exact h.1
  · rw [List.concat_eq_append, compoundAfter_concat]
    exact h.2 last (by simp)

theorem hasRepeatedCombinator_rowOf : ∀ (c : Compound) (links : List Link),
    hasRepeatedCombinator (rowOf c links) = false
  | _, [] => rfl
  | _, ⟨none, d⟩ :: links => hasRepeatedCombinator_rowOf d links
  | _, ⟨some k, d⟩ :: links => by
    obtain ⟨row, hrow⟩ := rowOf_eq_cons d links
    have rest := hasRepeatedCombinator_rowOf d links
    rw [hrow] at rest
    rw [rowOf, hrow]
    exact rest

/-- Rows of chains are in place. -/
theorem isMisplaced_rowOf (c : Compound) (links : List Link) :
    isMisplaced 0 (rowOf c links) = false := by
  obtain ⟨row, hrow⟩ := rowOf_eq_cons c links
  have first : (rowOf c links).takeWhile Item.isCombinator = [] := by rw [hrow]; rfl
  have long : ¬ 0 = (rowOf c links).length := Nat.ne_of_lt (length_rowOf_pos c links)
  simp [isMisplaced, first, long, getLast?_rowOf, hasRepeatedCombinator_rowOf, Item.isCombinator]

theorem isBasicRow (h : IsBasicChain c links) : IsBasicRow (rowOf c links) := by
  refine ⟨isMisplaced_rowOf c links, fun d hd => ?_⟩
  rcases mem_rowOf.1 hd with rfl | ⟨l, hl, rfl⟩
  · exact h.1
  · exact h.2 l hl

end IsBasicChain

theorem Simple.isSelfContained_of_isBasic {s : Simple} (h : s.isBasic = true) :
    s.isSelfContained = true := by
  cases s <;> first | rfl | cases h

/-- Basic conditions have nothing that equality ignores. -/
theorem Simple.beq_iff_eq_of_isBasic {s t : Simple} (h : s.isBasic = true) :
    (s == t) = true ↔ s = t := by
  rw [Simple.beq_iff]
  rcases s with _ | _ | _ | _ | _ | _ | _ | _ <;> first | cases h | skip
  all_goals rcases t with _ | _ | _ | _ | _ | _ | _ | ⟨_, _, _ | _⟩ <;> simp [Simple.canonical]

/-- Among basic compounds, to cover is to ask for a part. -/
theorem covers_iff_subset {sup : ItemsRelation} {c d : Compound} {parents : List Item}
    (hc : Compound.IsBasic c) (hd : Compound.IsBasic d) :
    covers sup c d parents = true ↔ c ⊆ d := by
  rw [covers_eq_all (fun s hs => Simple.isSelfContained_of_isBasic (hc.2 s hs))
    (fun s hs => Simple.isSelfContained_of_isBasic (hd.2 s hs)), List.all_eq_true]
  refine forall₂_congr fun s hs => ?_
  rw [List.contains_eq_any_beq, List.any_eq_true]
  simp only [Simple.beq_iff_eq_of_isBasic (hc.2 s hs)]
  exact ⟨fun ⟨t, ht, h⟩ => h ▸ ht, fun h => ⟨s, h, rfl⟩⟩

/-- On rows of chains the relation is the walk. -/
theorem itemsSuperselector_rowOf (c d : Compound) (upper lower : List Link) :
    itemsSuperselector (rowOf c upper) (rowOf d lower)
      = walk (covers itemsSuperselector) (rowOf c upper) (rowOf d lower) := by
  rw [itemsSuperselector_eq, rowCovers, getLast?_rowOf, getLast?_rowOf]
  rfl

/-! ## Rows for which a yes is certain -/

/-- Whether every combinator of the row stands right before the last compound, or before the last
but one with a combinator on its other side too. -/
def combinatorsAtEnd : List Item → Bool
  | [.combinator _, .compound _] => true
  | [.combinator _, .compound _, .combinator _, .compound _] => true
  | .combinator _ :: _ => false
  | .compound _ :: row => combinatorsAtEnd row
  | [] => true

/-- One row laid into another one. -/
def RowEmbeds (upper lower : List Item) : Prop :=
  ∃ c us d ls, upper = rowOf c us ∧ lower = rowOf d ls ∧ ChainEmbeds c us d ls

theorem follows_cons_one {u l : Link} {upper rest : List Link}
    (span : spans u.joint [l.joint] = true) (sub : u.compound ⊆ l.compound)
    (fol : Follows upper rest) : Follows (u :: upper) (l :: rest) :=
  ⟨[], l, rest, rfl, span, sub, fol⟩

/-- A link is followed by a stretch of links whose joints it spans. -/
theorem follows_cons {u l : Link} {upper passed rest : List Link}
    (span : spans u.joint ((l :: passed).map Link.joint) = true)
    (sub : u.compound ⊆ compoundAfter l.compound passed) (fol : Follows upper rest) :
    Follows (u :: upper) (l :: (passed ++ rest)) := by
  rcases List.eq_nil_or_concat passed with rfl | ⟨init, last, rfl⟩
  · exact follows_cons_one span sub fol
  · rw [List.concat_eq_append] at span sub ⊢
    rw [compoundAfter_concat] at sub
    exact ⟨l :: init, last, rest, by simp, span, sub, fol⟩

/-- A descendant may be reached by any number of links. -/
theorem spans_none_cons {j : Joint} (js : List Joint) (h : spans none [j] = true) :
    spans none (j :: js) = true := h

section Certain

variable {sup : ItemsRelation}

/-- What covers the last compound has only conditions that it has too. -/
theorem subset_of_coversLast {c d : Compound} {lower : List Link} (hc : Compound.IsBasic c)
    (hd : IsBasicChain d lower) (h : coversLast (covers sup) c (rowOf d lower) = true) :
    c ⊆ compoundAfter d lower := by
  rw [coversLast, getLast?_rowOf, Bool.and_eq_true] at h
  exact (covers_iff_subset hc hd.after).1 h.2

/-- What a step of a walk that says yes has found in a basic row. -/
theorem exists_of_walk_basic {c d : Compound} {u : Link} {upper lower : List Link}
    (hc : Compound.IsBasic c) (hd : IsBasicChain d lower)
    (h : walk (covers sup) (rowOf c (u :: upper)) (rowOf d lower) = true) :
    ∃ skipped l links, lower = skipped ++ l :: links ∧ c ⊆ compoundAfter d skipped ∧
      spans u.joint [l.joint] = true ∧
      (u.joint.isSome = true → upper = [] → (rowOf d lower).length ≤ 3) ∧
      IsBasicChain l.compound links ∧
      walk (covers sup) (rowOf u.compound upper) (rowOf l.compound links) = true := by
  obtain ⟨skipped, l, links, rfl, ⟨parents, acc⟩, span, last, rest⟩ := exists_of_walk h
  exact ⟨skipped, l, links, rfl, (covers_iff_subset hc hd.take.after).1 acc, span, last, hd.drop,
    rest⟩

/-- Behind a combinator, the last compound takes no more than the next one: nothing is skipped. -/
theorem eq_singleton_of_walk {c c' d : Compound} {k : Combinator} {lower : List Link}
    (hc : Compound.IsBasic c) (hc' : Compound.IsBasic c') (hd : IsBasicChain d lower)
    (h : walk (covers sup) (rowOf c [⟨some k, c'⟩]) (rowOf d lower) = true) :
    ∃ l, lower = [l] ∧ c ⊆ d ∧ spans (some k) [l.joint] = true ∧ c' ⊆ l.compound := by
  obtain ⟨skipped, l, links, rfl, sub, span, short, hl, rest⟩ := exists_of_walk_basic hc hd h
  have len := short rfl rfl
  have wide : l.width = 2 := by
    obtain ⟨joint, e⟩ := l
    cases joint with
    | none => cases k <;> simp [spans, Joint.isSideways] at span
    | some k' => rfl
  rw [length_rowOf, List.map_append, List.sum_append, List.map_cons, List.sum_cons, wide] at len
  have none_of_sum : ∀ {ls : List Link}, (ls.map Link.width).sum = 0 → ls = [] := by
    intro ls h0
    cases ls with
    | nil => rfl
    | cons l' ls =>
      have := l'.one_le_width
      rw [List.map_cons, List.sum_cons] at h0
      omega
  obtain rfl : skipped = [] := none_of_sum (by omega)
  obtain rfl : links = [] := none_of_sum (by omega)
  rw [walk_rowOf_nil] at rest
  exact ⟨l, rfl, sub, span, subset_of_coversLast hc' hl rest⟩

/-- **A yes lays the upper chain into the lower one**, if the combinators of the upper
chain stand at its end. -/
theorem chainEmbeds_of_walk : ∀ {upper : List Link} {c d : Compound} {lower : List Link},
    combinatorsAtEnd (rowOf c upper) = true → IsBasicChain c upper → IsBasicChain d lower →
    walk (covers sup) (rowOf c upper) (rowOf d lower) = true → ChainEmbeds c upper d lower
  | [], c, d, lower, _, hc, hd, h => by
    rw [walk_rowOf_nil] at h
    exact ⟨lower, [], by simp, subset_of_coversLast hc.1 hd h, rfl⟩
  | ⟨none, c'⟩ :: upper, c, d, lower, atEnd, hc, hd, h => by
    obtain ⟨skipped, l, links, rfl, sub, span, -, hl, rest⟩ := exists_of_walk_basic hc.1 hd h
    have atEnd' : combinatorsAtEnd (rowOf c' upper) = true := atEnd
    obtain ⟨passed, links', rfl, sub', fol⟩ := chainEmbeds_of_walk atEnd' hc.tail hl rest
    exact ⟨skipped, l :: (passed ++ links'), rfl, sub,
      follows_cons (spans_none_cons _ span) sub' fol⟩
  | [⟨some k, c'⟩], c, d, lower, _, hc, hd, h => by
    obtain ⟨l, rfl, sub, span, sub'⟩ := eq_singleton_of_walk hc.1 hc.tail.1 hd h
    exact ⟨[], [l], rfl, sub, follows_cons_one span sub' rfl⟩
  | [⟨some k, c'⟩, ⟨some k', c''⟩], c, d, lower, _, hc, hd, h => by
    have hc' : IsBasicChain c' [⟨some k', c''⟩] := hc.tail
    obtain ⟨skipped, l, links, rfl, sub, span, -, hl, rest⟩ := exists_of_walk_basic hc.1 hd h
    obtain ⟨l', rfl, sub', span', sub''⟩ :=
      eq_singleton_of_walk hc'.1 hc'.tail.1 hl rest
    exact ⟨skipped, [l, l'], rfl, sub, follows_cons_one span sub'
      (follows_cons_one span' sub'' rfl)⟩
  | ⟨some k, c'⟩ :: ⟨none, c''⟩ :: upper, c, d, lower, atEnd, _, _, _ => by
    obtain ⟨row, hrow⟩ := rowOf_eq_cons c'' upper
    simp [rowOf, hrow, combinatorsAtEnd] at atEnd
  | ⟨some k, c'⟩ :: ⟨some k', c''⟩ :: ⟨joint, c₃⟩ :: upper, c, d, lower, atEnd, _, _, _ => by
    obtain ⟨row, hrow⟩ := rowOf_eq_cons c₃ upper
    cases joint <;> simp [rowOf, hrow, combinatorsAtEnd] at atEnd

end Certain

/-! ## Rows for which it is not

A combinator that does not stand at the end of the upper row lets a stranger in: the lower row that
has one more element behind the combinator is still said to be below, although it is not. -/

/-- Behind the links `before`, a combinator ties a stranger instead of the compound `d`, which
follows as its child. -/
def intruded (before : List Link) (k : Combinator) (stranger d : Compound) (after : List Link) :
    List Link :=
  before ++ ⟨some k, stranger⟩ :: ⟨some .child, d⟩ :: after

/-- A chain follows no shorter one. -/
theorem length_le_of_follows : ∀ {upper lower : List Link},
    Follows upper lower → upper.length ≤ lower.length
  | [], _, _ => Nat.zero_le _
  | u :: upper, _, ⟨passed, last, rest, rfl, _, _, fol⟩ => by
    have := length_le_of_follows fol
    simp only [List.length_append, List.length_cons]
    omega

/-- A link that no compound of the upper chain can be sent to is passed over. -/
theorem length_lt_of_follows {stranger : Compound} {joint : Joint} :
    ∀ {upper before after : List Link}, (∀ u ∈ upper, ¬ u.compound ⊆ stranger) →
      Follows upper (before ++ ⟨joint, stranger⟩ :: after) →
        upper.length < (before ++ (⟨joint, stranger⟩ : Link) :: after).length
  | [], before, after, _, _ => by
    rw [List.length_append, List.length_cons]
    exact Nat.succ_pos _
  | u :: upper, before, after, strange, ⟨passed, last, rest, split, _, sub, fol⟩ => by
    rw [List.forall_mem_cons] at strange
    rcases List.append_eq_append_iff.1 split with ⟨mid, rfl, hmid⟩ | ⟨mid, rfl, hmid⟩
    · -- the stranger is the last link of this segment, or lies before it
      cases mid with
      | nil =>
        obtain ⟨rfl, -⟩ := List.cons.inj hmid
        exact absurd sub strange.1
      | cons l mid =>
        have le := length_le_of_follows fol
        have len := congrArg List.length hmid
        simp only [List.length_append, List.length_cons] at len ⊢
        omega
    · -- …or after it
      cases mid with
      | nil =>
        obtain ⟨rfl, -⟩ := List.cons.inj hmid
        exact absurd sub strange.1
      | cons l mid =>
        obtain ⟨rfl, rfl⟩ := List.cons.inj hmid
        have := length_lt_of_follows strange.2 fol
        simp only [List.length_append, List.length_cons] at this ⊢
        omega

section Intruded

variable {stranger d : Compound} {k : Combinator} {after : List Link}

/-- No combinator is spanned by itself with a `>` behind it. -/
theorem not_spans_intruded (js : List Joint) :
    spans (some k) (some k :: some .child :: js) = false := by
  cases k <;> rfl

theorem length_intruded (before : List Link) :
    (intruded before k stranger d after).length
      = (before ++ (⟨some k, d⟩ : Link) :: after).length + 1 := by
  simp only [intruded, List.length_append, List.length_cons]
  omega

/-- A chain with a stranger in it has room for no other link that is passed over. -/
theorem not_follows_tail_intruded {before passed rest : List Link} {last : Link}
    (strange : ∀ u ∈ before ++ ⟨some k, d⟩ :: after, ¬ u.compound ⊆ stranger)
    (hlast : last.compound ≠ stranger)
    (split : intruded before k stranger d after = passed ++ last :: rest) :
    ¬ Follows (before ++ ⟨some k, d⟩ :: after) rest := by
  intro fol
  have le := length_le_of_follows fol
  have len := congrArg List.length split
  have whole := @length_intruded stranger d k after before
  simp only [List.length_append, List.length_cons] at len whole le
  obtain rfl : passed = [] := List.eq_nil_of_length_eq_zero (by omega)
  rw [List.nil_append] at split
  cases before with
  | nil => exact hlast (congrArg Link.compound (List.cons.inj split).1.symm)
  | cons b before =>
    obtain ⟨-, rfl⟩ := List.cons.inj (show b :: intruded before k stranger d after = _ from split)
    have lt := length_lt_of_follows strange fol
    simp only [List.length_append, List.length_cons] at lt
    omega

/-- **With a stranger behind a combinator, the chain is not laid into the longer one**: it would
have to pass over the stranger there. -/
theorem not_follows_intruded : ∀ {before : List Link},
    (∀ u ∈ before ++ ⟨some k, d⟩ :: after, ¬ u.compound ⊆ stranger) →
      ¬ Follows (before ++ ⟨some k, d⟩ :: after) (intruded before k stranger d after)
  | [], strange, ⟨[], last, rest, split, _, sub, _⟩ => by
    obtain ⟨rfl, -⟩ := List.cons.inj (show _ = last :: rest from split)
    exact strange _ List.mem_cons_self sub
  | [], _, ⟨[l], last, rest, split, span, _, _⟩ => by
    -- whatever the segment is, a child joint comes right after the combinator
    obtain ⟨rfl, tail⟩ := List.cons.inj (show _ = l :: last :: rest from split)
    obtain ⟨rfl, -⟩ := List.cons.inj tail
    exact Bool.false_ne_true ((not_spans_intruded []).symm.trans span)
  | [], _, ⟨l :: l' :: passed, last, rest, split, span, _, _⟩ => by
    obtain ⟨rfl, tail⟩ := List.cons.inj (show _ = l :: l' :: (passed ++ last :: rest) from split)
    obtain ⟨rfl, -⟩ := List.cons.inj tail
    exact Bool.false_ne_true ((not_spans_intruded _).symm.trans span)
  | b :: before, strange, ⟨[], last, rest, split, _, _, fol⟩ => by
    obtain ⟨-, rfl⟩ := List.cons.inj
      (show b :: intruded before k stranger d after = last :: rest from split)
    exact not_follows_intruded (fun u hu => strange u (List.mem_cons_of_mem b hu)) fol
  | b :: before, strange, ⟨l :: passed, last, rest, split, _, sub, fol⟩ => by
    obtain ⟨-, tail⟩ := List.cons.inj
      (show b :: intruded before k stranger d after = l :: (passed ++ last :: rest) from split)
    refine not_follows_tail_intruded (fun u hu => strange u (List.mem_cons_of_mem b hu)) ?_ tail fol
    rintro rfl
    exact strange b List.mem_cons_self sub

/-- …nor is any chain that begins the same way. -/
theorem not_chainEmbeds_intruded {c : Compound} {before : List Link} (hc : ¬ c ⊆ stranger)
    (strange : ∀ u ∈ before ++ ⟨some k, d⟩ :: after, ¬ u.compound ⊆ stranger) :
    ¬ ChainEmbeds c (before ++ ⟨some k, d⟩ :: after) c (intruded before k stranger d after) := by
  rintro ⟨skipped, rest, split, sub, fol⟩
  rcases List.eq_nil_or_concat skipped with rfl | ⟨init, last, rfl⟩
  · rw [List.nil_append] at split
    exact not_follows_intruded strange (split ▸ fol)
  · rw [List.concat_eq_append, compoundAfter_concat] at sub
    rw [List.concat_eq_append, List.append_assoc] at split
    refine not_follows_tail_intruded strange ?_ split fol
    rintro rfl
    exact hc sub

/-- **…but the walk says yes.** -/
theorem walk_intruded {sup : ItemsRelation} (hs : Compound.IsBasic stranger)
    (hd : ¬ d ⊆ stranger) (loose : after ≠ []) (loose' : ∀ k' e, after ≠ [⟨some k', e⟩]) :
    ∀ {before : List Link} {c : Compound}, IsBasicChain c (before ++ ⟨some k, d⟩ :: after) →
      walk (covers sup) (rowOf c (before ++ ⟨some k, d⟩ :: after))
        (rowOf c (intruded before k stranger d after)) = true
  | [], c, h => by
    obtain ⟨a, after, rfl⟩ := List.exists_cons_of_ne_nil loose
    have hself : ∀ {e : Compound}, Compound.IsBasic e → ∀ parents, covers sup e e parents = true :=
      fun he _ => (covers_iff_subset he he).2 (List.Subset.refl _)
    have refuse : covers sup d stranger [] = false :=
      Bool.eq_false_iff.2 fun acc => hd ((covers_iff_subset h.tail.1 hs).1 acc)
    rw [List.nil_append, intruded, List.nil_append, walk_same_head (hself h.1 [])
      (by rw [length_rowOf_cons stranger]; exact Nat.le_add_left _ _)
      (fun empty => absurd empty loose)]
    obtain ⟨parents, skip⟩ := @firstAccepted_cons_of_refuse (covers sup d) [] stranger
      ⟨some .child, d⟩ (a :: after) refuse
    rw [firstAccepted_cons_of_accept (hself h.tail.1 parents)] at skip
    rw [walk_rowOf_cons skip, spans_self, walk_self (hself h.tail.tail.1)
      (fun l hl => hself (h.tail.tail.2 l hl)), length_rowOf_cons stranger,
      decide_eq_true (Nat.le_add_left _ _)]
    -- the compound behind the stranger is neither the last one nor tied to the last one
    cases ha : a.joint with
    | none => rfl
    | some k' =>
      cases after with
      | nil =>
        exact absurd (congrArg (fun j => [(⟨j, a.compound⟩ : Link)]) ha) (loose' k' a.compound)
      | cons l after => rfl
  | b :: before, c, h => by
    have len : (rowOf b.compound (before ++ ⟨some k, d⟩ :: after)).length
        ≤ (rowOf b.compound (intruded before k stranger d after)).length := by
      rw [length_rowOf, length_rowOf, intruded]
      simp only [List.map_append, List.sum_append, List.map_cons, List.sum_cons, Link.width]
      omega
    have hself : covers sup c c [] = true := (covers_iff_subset h.1 h.1).2 (List.Subset.refl _)
    rw [List.cons_append, show intruded (b :: before) k stranger d after
      = ⟨b.joint, b.compound⟩ :: intruded before k stranger d after from rfl,
      walk_same_head hself len (fun empty => by simp at empty)]
    exact walk_intruded hs hd loose loose' h.tail

/-- A chain with a loose combinator is said to be above one that it does not contain. -/
theorem unsound_intruded (c : Compound) (before : List Link) (k : Combinator)
    (stranger d : Compound) (after : List Link)
    (h : IsBasicChain c (before ++ ⟨some k, d⟩ :: after)) (hs : Compound.IsBasic stranger)
    (hc : ¬ c ⊆ stranger) (strange : ∀ u ∈ before ++ ⟨some k, d⟩ :: after, ¬ u.compound ⊆ stranger)
    (loose : after ≠ []) (loose' : ∀ k' e, after ≠ [⟨some k', e⟩]) :
    itemsSuperselector (rowOf c (before ++ ⟨some k, d⟩ :: after))
        (rowOf c (intruded before k stranger d after)) = true ∧
      ¬ Contains (rowOf c (before ++ ⟨some k, d⟩ :: after))
        (rowOf c (intruded before k stranger d after)) := by
  rw [itemsSuperselector_rowOf, contains_rowOf_iff h.1.1 fun l hl => (h.2 l hl).1]
  exact ⟨walk_intruded hs (strange ⟨some k, d⟩ (by simp)) loose loose' h,
    not_chainEmbeds_intruded hc strange⟩

end Intruded

/-- A row whose combinators do not all stand at its end has one with more behind it. -/
theorem exists_loose_combinator : ∀ {links : List Link} {c : Compound},
    combinatorsAtEnd (rowOf c links) = false →
      ∃ before k d after, links = before ++ ⟨some k, d⟩ :: after ∧ after ≠ [] ∧
        ∀ k' e, after ≠ [⟨some k', e⟩]
  | [], _, h => by cases h
  | ⟨none, d⟩ :: links, _, h => by
    have h' : combinatorsAtEnd (rowOf d links) = false := h
    obtain ⟨before, k, e, after, rfl, loose⟩ := exists_loose_combinator h'
    exact ⟨⟨none, d⟩ :: before, k, e, after, rfl, loose⟩
  | [⟨some _, _⟩], _, h => by cases h
  | [⟨some _, _⟩, ⟨some _, _⟩], _, h => by cases h
  | ⟨some k, d⟩ :: ⟨none, e⟩ :: links, _, _ => ⟨[], k, d, _, rfl, by simp, by simp⟩
  | ⟨some k, d⟩ :: ⟨some _, _⟩ :: l :: links, _, _ => ⟨[], k, d, _, rfl, by simp, by simp⟩

/-- Some class is mentioned nowhere in a list of compounds. -/
theorem exists_unmentioned_class (cs : List Compound) :
    ∃ name, ∀ c ∈ cs, Simple.className name ∉ c := by
  have infinite : (Set.range Simple.className).Infinite :=
    Set.infinite_range_of_injective fun _ _ h => Simple.className.inj h
  obtain ⟨s, ⟨name, rfl⟩, hs⟩ := infinite.exists_notMem_finite (List.finite_toSet cs.flatten)
  exact ⟨name, fun c hc hn => hs (List.mem_flatten.2 ⟨c, hc, hn⟩)⟩

/-- A row with a loose combinator is said to be above a row that it does not contain. -/
theorem exists_unsound {c : Compound} {links : List Link} (h : IsBasicChain c links)
    (loose : combinatorsAtEnd (rowOf c links) = false) :
    ∃ lower, IsBasicRow lower ∧ itemsSuperselector (rowOf c links) lower = true ∧
      ¬ Contains (rowOf c links) lower := by
  obtain ⟨before, k, d, after, rfl, hne, hne'⟩ := exists_loose_combinator loose
  obtain ⟨name, unmentioned⟩ := exists_unmentioned_class
    (c :: (before ++ ⟨some k, d⟩ :: after).map Link.compound)
  rw [List.forall_mem_cons, List.forall_mem_map] at unmentioned
  have basic : Compound.IsBasic [.className name] := ⟨by simp, by simp [Simple.isBasic]⟩
  -- a part of the stranger is nothing or the stranger
  have strange : ∀ {e : Compound}, Compound.IsBasic e → Simple.className name ∉ e →
      ¬ e ⊆ [.className name] := by
    intro e he hn sub
    obtain ⟨s, rest, rfl⟩ := List.exists_cons_of_ne_nil he.1
    obtain rfl := List.mem_singleton.1 (sub List.mem_cons_self)
    exact hn List.mem_cons_self
  have hlinks : ∀ u ∈ before ++ ⟨some k, d⟩ :: after, ¬ u.compound ⊆ [.className name] :=
    fun u hu => strange (h.2 u hu) (unmentioned.2 u hu)
  have hlower : IsBasicChain c (intruded before k [.className name] d after) := by
    refine ⟨h.1, fun l hl => ?_⟩
    simp only [intruded, List.mem_append, List.mem_cons] at hl
    rcases hl with hl | rfl | rfl | hl
    · exact h.2 l (by simp [hl])
    · exact basic
    · exact h.2 ⟨some k, d⟩ (by simp)
    · exact h.2 l (by simp [hl])
  exact ⟨_, hlower.isBasicRow, unsound_intruded c before k _ d after h basic
    (strange h.1 unmentioned.1) hlinks hne hne'⟩

/-- Containment in every document is embedding, for basic rows. -/
theorem contains_iff_rowEmbeds {upper lower : List Item} (hu : IsBasicRow upper)
    (hl : IsBasicRow lower) : Contains upper lower ↔ RowEmbeds upper lower := by
  obtain ⟨c, us, rfl, hc⟩ := hu.exists_chain
  obtain ⟨d, ls, rfl, hd⟩ := hl.exists_chain
  constructor
  · intro contains
    exact ⟨c, us, d, ls, rfl, rfl, (contains_rowOf_iff hc.1.1 fun l hl => (hc.2 l hl).1).1 contains⟩
  · rintro ⟨c', us', d', ls', hu', hl', embeds⟩
    rw [hu', hl']
    exact contains_of_chainEmbeds embeds

/-- **A yes is certain exactly for rows with their combinators at the end**, and for any two rows it
is right exactly when the upper one can be laid into the lower one. -/
theorem itemsSuperselector_sound_iff {upper : List Item} (hu : IsBasicRow upper) :
    ((∀ lower, IsBasicRow lower → itemsSuperselector upper lower = true → Contains upper lower) ↔
      combinatorsAtEnd upper = true) ∧
    ∀ lower, IsBasicRow lower → itemsSuperselector upper lower = true →
      (Contains upper lower ↔ RowEmbeds upper lower) := by
  refine ⟨⟨fun sound => ?_, fun atEnd lower hl yes => ?_⟩, fun lower hl _ =>
    contains_iff_rowEmbeds hu hl⟩
  · obtain ⟨c, us, rfl, hc⟩ := hu.exists_chain
    by_contra loose
    obtain ⟨lower, hl, yes, no⟩ := exists_unsound hc (Bool.eq_false_iff.2 loose)
    exact no (sound lower hl yes)
  · obtain ⟨c, us, rfl, hc⟩ := hu.exists_chain
    obtain ⟨d, ls, rfl, hd⟩ := hl.exists_chain
    rw [itemsSuperselector_rowOf] at yes
    exact contains_of_chainEmbeds (chainEmbeds_of_walk atEnd hc hd yes)

/-- The row `.a .b > .c` is said to be above `.x > .a .b.y > .c`, and contains it. -/
theorem itemsSuperselector_sound_parent : ∃ upper lower,
    upper = [.compound [.className "a"], .compound [.className "b"], .combinator .child,
      .compound [.className "c"]] ∧
    lower = [.compound [.className "x"], .combinator .child, .compound [.className "a"],
      .compound [.className "b", .className "y"], .combinator .child, .compound [.className "c"]] ∧
    IsBasicRow upper ∧ IsBasicRow lower ∧ itemsSuperselector upper lower = true ∧
      Contains upper lower := by
  have hu := @IsBasicChain.isBasicRow [.className "a"] [⟨none, [.className "b"]⟩,
    ⟨some .child, [.className "c"]⟩] (by simp [IsBasicChain, Compound.IsBasic, Simple.isBasic])
  have hl := @IsBasicChain.isBasicRow [.className "x"] [⟨some .child, [.className "a"]⟩,
    ⟨none, [.className "b", .className "y"]⟩, ⟨some .child, [.className "c"]⟩]
    (by simp [IsBasicChain, Compound.IsBasic, Simple.isBasic])
  refine ⟨_, _, rfl, rfl, hu, hl, by cbv, ?_⟩
  exact (itemsSuperselector_sound_iff hu).1.2 rfl _ hl (by cbv)

/-- The row `.a > .b .c` is said to be above `.a > .x > .b .c`, and does not contain it. -/
theorem itemsSuperselector_unsound_grandparent : ∃ upper lower,
    upper = [.compound [.className "a"], .combinator .child, .compound [.className "b"],
      .compound [.className "c"]] ∧
    lower = [.compound [.className "a"], .combinator .child, .compound [.className "x"],
      .combinator .child, .compound [.className "b"], .compound [.className "c"]] ∧
    IsBasicRow upper ∧ IsBasicRow lower ∧ itemsSuperselector upper lower = true ∧
      ¬ Contains upper lower :=
  ⟨_, _, rfl, rfl,
    @IsBasicChain.isBasicRow [.className "a"] [⟨some .child, [.className "b"]⟩,
      ⟨none, [.className "c"]⟩] (by simp [IsBasicChain, Compound.IsBasic, Simple.isBasic]),
    @IsBasicChain.isBasicRow [.className "a"] [⟨some .child, [.className "x"]⟩,
      ⟨some .child, [.className "b"]⟩, ⟨none, [.className "c"]⟩]
      (by simp [IsBasicChain, Compound.IsBasic, Simple.isBasic]),
    unsound_intruded [.className "a"] [] .child [.className "x"] [.className "b"]
      [⟨none, [.className "c"]⟩] (by simp [IsBasicChain, Compound.IsBasic, Simple.isBasic])
      (by simp [Compound.IsBasic, Simple.isBasic]) (by simp) (by simp) (by simp) (by simp)⟩

end SelectorAlgebra
