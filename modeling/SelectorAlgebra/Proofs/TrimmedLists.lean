import Mathlib.Data.List.Forall2
import Mathlib.Logic.Relation
import SelectorAlgebra.Proofs.CanonicalCover
import SelectorAlgebra.Proofs.Trimming

/-!
# Proofs/TrimmedLists — what a trimmed list has of the list it came from

A choice that is trimmed away gives way to another one (`GivesWay`), which may give way in its turn.
Two theorems about lists that are not too long to be trimmed:

* `trim_faithful` — what is left is a subsequence; each author-written choice is left exactly once;
  and from every choice a chain of superselectors leads to one that is left.
* `trim_specificity_iff` — the last choice of such a chain is specific enough for the first one
  exactly if giving way is transitive.

The engine is `exists_givesWay_trim`: following what a choice gives way to, one arrives at a choice
that is left.  Giving way need not be transitive, because the choice in the middle may come from a
less specific source than the first one.
-/

namespace SelectorAlgebra

open Relation

variable {sources : SourceSpecificity} {authored : Complex → Bool} {c d e : Complex}
  {l before : List Complex}

/-! ## Subsequences -/

/-- Every element of the first list stands, up to equivalence, at a place of its own in the second
one, in the same order. -/
abbrev IsSubsequence (l l' : List Complex) : Prop :=
  List.SublistForall₂ (fun c d => (c == d) = true) l l'

theorem isSubsequence_of_sublist {l l' : List Complex} (h : l.Sublist l') : IsSubsequence l l' :=
  List.sublistForall₂_iff.2 ⟨l, List.forall₂_same.2 fun _ _ => BEq.rfl, h⟩

theorem isSubsequence_moveToFront (h : IsSubsequence l before) :
    IsSubsequence (moveToFront c l) (c :: before) := by
  have : IsTrans Complex fun c d => (c == d) = true := ⟨fun _ _ _ => BEq.trans⟩
  unfold moveToFront
  split
  · rename_i found hfound
    have same : (found == c) = true := @List.find?_some _ (· == c) found l hfound
    have others : IsSubsequence (l.eraseP (· == c)) l :=
      isSubsequence_of_sublist List.eraseP_sublist
    exact .cons same (IsTrans.trans _ _ _ others h)
  · exact .cons BEq.rfl h

/-- Trimming keeps the order: what is left is a subsequence, up to equality. -/
theorem isSubsequence_trimAfter (before l : List Complex) :
    IsSubsequence (trimAfter sources authored before l) l := by
  induction l generalizing before with
  | nil => exact .nil
  | cons c l ih =>
    simp only [trimAfter]
    split
    · exact isSubsequence_moveToFront (ih _)
    split
    · exact .cons_right (ih _)
    · exact .cons BEq.rfl (ih _)

/-! ## Copies -/

theorem moveToFront_of_not_contains (h : l.contains c = false) : moveToFront c l = c :: l := by
  have missing : l.find? (· == c) = none := by
    rw [List.find?_eq_none]
    intro x hx same
    have found := List.contains_iff_exists_mem_beq.2 ⟨x, hx, BEq.symm same⟩
    rw [h] at found
    cases found
  rw [moveToFront, missing]

/-- Moving a choice that is there only reorders. -/
theorem moveToFront_perm (h : l.contains c = true) : (moveToFront c l).Perm l := by
  obtain ⟨x, hx, same⟩ := List.contains_iff_exists_mem_beq.1 h
  have listed : (l.find? (· == c)).isSome = true := List.find?_isSome.2 ⟨x, hx, BEq.symm same⟩
  obtain ⟨found, hfound⟩ := Option.isSome_iff_exists.1 listed
  obtain ⟨first, xs, ys, rfl, hxs⟩ := List.find?_eq_some_iff_append.1 hfound
  have rest : (xs ++ found :: ys).eraseP (· == c) = xs ++ ys := by
    rw [List.eraseP_append_right (found :: ys) fun x hx => by simpa using hxs x hx,
      @List.eraseP_cons_of_pos _ found ys (· == c) first]
  rw [moveToFront, hfound]
  dsimp only
  rw [rest]
  exact List.perm_middle.symm

/-- Other choices are as many as before. -/
theorem countP_moveToFront_of_ne (h : (c == d) = false) :
    (moveToFront c l).countP (· == d) = l.countP (· == d) := by
  by_cases stands : l.contains c = true
  · exact (moveToFront_perm stands).countP_eq _
  · rw [moveToFront_of_not_contains (Bool.eq_false_iff.2 stands), List.countP_cons, h]
    rfl

theorem countP_moveToFront_self_le (h : l.countP (· == c) ≤ 1) :
    (moveToFront c l).countP (· == c) ≤ 1 := by
  by_cases stands : l.contains c = true
  · exact ((moveToFront_perm stands).countP_eq _).trans_le h
  · have absent : l.countP (· == c) = 0 := by
      rw [List.countP_eq_zero]
      exact fun x hx same => stands (List.contains_iff_exists_mem_beq.2 ⟨x, hx, BEq.symm same⟩)
    rw [moveToFront_of_not_contains (Bool.eq_false_iff.2 stands), List.countP_cons,
      absent, if_pos BEq.rfl]

/-- An author-written choice never stands twice among what is left. -/
theorem countP_trimAfter_le_one (respects : ∀ c d, (c == d) = true → authored c = authored d)
    (own : authored d = true) (before l : List Complex) :
    (trimAfter sources authored before l).countP (· == d) ≤ 1 := by
  induction l generalizing before with
  | nil => exact Nat.zero_le 1
  | cons c l ih =>
    simp only [trimAfter]
    by_cases same : (c == d) = true
    · rw [if_pos ((respects c d same).trans own)]
      have alike : (fun x : Complex => x == d) = fun x => x == c :=
        funext fun x =>
          Bool.eq_iff_iff.2 ⟨fun h => BEq.trans h (BEq.symm same), fun h => BEq.trans h same⟩
      have once := ih (before ++ [c])
      rw [alike] at once ⊢
      exact countP_moveToFront_self_le once
    · have other : (c == d) = false := Bool.eq_false_iff.2 same
      split
      · rw [countP_moveToFront_of_ne other]
        exact ih _
      split
      · exact ih _
      · rw [List.countP_cons, other]
        exact ih _

/-! ## What a choice gives way to -/

/-- The choice `c` gives way to `d`, one of the choices `l`. -/
def GivesWay (sources : SourceSpecificity) (l : List Complex) (c d : Complex) : Prop :=
  d ∈ l ∧ c.dominatedBy sources d = true

theorem dominatedBy_congr {c' d' : Complex} (hc : (c == c') = true) (hd : (d == d') = true) :
    c.dominatedBy sources d = c'.dominatedBy sources d' := by
  rw [← Complex.dominatedBy_canonical, Complex.beq_iff.1 hc, Complex.beq_iff.1 hd,
    Complex.dominatedBy_canonical]

/-- A choice is dominated by one above it that is specific enough. -/
theorem dominatedBy_iff : c.dominatedBy sources d = true ↔
    d.isSuperselector c = true ∧ c.sourceSpecificity sources ≤ d.specificity.min := by
  simp [Complex.dominatedBy, and_comm]

/-- **Following what a choice gives way to, one arrives at a choice that is left.** -/
theorem exists_givesWay_trim (sources : SourceSpecificity) (authored : Complex → Bool)
    (mem : c ∈ l) :
    ∃ d, ReflTransGen (GivesWay sources l) c d ∧ (trim sources authored l).contains d = true := by
  let P : Complex → Complex → Prop := fun d c =>
    ∃ e, ReflTransGen (GivesWay sources l) c e ∧ (e == d) = true
  have : IsTrans Complex P := by
    -- a copy of `b` gives way to whatever `b` gives way to
    refine ⟨fun a b c ⟨e, path, ea⟩ ⟨f, path', fb⟩ => ?_⟩
    rcases ReflTransGen.cases_head path with rfl | ⟨x, step, path⟩
    · exact ⟨f, path', BEq.trans fb ea⟩
    · have step' : GivesWay sources l f x := ⟨step.1, (dominatedBy_congr fb BEq.rfl).trans step.2⟩
      exact ⟨e, (path'.tail step').trans path, ea⟩
  obtain ⟨d, left, e, path, same⟩ : ∃ d ∈ trim sources authored l, P d c :=
    exists_above_trim (fun c _ d _ same => ⟨d, .refl, BEq.symm same⟩)
      (fun c _ d hd below => ⟨d, .single ⟨hd, below⟩, BEq.rfl⟩) mem
  exact ⟨e, path, List.contains_iff_exists_mem_beq.2 ⟨d, left, same⟩⟩

/-- **Trimming neither invents, reorders nor loses.**  What is left is a subsequence of the
choices, with each author-written choice exactly once, and from every choice a chain of
superselectors leads to one that is left. -/
theorem trim_faithful (sources : SourceSpecificity) {authored : Complex → Bool} {l : List Complex}
    (short : l.length ≤ trimLimit) (respects : ∀ c d, (c == d) = true → authored c = authored d) :
    IsSubsequence (trim sources authored l) l ∧
      (∀ c ∈ l, authored c = true → (trim sources authored l).countP (· == c) = 1) ∧
      ∀ c ∈ l, ∃ d, ReflTransGen (fun x y => y ∈ l ∧ y.isSuperselector x = true) c d ∧
        (trim sources authored l).contains d = true := by
  have trimmed : trim sources authored l = trimAfter sources authored [] l :=
    if_neg (Nat.not_lt.2 short)
  refine ⟨?_, fun c mem own => ?_, fun c mem => ?_⟩
  · rw [trimmed]
    exact isSubsequence_trimAfter [] l
  · have most : (trim sources authored l).countP (· == c) ≤ 1 := by
      rw [trimmed]
      exact countP_trimAfter_le_one respects own [] l
    have stays : (trim sources authored l).contains c = true := contains_trim_of_authored own mem
    obtain ⟨d, left, same⟩ := List.contains_iff_exists_mem_beq.1 stays
    have least : 0 < (trim sources authored l).countP (· == c) :=
      List.countP_pos_iff.2 ⟨d, left, BEq.symm same⟩
    omega
  · obtain ⟨d, path, left⟩ := exists_givesWay_trim sources authored mem
    exact ⟨d, ReflTransGen.mono (fun x y step => ⟨step.1, (dominatedBy_iff.1 step.2).1⟩) c d path,
      left⟩

/-- Of `.b .a, .a, .c .a, .a` with `.a` author-written, only `.a` is left, once. -/
theorem trim_faithful_repeated : ∃ (l : List Complex) (authored : Complex → Bool),
    l = [⟨[.compound [.className "b"], .compound [.className "a"]], false⟩,
      .ofCompound [.className "a"],
      ⟨[.compound [.className "c"], .compound [.className "a"]], false⟩,
      ⟨[.compound [.className "a"]], true⟩] ∧
    authored = (· == .ofCompound [.className "a"]) ∧ l.length ≤ trimLimit ∧
    trim .empty authored l = [⟨[.compound [.className "a"]], true⟩] ∧
    IsSubsequence (trim .empty authored l) l ∧
      (trim .empty authored l).countP (· == .ofCompound [.className "a"]) = 1 := by
  refine ⟨_, _, rfl, rfl, by decide, by cbv, ?_⟩
  obtain ⟨subsequence, once, -⟩ := trim_faithful .empty (l := [⟨[.compound [.className "b"],
      .compound [.className "a"]], false⟩, .ofCompound [.className "a"],
      ⟨[.compound [.className "c"], .compound [.className "a"]], false⟩,
      ⟨[.compound [.className "a"]], true⟩]) (by decide)
    fun _ _ same => BEq.congr_left same
  exact ⟨subsequence, once _ (by simp) BEq.rfl⟩

/-! ## Specificity along a chain -/

/-- Giving way is transitive among some choices, copies of the first one apart. -/
def GivesWayTransitively (sources : SourceSpecificity) (S : Complex → Prop) : Prop :=
  ∀ c d e, S c → S d → S e → c.dominatedBy sources d = true → d.dominatedBy sources e = true →
    c.dominatedBy sources e = true ∨ (c == e) = true

/-- **Of three choices, each giving way to the one before it, only the first is left.** -/
theorem trim_three (hd : d.dominatedBy sources c = true) (he : e.dominatedBy sources d = true) :
    trim sources (fun _ => false) [c, d, e] = [c] := by
  simp [trim, trimLimit, trimAfter, hd, he]

/-- A choice that is not left gives way, through others, to one that is. -/
theorem exists_givesWay_of_not_contains (mem : c ∈ l)
    (gone : (trim sources authored l).contains c = false) :
    ∃ d ∈ trim sources authored l, TransGen (GivesWay sources l) c d := by
  obtain ⟨e, path, left⟩ := exists_givesWay_trim sources authored mem
  rcases ReflTransGen.cases_tail path with rfl | ⟨x, path, step⟩
  · rw [gone] at left
    cases left
  · obtain ⟨d, left, same⟩ := List.contains_iff_exists_mem_beq.1 left
    have step' : GivesWay sources l x d :=
      ⟨mem_of_mem_trim left, (dominatedBy_congr BEq.rfl same).symm.trans step.2⟩
    exact ⟨d, left, .tail' path step'⟩

/-- Along a chain of choices that give way, when giving way is transitive. -/
theorem dominatedBy_of_transGen {S : Complex → Prop} (trans : GivesWayTransitively sources S)
    (within : ∀ c ∈ l, S c) (mem : c ∈ l) (path : TransGen (GivesWay sources l) c d) :
    c.dominatedBy sources d = true ∨ (c == d) = true := by
  induction path with
  | single step => exact .inl step.2
  | @tail x y path step ih =>
    have hx : x ∈ l := by
      rcases TransGen.tail'_iff.1 path with ⟨_, _, last⟩
      exact last.1
    rcases ih with above | same
    · exact trans c x y (within c mem) (within x hx) (within y step.1) above step.2
    · exact .inl ((dominatedBy_congr same BEq.rfl).trans step.2)

/-- **Trimming keeps the specificity of sources exactly where giving way is transitive.**  In any
case a choice that is not left gives way, through others, to one that is. -/
theorem trim_specificity_iff (sources : SourceSpecificity) (S : Complex → Prop) :
    ((∀ (l : List Complex) (authored : Complex → Bool), l.length ≤ trimLimit → (∀ c ∈ l, S c) →
        (∀ c d, (c == d) = true → authored c = authored d) →
        ∀ c ∈ l, authored c = false → (trim sources authored l).contains c = false →
          ∃ d ∈ trim sources authored l, d.isSuperselector c = true ∧
            c.sourceSpecificity sources ≤ d.specificity.min) ↔
      GivesWayTransitively sources S) ∧
    ∀ (l : List Complex) (authored : Complex → Bool), ∀ c ∈ l,
      (trim sources authored l).contains c = false →
        ∃ d ∈ trim sources authored l, TransGen (GivesWay sources l) c d := by
  refine ⟨⟨fun keeps c d e hc hd he below below' => ?_,
    fun trans l authored _ within _ c mem _ gone => ?_⟩,
    fun l authored c mem gone => exists_givesWay_of_not_contains mem gone⟩
  · by_contra no
    rw [not_or] at no
    have trimmed : trim sources (fun _ => false) [e, d, c] = [e] := trim_three below' below
    have gone : (trim sources (fun _ => false) [e, d, c]).contains c = false := by
      rw [trimmed, List.contains_cons, List.contains_nil, Bool.or_false]
      exact Bool.eq_false_iff.2 no.2
    obtain ⟨x, left, above⟩ := keeps [e, d, c] (fun _ => false) (by simp [trimLimit])
      (by simp [hc, hd, he])
      (fun _ _ _ => rfl) c (by simp) rfl gone
    rw [trimmed] at left
    obtain rfl := List.mem_singleton.1 left
    exact no.1 (dominatedBy_iff.2 above)
  · obtain ⟨d, left, path⟩ := exists_givesWay_of_not_contains mem gone
    rcases dominatedBy_of_transGen trans within mem path with above | same
    · exact ⟨d, left, dominatedBy_iff.1 above⟩
    · have stays := List.contains_iff_exists_mem_beq.2 ⟨d, left, same⟩
      rw [gone] at stays
      cases stays

/-- **A choice is lost for a less specific one**: with `.x` from a source of specificity 2000,
`.a.b.x` gives way to `.a.b`, and `.a.b` to `.a`, which is all that is left. -/
theorem trim_loses_specificity : ∃ (sources : SourceSpecificity) (l : List Complex) (c : Complex),
    sources = ⟨[(.className "x", 2000)]⟩ ∧
    l = [.ofCompound [.className "a"], .ofCompound [.className "a", .className "b"], c] ∧
    c = .ofCompound [.className "a", .className "b", .className "x"] ∧
    (trim sources (fun _ => false) l).contains c = false ∧
    ¬ ∃ d ∈ trim sources (fun _ => false) l, d.isSuperselector c = true ∧
      c.sourceSpecificity sources ≤ d.specificity.min := by
  refine ⟨_, _, _, rfl, rfl, rfl, by cbv, ?_⟩
  have trimmed : trim ⟨[(.className "x", 2000)]⟩ (fun _ => false) [.ofCompound [.className "a"],
      .ofCompound [.className "a", .className "b"],
      .ofCompound [.className "a", .className "b", .className "x"]]
        = [.ofCompound [.className "a"]] :=
    trim_three (by cbv) (by cbv)
  rw [trimmed]
  rintro ⟨d, hd, -, specific⟩
  obtain rfl := List.mem_singleton.1 hd
  have source : Complex.sourceSpecificity ⟨[(.className "x", 2000)]⟩
      (.ofCompound [.className "a", .className "b", .className "x"]) = 2000 := by cbv
  have low : (Complex.ofCompound [.className "a"]).specificity.min = 1000 := by cbv
  omega

end SelectorAlgebra
