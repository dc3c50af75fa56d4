import Mathlib.Order.Defs.Unbundled
import SelectorAlgebra.Extension.Trim

/-!
# Proofs/Trimming — what trimming keeps

Trimming only leaves choices out (`mem_of_mem_trim`).  It never leaves out the last copy

* of a choice that an author wrote (`contains_trim_of_authored`), nor
* of any choice, if choices give way only to their own copies (`contains_trim`).

More generally, where choices give way only to others above them, each choice has one above it that
stays (`exists_above_trim`).  The engine is that a choice gives way either to one that is kept
behind it or to one before it, and the first choice has none before it.
-/

namespace SelectorAlgebra

variable {sources : SourceSpecificity} {authored : Complex → Bool} {c d : Complex}
  {l before : List Complex}

/-! ## Moving a choice to the front -/

theorem contains_moveToFront_self (c : Complex) (l : List Complex) :
    (moveToFront c l).contains c = true := by
  unfold moveToFront
  split
  · rename_i found h
    have same : (found == c) = true := @List.find?_some _ (· == c) found l h
    rw [List.contains_cons, BEq.symm same, Bool.true_or]
  · exact List.elem_eq_true_of_mem List.mem_cons_self

/-- Moving a choice to the front loses no other. -/
theorem contains_moveToFront (h : l.contains d = true) : (moveToFront c l).contains d = true := by
  by_cases hd : (c == d) = true
  · rw [← List.contains_congr hd]
    exact contains_moveToFront_self c l
  · obtain ⟨x, hx, hdx⟩ := List.contains_iff_exists_mem_beq.1 h
    have hxc : ¬ (x == c) = true := fun hxc => hd (BEq.trans (BEq.symm hxc) (BEq.symm hdx))
    refine List.contains_iff_exists_mem_beq.2 ⟨x, ?_, hdx⟩
    unfold moveToFront
    split
    · exact List.mem_cons_of_mem _ ((@List.mem_eraseP_of_neg _ (· == c) x l hxc).2 hx)
    · exact List.mem_cons_of_mem c hx

theorem mem_of_mem_moveToFront (h : d ∈ moveToFront c l) : d = c ∨ d ∈ l := by
  unfold moveToFront at h
  split at h
  · rename_i found hfound
    rcases List.mem_cons.1 h with rfl | h
    · exact .inr (List.mem_of_find?_eq_some hfound)
    · exact .inr (List.mem_of_mem_eraseP h)
  · exact List.mem_cons.1 h

/-! ## One step of trimming -/

/-- Trimming makes nothing up. -/
theorem mem_of_mem_trimAfter (h : d ∈ trimAfter sources authored before l) : d ∈ l := by
  induction l generalizing before with
  | nil => exact h
  | cons c l ih =>
    simp only [trimAfter] at h
    split at h
    · rcases mem_of_mem_moveToFront h with rfl | h
      · exact List.mem_cons_self
      · exact List.mem_cons_of_mem c (ih h)
    split at h
    · exact List.mem_cons_of_mem c (ih h)
    · exact List.mem_cons.2 ((List.mem_cons.1 h).imp_right ih)

/-- What is kept behind a choice is still kept with it. -/
theorem contains_trimAfter_cons
    (h : (trimAfter sources authored (before ++ [c]) l).contains d = true) :
    (trimAfter sources authored before (c :: l)).contains d = true := by
  simp only [trimAfter]
  split
  · exact contains_moveToFront h
  split
  · exact h
  · rw [List.contains_cons, h, Bool.or_true]

/-- An authored choice is not dropped. -/
theorem contains_trimAfter_of_authored (hd : authored d = true) (mem : d ∈ l) :
    (trimAfter sources authored before l).contains d = true := by
  induction l generalizing before with
  | nil => cases mem
  | cons c l ih =>
    rcases List.mem_cons.1 mem with rfl | mem
    · simp only [trimAfter, hd, if_true]
      exact contains_moveToFront_self d _
    · exact contains_trimAfter_cons (ih mem)

/-- In any order that choices give way by, a choice has one above it that stays or stands before. -/
theorem exists_above_trimAfter {P : Complex → Complex → Prop} [IsTrans Complex P]
    (same : ∀ c ∈ before ++ l, ∀ d ∈ before ++ l, (c == d) = true → P c d)
    (below : ∀ c ∈ before ++ l, ∀ d ∈ before ++ l, c.dominatedBy sources d = true → P d c)
    (mem : d ∈ l) : ∃ c ∈ trimAfter sources authored before l ++ before, P c d := by
  induction l generalizing before with
  | nil => cases mem
  | cons c l ih =>
    have mem_c : c ∈ before ++ c :: l := by simp
    -- whatever was kept without `c` has a copy among what is kept with it
    have copy : ∀ x, (trimAfter sources authored before (c :: l)).contains x = true →
        x ∈ before ++ c :: l → ∃ y ∈ trimAfter sources authored before (c :: l) ++ before,
        P y x := by
      intro x hx mem_x
      obtain ⟨y, hy, hxy⟩ := List.contains_iff_exists_mem_beq.1 hx
      exact ⟨y, List.mem_append_left _ hy,
        same y (List.mem_append_right _ (mem_of_mem_trimAfter hy)) x mem_x (BEq.symm hxy)⟩
    have first : ∃ x ∈ trimAfter sources authored before (c :: l) ++ before, P x c := by
      by_cases own : authored c = true
      · exact copy c (contains_trimAfter_of_authored own List.mem_cons_self) mem_c
      by_cases dominated :
          ((trimAfter sources authored (before ++ [c]) l).any (c.dominatedBy sources) ||
          before.any (c.dominatedBy sources)) = true
      · simp only [trimAfter, own, dominated, Bool.false_eq_true, if_true, if_false]
        rw [← List.any_append, List.any_eq_true] at dominated
        obtain ⟨x, hx, hd⟩ := dominated
        have mem_x : x ∈ before ++ c :: l := by
          rcases List.mem_append.1 hx with hx | hx
          · simp [mem_of_mem_trimAfter hx]
          · simp [hx]
        exact ⟨x, hx, below c mem_c x mem_x hd⟩
      · refine copy c ?_ mem_c
        simp only [trimAfter, own, dominated, Bool.false_eq_true, if_false]
        exact List.elem_eq_true_of_mem List.mem_cons_self
    rcases List.mem_cons.1 mem with rfl | mem
    · exact first
    obtain ⟨x, hx, hxd⟩ := @ih (before ++ [c]) (by simpa using same) (by simpa using below) mem
    have trans : ∀ y, P y x → P y d := fun y hy => IsTrans.trans y x d hy hxd
    rcases List.mem_append.1 hx with kept | earlier
    · obtain ⟨y, hy, above⟩ := copy x (contains_trimAfter_cons (List.elem_eq_true_of_mem kept))
        (by simp [mem_of_mem_trimAfter kept])
      exact ⟨y, hy, trans y above⟩
    rcases List.mem_append.1 earlier with earlier | own
    · exact ⟨x, List.mem_append_right _ earlier, hxd⟩
    · obtain rfl := List.mem_singleton.1 own
      obtain ⟨y, hy, above⟩ := first
      exact ⟨y, hy, trans y above⟩

/-! ## Trimming -/

theorem trim_singleton (c : Complex) : trim sources authored [c] = [c] := by
  cases own : authored c <;> simp [trim, trimLimit, trimAfter, moveToFront, own]

theorem mem_of_mem_trim (h : d ∈ trim sources authored l) : d ∈ l := by
  unfold trim at h
  split at h
  · exact h
  · exact mem_of_mem_trimAfter h

/-- **What an author wrote is not trimmed away.** -/
theorem contains_trim_of_authored (hd : authored d = true) (mem : d ∈ l) :
    (trim sources authored l).contains d = true := by
  unfold trim
  split
  · exact List.elem_eq_true_of_mem mem
  · exact contains_trimAfter_of_authored hd mem

/-- **For every choice one above it stays**, in any order that choices give way by. -/
theorem exists_above_trim {P : Complex → Complex → Prop} [IsTrans Complex P]
    (same : ∀ c ∈ l, ∀ d ∈ l, (c == d) = true → P c d)
    (below : ∀ c ∈ l, ∀ d ∈ l, c.dominatedBy sources d = true → P d c) (mem : d ∈ l) :
    ∃ c ∈ trim sources authored l, P c d := by
  unfold trim
  split
  · exact ⟨d, mem, same d mem d mem BEq.rfl⟩
  · have kept : ∃ c ∈ trimAfter sources authored [] l ++ [], P c d :=
      exists_above_trimAfter (by simpa using same) (by simpa using below) mem
    rwa [List.append_nil] at kept

/-- Not all choices are trimmed away. -/
theorem eq_nil_of_trim_eq_nil (h : trim sources authored l = []) : l = [] := by
  have : IsTrans Complex fun _ _ => True := ⟨fun _ _ _ _ _ => trivial⟩
  refine List.eq_nil_iff_forall_not_mem.2 fun d mem => ?_
  obtain ⟨c, hc, -⟩ : ∃ c ∈ trim sources authored l, True :=
    exists_above_trim (P := fun _ _ => True) (fun _ _ _ _ _ => trivial) (fun _ _ _ _ _ => trivial)
      mem
  rw [h] at hc
  cases hc

/-- **Nothing is trimmed away but copies**, if choices give way only to their own copies. -/
theorem contains_trim
    (only : ∀ c ∈ l, ∀ d ∈ l, c.dominatedBy sources d = true → (c == d) = true) (mem : d ∈ l) :
    (trim sources authored l).contains d = true := by
  have : IsTrans Complex fun c d => (c == d) = true := ⟨fun _ _ _ => BEq.trans⟩
  obtain ⟨c, hc, same⟩ : ∃ c ∈ trim sources authored l, (c == d) = true :=
    exists_above_trim (fun _ _ _ _ h => h) (fun c hc d hd h => BEq.symm (only c hc d hd h)) mem
  exact List.contains_iff_exists_mem_beq.2 ⟨c, hc, BEq.symm same⟩

end SelectorAlgebra
