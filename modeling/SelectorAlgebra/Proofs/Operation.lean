import Mathlib.Data.List.Forall2

/-!
# Proofs/Operation — operations that may fail and leave a state behind

Extending a selector and changing a store are both operations of the form `ExceptT ε (StateM σ)`:
one that fails leaves the state as it was at that point.  Two judgements are made about an
operation `m` from a state `s`:

* `Ensures R m s Q` — whether it fails or not, the state it leaves comes after `s` in the preorder
  `R`; if it does not fail, `Q` holds of the result and that state.
* `Yields m s Q` — it does not fail, and `Q` holds of the result and the state it leaves.

Each comes with one rule for every way in which operations are put together.  So does
`FailsBy x reason`, for a step `x` that has no state: it fails exactly if there is a
reason to, and then with one.
-/

namespace SelectorAlgebra

variable {ε σ α β γ : Type}

/-- The result of an operation, and the state it leaves. -/
def outcomeFrom (m : ExceptT ε (StateM σ) α) (s : σ) : Except ε α × σ := m.run.run s

/-- Running two steps: the second starts from where the first ended. -/
theorem outcomeFrom_bind (m : ExceptT ε (StateM σ) α) (f : α → ExceptT ε (StateM σ) β) (s : σ) :
    outcomeFrom (m >>= f) s = match outcomeFrom m s with
      | (.ok a, s') => outcomeFrom (f a) s'
      | (.error e, s') => (.error e, s') := by
  show (ExceptT.bindCont f (outcomeFrom m s).1) (outcomeFrom m s).2 = _
  rcases outcomeFrom m s with ⟨_ | a, s'⟩ <;> rfl

theorem outcomeFrom_get_bind (f : σ → ExceptT ε (StateM σ) β) (s : σ) :
    outcomeFrom (get >>= f) s = outcomeFrom (f s) s := outcomeFrom_bind get f s

/-- A run of two steps that succeeds went through both. -/
theorem exists_of_outcomeFrom_bind {m : ExceptT ε (StateM σ) α}
    {f : α → ExceptT ε (StateM σ) β} {s : σ} {b : β}
    (h : (outcomeFrom (m >>= f) s).1 = .ok b) :
    ∃ a s', outcomeFrom m s = (.ok a, s') ∧ (outcomeFrom (f a) s').1 = .ok b := by
  rw [outcomeFrom_bind] at h
  rcases hm : outcomeFrom m s with ⟨_ | a, s'⟩
  · rw [hm] at h
    cases h
  · rw [hm] at h
    exact ⟨a, s', rfl, h⟩

/-- A run over a list that changes nothing. -/
theorem outcomeFrom_mapM {g : γ → ExceptT ε (StateM σ) α} {f : γ → α} {s : σ} :
    ∀ {xs : List γ}, (∀ x ∈ xs, outcomeFrom (g x) s = (.ok (f x), s)) →
      outcomeFrom (xs.mapM g) s = (.ok (xs.map f), s)
  | [], _ => by
    rw [List.mapM_nil]
    rfl
  | x :: xs, h => by
    rw [List.forall_mem_cons] at h
    rw [List.mapM_cons, outcomeFrom_bind, h.1]
    dsimp only
    rw [outcomeFrom_bind, outcomeFrom_mapM h.2]
    rfl

/-- The same step for each element of a list. -/
theorem mapM_congr {m : Type → Type} [Monad m] [LawfulMonad m] {f f' : γ → m α} {xs : List γ}
    (same : ∀ x ∈ xs, f' x = f x) : xs.mapM f' = xs.mapM f := by
  induction xs with
  | nil => rw [List.mapM_nil, List.mapM_nil]
  | cons x xs ih =>
    rw [List.forall_mem_cons] at same
    rw [List.mapM_cons, List.mapM_cons, same.1, ih same.2]

/-! ## Steps that only may fail -/

/-- Two steps without a state that succeed together succeeded each. -/
theorem exists_of_bind_ok {x : Except ε α} {f : α → Except ε β} {b : β} (h : x >>= f = .ok b) :
    ∃ a, x = .ok a ∧ f a = .ok b := by
  rcases x with _ | a
  · cases h
  · exact ⟨a, rfl, h⟩

/-- A run over a list that succeeds did so for each member. -/
theorem forall₂_of_mapM_ok {f : α → Except ε β} : ∀ {xs : List α} {ys : List β},
    xs.mapM f = .ok ys → List.Forall₂ (fun x y => f x = .ok y) xs ys
  | [], ys, h => by
    obtain rfl : [] = ys := Except.ok.inj (List.mapM_nil.symm.trans h)
    exact .nil
  | x :: xs, ys, h => by
    rw [List.mapM_cons] at h
    obtain ⟨y, hy, h⟩ := exists_of_bind_ok h
    obtain ⟨rest, hrest, h⟩ := exists_of_bind_ok h
    obtain rfl : y :: rest = ys := Except.ok.inj h
    exact .cons hy (forall₂_of_mapM_ok hrest)

/-- Where each member succeeds, so does the run. -/
theorem exists_mapM_ok {f : α → Except ε β} {S : α → β → Prop} : ∀ {xs : List α},
    (∀ x ∈ xs, ∃ y, f x = .ok y ∧ S x y) → ∃ ys, xs.mapM f = .ok ys ∧ List.Forall₂ S xs ys
  | [], _ => ⟨[], List.mapM_nil, .nil⟩
  | x :: xs, h => by
    rw [List.forall_mem_cons] at h
    obtain ⟨⟨y, hy, hS⟩, h⟩ := h
    obtain ⟨ys, hys, hrest⟩ := exists_mapM_ok h
    exact ⟨y :: ys, by rw [List.mapM_cons, hy, hys]; rfl, .cons hS hrest⟩

theorem mapM_ok {f : α → Except ε β} {g : α → β} : ∀ {xs : List α}, (∀ x ∈ xs, f x = .ok (g x)) →
    xs.mapM f = .ok (xs.map g)
  | [], _ => List.mapM_nil
  | x :: xs, h => by
    rw [List.forall_mem_cons] at h
    rw [List.mapM_cons, h.1, mapM_ok h.2]
    rfl

/-- Steps that go along with renaming, one after the other. -/
theorem mapM_map {δ : Type} {f : α → δ} {g : β → γ} {k' : δ → Except ε γ} {k : α → Except ε β}
    (each : ∀ x, k' (f x) = (k x).map g) : ∀ xs : List α,
    (xs.map f).mapM k' = (xs.mapM k).map (List.map g)
  | [] => by
    rw [List.map_nil, List.mapM_nil, List.mapM_nil]
    rfl
  | x :: xs => by
    rw [List.map_cons, List.mapM_cons, List.mapM_cons, each, mapM_map each xs]
    rcases k x with _ | y
    · rfl
    rcases xs.mapM k with _ | ys <;> rfl

/-- The step fails exactly if there is a reason to, and then with one. -/
structure FailsBy (x : Except ε α) (reason : ε → Prop) : Prop where
  given : ∀ e, x = .error e → reason e
  forced : ∀ e, reason e → ∃ e', x = .error e'

namespace FailsBy

variable {x : Except ε α} {reason reason' : ε → Prop}

theorem ok {a : α} (never : ∀ e, ¬ reason e) : FailsBy (.ok a) reason :=
  ⟨by rintro _ ⟨⟩, fun e he => absurd he (never e)⟩

/-- A failure for each reason and no other. -/
theorem of_iff (h : ∀ e, x = .error e ↔ reason e) : FailsBy x reason :=
  ⟨fun e => (h e).1, fun e he => ⟨e, (h e).2 he⟩⟩

theorem congr (h : FailsBy x reason) (same : ∀ e, reason e ↔ reason' e) : FailsBy x reason' :=
  ⟨fun e he => (same e).1 (h.given e he), fun e he => h.forced e ((same e).2 he)⟩

/-- Two steps fail for the reasons of either, provided the second can fail for its reasons whatever
the first returned. -/
theorem bind {f : α → Except ε β} (h : FailsBy x reason) (next : ∀ a, FailsBy (f a) reason') :
    FailsBy (x >>= f) fun e => reason e ∨ reason' e := by
  rcases x with e | a
  · exact ⟨fun e' he => .inl (h.given e' (congrArg _ (Except.error.inj he))), fun _ _ => ⟨e, rfl⟩⟩
  · refine ⟨fun e he => .inr ((next a).given e he), fun e he => ?_⟩
    rcases he with he | he
    · obtain ⟨e', ⟨⟩⟩ := h.forced e he
    · exact (next a).forced e he

theorem map {g : α → β} (h : FailsBy x reason) : FailsBy (do return g (← x)) reason := by
  have last : ∀ a, FailsBy (.ok (g a)) fun _ : ε => False := fun _ => ok fun _ => id
  exact (h.bind last).congr fun _ => or_iff_left id

/-- A run over a list fails for the reasons of its members. -/
theorem mapM {f : γ → Except ε α} {reason : γ → ε → Prop} {xs : List γ}
    (h : ∀ x ∈ xs, FailsBy (f x) (reason x)) :
    FailsBy (xs.mapM f) fun e => ∃ x ∈ xs, reason x e := by
  induction xs with
  | nil =>
    rw [List.mapM_nil]
    exact ok fun e => by simp
  | cons x xs ih =>
    rw [List.forall_mem_cons] at h
    rw [List.mapM_cons]
    refine (h.1.bind fun a => (ih h.2).map (g := (a :: ·))).congr fun e => ?_
    rw [List.exists_mem_cons_iff]

end FailsBy

/-! ## What holds however an operation ends -/

/-- The state goes on by `R`, and a result satisfies `Q`. -/
def Ensures (R : σ → σ → Prop) (m : ExceptT ε (StateM σ) α) (s : σ) (Q : α → σ → Prop) : Prop :=
  R s (outcomeFrom m s).2 ∧ ∀ a, (outcomeFrom m s).1 = .ok a → Q a (outcomeFrom m s).2

/-- Any state may come after any other where only the result matters. -/
instance reflTrue : Std.Refl fun _ _ : σ => True := ⟨fun _ => trivial⟩

instance isTransTrue : IsTrans σ fun _ _ => True := ⟨fun _ _ _ _ _ => trivial⟩

namespace Ensures

variable {R : σ → σ → Prop} {s : σ} {Q Q' : α → σ → Prop} {P : β → σ → Prop}
  {m : ExceptT ε (StateM σ) α} {f : α → ExceptT ε (StateM σ) β}

theorem mono (h : Ensures R m s Q) (imp : ∀ a s', R s s' → Q a s' → Q' a s') :
    Ensures R m s Q' :=
  ⟨h.1, fun a ha => imp a _ h.1 (h.2 a ha)⟩

/-- A weaker relation between the states. -/
theorem weaken {R' : σ → σ → Prop} (h : Ensures R m s Q) (imp : ∀ s', R s s' → R' s s') :
    Ensures R' m s Q :=
  ⟨imp _ h.1, h.2⟩

/-- The same where only the result matters. -/
theorem result (h : Ensures R m s Q) : Ensures (fun _ _ => True) m s Q := ⟨trivial, h.2⟩

/-- Two statements about one operation. -/
theorem and {R' : σ → σ → Prop} (h : Ensures R m s Q) (h' : Ensures R' m s Q') :
    Ensures R m s fun a s' => Q a s' ∧ Q' a s' :=
  ⟨h.1, fun a ha => ⟨h.2 a ha, h'.2 a ha⟩⟩

/-- An operation whose outcome is known. -/
theorem of_eq {a : α} {s' : σ} (h : outcomeFrom m s = (.ok a, s')) (hR : R s s') (hQ : Q a s') :
    Ensures R m s Q := by
  rw [Ensures, h]
  exact ⟨hR, fun _ ha => Except.ok.inj ha ▸ hQ⟩

theorem pure_of {a : α} (hR : R s s) (h : Q a s) :
    Ensures R (Pure.pure a : ExceptT ε (StateM σ) α) s Q :=
  ⟨hR, fun _ ha => Except.ok.inj ha ▸ h⟩

theorem pure [Std.Refl R] {a : α} (h : Q a s) :
    Ensures R (Pure.pure a : ExceptT ε (StateM σ) α) s Q :=
  pure_of (Std.Refl.refl s) h

/-- A failure changes nothing and has no result. -/
theorem throw [Std.Refl R] (e : ε) : Ensures R (throw e : ExceptT ε (StateM σ) α) s Q :=
  ⟨Std.Refl.refl s, fun _ ha => nomatch ha⟩

/-- A step that only computes changes nothing. -/
theorem ofExcept [Std.Refl R] {e : Except ε α} (h : ∀ a, e = .ok a → Q a s) :
    Ensures R (ExceptT.mk (Pure.pure e) : ExceptT ε (StateM σ) α) s Q :=
  ⟨Std.Refl.refl s, h⟩

theorem modify_bind [IsTrans σ R] {change : σ → σ} {f : Unit → ExceptT ε (StateM σ) β}
    (hR : R s (change s)) (h : Ensures R (f ()) (change s) P) :
    Ensures R (modify change >>= f) s P :=
  ⟨IsTrans.trans _ _ _ hR h.1, h.2⟩

/-- A change, and a result. -/
theorem modify_pure [Std.Refl R] [IsTrans σ R] {change : σ → σ} {a : α} (hR : R s (change s))
    (h : Q a (change s)) :
    Ensures R (do modify change; Pure.pure a : ExceptT ε (StateM σ) α) s Q :=
  modify_bind hR (pure h)

theorem modify {change : σ → σ} {Q : Unit → σ → Prop} (hR : R s (change s)) (h : Q () (change s)) :
    Ensures R (modify change : ExceptT ε (StateM σ) Unit) s Q :=
  ⟨hR, fun _ _ => h⟩

/-- What comes after `m` is held against the state before `m`. -/
theorem bind_from (h : Ensures R m s Q)
    (next : ∀ a s', R s s' → Q a s' → Ensures (fun _ => R s) (f a) s' P) :
    Ensures R (m >>= f) s P := by
  obtain ⟨hR, hQ⟩ := h
  rw [Ensures, outcomeFrom_bind]
  rcases hm : outcomeFrom m s with ⟨_ | a, s'⟩
  · rw [hm] at hR
    exact ⟨hR, fun _ hb => nomatch hb⟩
  · rw [hm] at hR hQ
    exact next a s' hR (hQ a rfl)

/-- Two steps, for a transitive relation. -/
theorem bind [IsTrans σ R] (h : Ensures R m s Q)
    (next : ∀ a s', R s s' → Q a s' → Ensures R (f a) s' P) : Ensures R (m >>= f) s P :=
  h.bind_from fun a s' hR hQ =>
    ⟨IsTrans.trans _ _ _ hR (next a s' hR hQ).1, (next a s' hR hQ).2⟩

theorem get_bind {f : σ → ExceptT ε (StateM σ) β} (h : Ensures R (f s) s P) :
    Ensures R (get >>= f) s P := by
  rwa [Ensures, outcomeFrom_bind]

/-- An operation for each element of a list: what each ensures from any later state, all ensure. -/
theorem mapM [Std.Refl R] [IsTrans σ R] {g : γ → ExceptT ε (StateM σ) α} {S : γ → α → Prop} :
    ∀ {xs : List γ} {s : σ}, (∀ x ∈ xs, ∀ s', R s s' → Ensures R (g x) s' fun a _ => S x a) →
      Ensures R (xs.mapM g) s fun as _ => List.Forall₂ S xs as
  | [], _, _ => by
    rw [List.mapM_nil]
    exact pure .nil
  | x :: xs, s, h => by
    rw [List.forall_mem_cons] at h
    rw [List.mapM_cons]
    refine (h.1 s (Std.Refl.refl s)).bind fun a s' hs ha => ?_
    refine (mapM fun y hy s'' hs' => h.2 y hy s'' (IsTrans.trans _ _ _ hs hs')).bind
      fun as s'' _ has => ?_
    exact pure (.cons ha has)

/-- Over a list, with a property of each result. -/
theorem mapM_forall [Std.Refl R] [IsTrans σ R] {g : γ → ExceptT ε (StateM σ) α} {P : α → Prop}
    {xs : List γ} (h : ∀ x ∈ xs, ∀ s', R s s' → Ensures R (g x) s' fun a _ => P a) :
    Ensures R (xs.mapM g) s fun as _ => ∀ a ∈ as, P a := by
  refine (mapM (S := fun _ a => P a) h).mono fun as _ _ has => ?_
  induction has with
  | nil => exact List.forall_mem_nil _
  | cons ha _ ih =>
    exact List.forall_mem_cons.2 ⟨ha, ih fun x hx => h x (List.mem_cons_of_mem _ hx)⟩

/-- What each operation brings about and the later ones keep holds of all in the end. -/
theorem mapM_each [Std.Refl R] [IsTrans σ R] {g : γ → ExceptT ε (StateM σ) α} {P : γ → σ → Prop} :
    ∀ {xs : List γ} {s : σ}, (∀ x ∈ xs, ∀ s s', R s s' → P x s → P x s') →
      (∀ x ∈ xs, ∀ s', R s s' → Ensures R (g x) s' fun _ s'' => P x s'') →
      Ensures R (xs.mapM g) s fun _ s' => ∀ x ∈ xs, P x s'
  | [], _, _, _ => by
    rw [List.mapM_nil]
    exact pure (List.forall_mem_nil _)
  | x :: xs, s, keeps, h => by
    rw [List.forall_mem_cons] at keeps h
    rw [List.mapM_cons]
    refine (h.1 s (Std.Refl.refl s)).bind fun a s' hs hx => ?_
    refine (mapM_each keeps.2 fun y hy s'' hs' => h.2 y hy s'' (IsTrans.trans _ _ _ hs hs')).bind
      fun as s'' hs' hxs => ?_
    exact pure (List.forall_mem_cons.2 ⟨keeps.1 s' s'' hs' hx, hxs⟩)

/-- Over a list, for the changes alone. -/
theorem forM [Std.Refl R] [IsTrans σ R] {g : γ → ExceptT ε (StateM σ) PUnit} :
    ∀ {xs : List γ} {s : σ}, (∀ x ∈ xs, ∀ s', R s s' → Ensures R (g x) s' fun _ _ => True) →
      Ensures R (xs.forM g) s fun _ _ => True
  | [], _, _ => pure trivial
  | x :: xs, s, h => by
    rw [List.forall_mem_cons] at h
    exact (h.1 s (Std.Refl.refl s)).bind fun _ s' hs _ =>
      forM fun y hy s'' hs' => h.2 y hy s'' (IsTrans.trans _ _ _ hs hs')

/-- With an accumulator that keeps an invariant. -/
theorem foldlM [Std.Refl R] [IsTrans σ R] {g : α → γ → ExceptT ε (StateM σ) α} {I : α → Prop} :
    ∀ {xs : List γ} {s : σ} {a : α},
      (∀ x ∈ xs, ∀ a s', R s s' → I a → Ensures R (g a x) s' fun a' _ => I a') → I a →
      Ensures R (xs.foldlM g a) s fun a' _ => I a'
  | [], _, _, _, ha => pure ha
  | x :: xs, s, a, h, ha => by
    rw [List.forall_mem_cons] at h
    rw [List.foldlM_cons]
    exact (h.1 a s (Std.Refl.refl s) ha).bind fun a' s' hs ha' =>
      foldlM (fun y hy a'' s'' hs' => h.2 y hy a'' s'' (IsTrans.trans _ _ _ hs hs')) ha'

end Ensures

/-! ## What holds of an operation that does not fail -/

/-- The operation gives a result, and `Q` holds of it and of the state that is left. -/
def Yields (m : ExceptT ε (StateM σ) α) (s : σ) (Q : α → σ → Prop) : Prop :=
  ∃ a s', outcomeFrom m s = (.ok a, s') ∧ Q a s'

namespace Yields

variable {s : σ} {Q Q' : α → σ → Prop} {P : β → σ → Prop} {m : ExceptT ε (StateM σ) α}
  {f : α → ExceptT ε (StateM σ) β}

theorem mono (h : Yields m s Q) (imp : ∀ a s', Q a s' → Q' a s') : Yields m s Q' := by
  obtain ⟨a, s', hm, hQ⟩ := h
  exact ⟨a, s', hm, imp a s' hQ⟩

theorem pure {a : α} (h : Q a s) : Yields (Pure.pure a : ExceptT ε (StateM σ) α) s Q :=
  ⟨a, s, rfl, h⟩

/-- A computation that succeeds. -/
theorem ofOk {e : Except ε α} {a : α} (he : e = .ok a) (h : Q a s) :
    Yields (ExceptT.mk (Pure.pure e) : ExceptT ε (StateM σ) α) s Q :=
  ⟨a, s, by rw [he]; rfl, h⟩

theorem modify_bind {change : σ → σ} {f : Unit → ExceptT ε (StateM σ) β}
    (h : Yields (f ()) (change s) P) : Yields (modify change >>= f) s P :=
  h

theorem modify {change : σ → σ} {Q : Unit → σ → Prop} (h : Q () (change s)) :
    Yields (modify change : ExceptT ε (StateM σ) Unit) s Q :=
  ⟨(), change s, rfl, h⟩

/-- Two steps that do not fail. -/
theorem bind (h : Yields m s Q) (next : ∀ a s', Q a s' → Yields (f a) s' P) :
    Yields (m >>= f) s P := by
  obtain ⟨a, s', hm, hQ⟩ := h
  obtain ⟨b, s'', hf, hP⟩ := next a s' hQ
  exact ⟨b, s'', by rw [outcomeFrom_bind, hm]; exact hf, hP⟩

theorem get_bind {f : σ → ExceptT ε (StateM σ) β} (h : Yields (f s) s P) :
    Yields (get >>= f) s P :=
  h

/-- An operation for each element of a list, with an invariant of what is done already. -/
theorem mapM {g : γ → ExceptT ε (StateM σ) α} {I : List γ → List α → σ → Prop} {xs : List γ}
    (step : ∀ before x as s, x ∈ xs → I before as s →
      Yields (g x) s fun a s' => I (before ++ [x]) (as ++ [a]) s')
    (start : I [] [] s) : Yields (xs.mapM g) s fun as s' => I xs as s' := by
  have run : ∀ (rest before : List γ) (as : List α) (s : σ), (∀ x ∈ rest, x ∈ xs) → I before as s →
      Yields (rest.mapM g) s fun bs s' => I (before ++ rest) (as ++ bs) s' := by
    intro rest
    induction rest with
    | nil =>
      intro before as s _ h
      rw [List.mapM_nil]
      exact pure (by simpa using h)
    | cons x rest ih =>
      intro before as s mem h
      rw [List.forall_mem_cons] at mem
      rw [List.mapM_cons]
      refine (step before x as s mem.1 h).bind fun a s' h' => ?_
      exact (ih _ _ s' mem.2 h').bind fun bs s'' h'' => pure (by simpa using h'')
  simpa using run xs [] [] s (fun _ h => h) start

/-- Over a list, each result in relation to its member. -/
theorem mapM_forall₂ {g : γ → ExceptT ε (StateM σ) α} {S : γ → α → Prop} {xs : List γ}
    (h : ∀ x ∈ xs, ∀ s, Yields (g x) s fun a _ => S x a) :
    Yields (xs.mapM g) s fun as _ => List.Forall₂ S xs as :=
  mapM (I := fun before as _ => List.Forall₂ S before as)
    (fun _ x _ s mem done => (h x mem s).mono fun _ _ ha => List.rel_append done (.cons ha .nil))
    .nil

/-- Over a list, with an invariant about the members that are done. -/
theorem forM {g : γ → ExceptT ε (StateM σ) PUnit} {I : List γ → σ → Prop} {xs : List γ}
    (step : ∀ before x s, x ∈ xs → I before s → Yields (g x) s fun _ s' => I (before ++ [x]) s')
    (start : I [] s) : Yields (xs.forM g) s fun _ s' => I xs s' := by
  have run : ∀ (rest before : List γ) (s : σ), (∀ x ∈ rest, x ∈ xs) → I before s →
      Yields (rest.forM g) s fun _ s' => I (before ++ rest) s' := by
    intro rest
    induction rest with
    | nil =>
      intro before s _ h
      exact pure (by simpa using h)
    | cons x rest ih =>
      intro before s mem h
      rw [List.forall_mem_cons] at mem
      exact (step before x s mem.1 h).bind fun _ s' h' =>
        (ih _ s' mem.2 h').mono fun _ _ h'' => by simpa using h''
  exact run xs [] s (fun _ h => h) start

/-- An operation for each element of a list, each from what the one before gave. -/
theorem foldlM {g : α → γ → ExceptT ε (StateM σ) α} {I : α → Prop} {xs : List γ}
    (step : ∀ x ∈ xs, ∀ a s, I a → Yields (g a x) s fun a' _ => I a') {a : α} (start : I a) :
    Yields (xs.foldlM g a) s fun a' _ => I a' := by
  induction xs generalizing a s with
  | nil => exact pure start
  | cons x xs ih =>
    rw [List.forall_mem_cons] at step
    rw [List.foldlM_cons]
    exact (step.1 a s start).bind fun a' s' ha' => ih step.2 ha'

/-- What is ensured of every result holds of the one that is given. -/
theorem of_ensures {R : σ → σ → Prop} (h : Yields m s fun _ _ => True) (ensured : Ensures R m s Q) :
    Yields m s Q := by
  obtain ⟨a, s', hm, -⟩ := h
  have hQ := ensured.2 a (by rw [hm])
  rw [hm] at hQ
  exact ⟨a, s', hm, hQ⟩

end Yields

end SelectorAlgebra
