import Mathlib
import SelectorAlgebra.Proofs.Cover
import SelectorAlgebra.Proofs.Sequences

/-!
# Proofs/DescendantRows — the walk along rows without combinators

Where no combinator stands in either row, nothing is asked of two places but their order.  So the
upper row is above the lower one exactly if its compounds can be sent, in order, to compounds of the
lower row that they cover, the last to the last:

* `itemsSuperselector_iff_strictMono` — the same with a strictly increasing map of positions.

The walk takes the first place for each compound and never goes back.  The engine is
`sublistForall₂_cons_iff`: whatever can be laid into a sequence can be laid into it with its first
element at the first place that takes it.
-/

namespace SelectorAlgebra

/-! ## Laying a sequence into another one -/

section Sequences

variable {α β : Type}

/-- **Taking the first place spoils nothing**: a sequence can be laid into another one exactly if
its rest can be laid into what stands after the first place for its first element. -/
theorem sublistForall₂_cons_iff {R : α → β → Prop} {p : β → Bool} {x : α} {xs : List α}
    {ys : List β} (hp : ∀ y ∈ ys, p y = true ↔ R x y) :
    List.SublistForall₂ R (x :: xs) ys ↔
      ∃ rest, (ys.dropWhile fun y => !p y).tail? = some rest ∧ List.SublistForall₂ R xs rest := by
  induction ys with
  | nil =>
    refine ⟨fun h => ?_, fun ⟨rest, h, _⟩ => ?_⟩
    · cases h
    · cases h
  | cons y ys ih =>
    rw [List.forall_mem_cons] at hp
    cases hy : p y with
    | true =>
      rw [List.dropWhile_cons_of_neg (by simp [hy])]
      refine ⟨fun h => ⟨ys, rfl, ?_⟩, fun ⟨rest, h, laid⟩ => ?_⟩
      · cases h with
        | cons _ laid => exact laid
        | cons_right laid => exact sublistForall₂_of_cons laid
      · obtain rfl : ys = rest := Option.some.inj h
        exact .cons (hp.1.1 hy) laid
    | false =>
      rw [List.dropWhile_cons_of_pos (by simp [hy]), ← ih hp.2]
      refine ⟨fun h => ?_, .cons_right⟩
      cases h with
      | cons hxy _ => exact absurd (hp.1.2 hxy) (by simp [hy])
      | cons_right laid => exact laid

theorem suffix_of_tail?_dropWhile {p : α → Bool} {xs rest : List α}
    (h : (xs.dropWhile p).tail? = some rest) : rest <:+ xs := by
  have whole := List.dropWhile_suffix (l := xs) p
  cases hd : xs.dropWhile p with
  | nil => simp [hd] at h
  | cons x ys =>
    rw [hd] at h whole
    obtain rfl : ys = rest := Option.some.inj h
    exact (List.suffix_cons x ys).trans whole

/-- Laying into a sequence is choosing increasing places for the members. -/
theorem sublistForall₂_iff_strictMono {R : α → β → Prop} {xs : List α} {ys : List β} :
    List.SublistForall₂ R xs ys ↔ ∃ f : Fin xs.length → Fin ys.length, StrictMono f ∧
      ∀ i, R (xs.get i) (ys.get (f i)) := by
  rw [List.sublistForall₂_iff]
  constructor
  · rintro ⟨l, hl, sub⟩
    obtain ⟨f, hf⟩ := List.sublist_iff_exists_fin_orderEmbedding_get_eq.1 sub
    obtain ⟨len, each⟩ := List.forall₂_iff_get.1 hl
    refine ⟨fun i => f (i.cast len), fun i j hij => f.strictMono hij, fun i => ?_⟩
    rw [← hf]
    exact each i i.isLt (len ▸ i.isLt)
  · rintro ⟨f, mono, each⟩
    have len : (List.ofFn fun i => ys.get (f i)).length = xs.length := List.length_ofFn
    refine ⟨List.ofFn fun i => ys.get (f i), List.forall₂_iff_get.2 ⟨len.symm, fun i h _ => ?_⟩,
      List.sublist_iff_exists_fin_orderEmbedding_get_eq.2
        ⟨OrderEmbedding.ofStrictMono (fun i => f (i.cast len)) fun i j hij => mono hij,
          fun i => ?_⟩⟩
    · simpa using each ⟨i, h⟩
    · rw [List.get_ofFn]
      rfl

/-- The same for sequences that end in an element each, if the last one is to be sent to the
last. -/
theorem sublistForall₂_concat_iff_strictMono {R : α → β → Prop} {xs : List α} {ys : List β} {x : α}
    {y : β} : List.SublistForall₂ R xs ys ∧ R x y ↔
      ∃ f : Fin (xs ++ [x]).length → Fin (ys ++ [y]).length, StrictMono f ∧
        (∀ i, i.val + 1 = (xs ++ [x]).length → (f i).val + 1 = (ys ++ [y]).length) ∧
        ∀ i, R ((xs ++ [x]).get i) ((ys ++ [y]).get (f i)) := by
  have lx : (xs ++ [x]).length = xs.length + 1 := by simp
  have ly : (ys ++ [y]).length = ys.length + 1 := by simp
  rw [sublistForall₂_iff_strictMono]
  constructor
  · rintro ⟨⟨g, mono, each⟩, last⟩
    refine ⟨fun i => if h : i.val < xs.length then ⟨g ⟨i, h⟩, by omega⟩ else ⟨ys.length, by omega⟩,
      fun i j hij => ?_, fun i hi => ?_, fun i => ?_⟩
    · have order : i.val < j.val := hij
      have inside : i.val < xs.length := by omega
      beta_reduce
      rw [dif_pos inside, Fin.lt_def]
      split
      · exact mono (Fin.mk_lt_mk.2 order)
      · exact (g ⟨i, inside⟩).isLt
    · beta_reduce
      rw [dif_neg (by omega)]
      exact ly.symm
    · beta_reduce
      split
      · rename_i h
        simpa [List.getElem_append_left h] using each ⟨i, h⟩
      · have final : i.val = xs.length := by omega
        simpa [final] using last
  · rintro ⟨f, mono, last, each⟩
    let final : Fin (xs ++ [x]).length := ⟨xs.length, by omega⟩
    have end_ : (f final).val = ys.length := by
      have := last final (by simp [final])
      omega
    have below : ∀ i : Fin xs.length, (f ⟨i, by omega⟩).val < ys.length := by
      intro i
      rw [← end_]
      exact mono (Fin.mk_lt_mk.2 i.isLt)
    refine ⟨⟨fun i => ⟨f ⟨i, by omega⟩, below i⟩, fun i j hij => mono (Fin.mk_lt_mk.2 hij),
      fun i => ?_⟩, ?_⟩
    · simpa [List.getElem_append_left, below i] using each ⟨i, by omega⟩
    · simpa [end_, final] using each final

end Sequences

/-! ## Rows without combinators -/

theorem hasRepeatedCombinator_map_compound : ∀ cs : List Compound,
    hasRepeatedCombinator (cs.map Item.compound) = false
  | [] => rfl
  | _ :: cs => hasRepeatedCombinator_map_compound cs

theorem exists_cons_map_compound : ∀ (ds : List Compound) (d : Compound),
    ∃ e row, (ds ++ [d]).map Item.compound = .compound e :: row
  | [], d => ⟨d, [], rfl⟩
  | e :: ds, d => ⟨e, (ds ++ [d]).map .compound, rfl⟩

section Walk

variable {cover : Compound → Compound → List Item → Bool} {c d : Compound}

/-- **The place found in a row without combinators** is the first one that is taken, whatever stands
before it. -/
theorem firstAccepted_map_compound {accept : Compound → List Item → Bool} {p : Compound → Bool} :
    ∀ {ds : List Compound} {parents : List Item}, (∀ e ∈ ds, ∀ parents, accept e parents = p e) →
      firstAccepted accept parents ((ds ++ [d]).map .compound)
        = (ds.dropWhile fun e => !p e).tail?.map fun rest => (rest ++ [d]).map .compound
  | [], _, _ => rfl
  | e :: ds, parents, h => by
    rw [List.forall_mem_cons] at h
    obtain ⟨next, row, hrow⟩ := exists_cons_map_compound ds d
    rw [List.cons_append, List.map_cons, hrow, firstAccepted, ← hrow, Item.compound?,
      Option.any_some, h.1 parents]
    cases he : p e with
    | true => simp [List.dropWhile_cons_of_neg, he]
    | false =>
      rw [List.dropWhile_cons_of_pos (by simp [he]), ← firstAccepted_map_compound h.2]
      rfl

/-- One step of the walk along rows without combinators. -/
theorem walk_map_compound_cons {c' : Compound} {cs ds : List Compound} {p : Compound → Bool}
    (h : ∀ e ∈ ds, ∀ parents, cover c' e parents = p e) :
    walk cover ((c' :: cs ++ [c]).map .compound) ((ds ++ [d]).map .compound) = true ↔
      cs.length < ds.length ∧ ∃ rest, (ds.dropWhile fun e => !p e).tail? = some rest ∧
        walk cover ((cs ++ [c]).map .compound) ((rest ++ [d]).map .compound) = true := by
  have found := @firstAccepted_map_compound d (cover c') p ds [] h
  obtain ⟨e, row, hrow⟩ := exists_cons_map_compound ds d
  obtain ⟨e', row', hrow'⟩ := exists_cons_map_compound cs c
  have len := congrArg List.length hrow
  have len' := congrArg List.length hrow'
  simp only [List.length_map, List.length_append, List.length_cons, List.length_nil] at len len'
  have room : ¬ row.length + 1 < row'.length + 2 ↔ cs.length < ds.length := by omega
  rw [hrow] at found
  rw [List.cons_append, List.map_cons, hrow', hrow]
  simp only [walk, List.length_cons, found]
  rw [← room]
  cases (ds.dropWhile fun e => !p e).tail? with
  | none => simp
  | some rest =>
    obtain ⟨e'', row'', hrow''⟩ := exists_cons_map_compound rest d
    simp only [Option.map_some, hrow'', Option.some.injEq, exists_eq_left']
    simp

/-- **A row without combinators is walked exactly if it can be laid into the lower one**, the last
compound to the last one. -/
theorem walk_map_compound_iff {R : Compound → Compound → Prop} {cs ds : List Compound}
    (h : ∀ c' ∈ cs ++ [c], ∀ d' ∈ ds ++ [d], ∀ parents, cover c' d' parents = true ↔ R c' d') :
    walk cover ((cs ++ [c]).map .compound) ((ds ++ [d]).map .compound) = true ↔
      List.SublistForall₂ R cs ds ∧ R c d := by
  induction cs generalizing ds with
  | nil =>
    obtain ⟨e, row, hrow⟩ := exists_cons_map_compound ds d
    have last : walk cover (([] ++ [c]).map .compound) ((ds ++ [d]).map .compound)
        = coversLast cover c ((ds ++ [d]).map .compound) := by
      rw [hrow]
      rfl
    rw [last, coversLast]
    simpa [hasRepeatedCombinator_map_compound, h] using fun _ => List.SublistForall₂.nil
  | cons c' cs ih =>
    rw [List.cons_append, List.forall_mem_cons] at h
    -- what stands before a place makes no difference, so the places are those of `p`
    let p (e : Compound) : Bool := cover c' e []
    have places : ∀ e ∈ ds, p e = true ↔ R c' e := fun e he => h.1 e (List.mem_append_left _ he) []
    have alike : ∀ e ∈ ds, ∀ parents, cover c' e parents = p e := fun e he parents =>
      Bool.eq_iff_iff.2 ((h.1 e (List.mem_append_left _ he) parents).trans (places e he).symm)
    have further : ∀ {rest}, (ds.dropWhile fun e => !p e).tail? = some rest →
        (walk cover ((cs ++ [c]).map .compound) ((rest ++ [d]).map .compound) = true ↔
          List.SublistForall₂ R cs rest ∧ R c d) := by
      intro rest found
      have within : rest ++ [d] ⊆ ds ++ [d] :=
        List.append_subset.2
          ⟨List.subset_append_of_subset_left _ (suffix_of_tail?_dropWhile found).subset,
          List.subset_append_right _ _⟩
      exact ih fun c₁ hc₁ d₁ hd₁ => h.2 c₁ hc₁ d₁ (within hd₁)
    rw [walk_map_compound_cons alike]
    constructor
    · rintro ⟨-, rest, found, yes⟩
      obtain ⟨laid, last⟩ := (further found).1 yes
      exact ⟨(sublistForall₂_cons_iff places).2 ⟨rest, found, laid⟩, last⟩
    · rintro ⟨laid, last⟩
      obtain ⟨rest, found, laid'⟩ := (sublistForall₂_cons_iff places).1 laid
      exact ⟨length_le_of_sublistForall₂ laid, rest, found, (further found).2 ⟨laid', last⟩⟩

end Walk

/-! ## The relation -/

/-- Rows without combinators, for a cover that does not look at what stands before: the ends are
related, and the parents are laid in. -/
theorem itemsSuperselector_map_compound_iff {R : Compound → Compound → Prop} {cs ds : List Compound}
    {c d : Compound} (h : ∀ c' ∈ cs ++ [c], ∀ d' ∈ ds ++ [d], ∀ parents,
      covers itemsSuperselector c' d' parents = true ↔ R c' d') :
    itemsSuperselector ((cs ++ [c]).map .compound) ((ds ++ [d]).map .compound) = true ↔
      List.SublistForall₂ R cs ds ∧ R c d := by
  have ends : ∀ (es : List Compound) (e : Compound),
      ((es ++ [e]).map Item.compound).getLast?.any Item.isCompound = true := by
    intro es e
    simp [Item.isCompound]
  rw [itemsSuperselector_eq, rowCovers, ends, ends, Bool.true_and, Bool.true_and,
    walk_map_compound_iff h]

/-- Without arguments a compound covers the same ones behind any parents. -/
theorem covers_eq_isSuperselector {c : Compound} (h : ∀ s ∈ c, s.argument? = none) (d : Compound)
    (parents : List Item) : covers itemsSuperselector c d parents = c.isSuperselector d := by
  rw [Compound.isSuperselector, covers, covers]
  refine congrArg (· && _) (all_congr_mem fun s hs => ?_)
  rw [Simple.metBehind_eq_metBy (h s hs), Simple.metBehind_eq_metBy (h s hs)]

/-- **A row without combinators and without arguments is above another one exactly if its compounds
can be sent, in order and the last to the last, to compounds that they are above.** -/
theorem itemsSuperselector_iff_strictMono {cs ds : List Compound} (hc : cs ≠ []) (hd : ds ≠ [])
    (plain : ∀ c ∈ cs, ∀ s ∈ c, s.argument? = none) :
    itemsSuperselector (cs.map .compound) (ds.map .compound) = true ↔
      ∃ f : Fin cs.length → Fin ds.length, StrictMono f ∧
        (∀ i, i.val + 1 = cs.length → (f i).val + 1 = ds.length) ∧
        ∀ i, Compound.isSuperselector (cs.get i) (ds.get (f i)) = true := by
  obtain ⟨cs, c, rfl⟩ := (List.eq_nil_or_concat' cs).resolve_left hc
  obtain ⟨ds, d, rfl⟩ := (List.eq_nil_or_concat' ds).resolve_left hd
  have above : ∀ c' ∈ cs ++ [c], ∀ d' ∈ ds ++ [d], ∀ parents,
      covers itemsSuperselector c' d' parents = true ↔ Compound.isSuperselector c' d' = true := by
    intro c' hc' d' _ parents
    rw [covers_eq_isSuperselector (plain c' hc')]
  rw [itemsSuperselector_map_compound_iff above]
  exact sublistForall₂_concat_iff_strictMono

/-- The row `.a .c` is above `.a.x .b .y .c`, and its two compounds go to the first and the last. -/
theorem itemsSuperselector_iff_strictMono_skipping : ∃ cs ds : List Compound,
    cs = [[.className "a"], [.className "c"]] ∧
    ds = [[.className "a", .className "x"], [.className "b"], [.className "y"], [.className "c"]] ∧
    itemsSuperselector (cs.map .compound) (ds.map .compound) = true ∧
    ∃ f : Fin cs.length → Fin ds.length, StrictMono f ∧
      (∀ i, i.val + 1 = cs.length → (f i).val + 1 = ds.length) ∧
      ∀ i, Compound.isSuperselector (cs.get i) (ds.get (f i)) = true := by
  refine ⟨_, _, rfl, rfl, by cbv, ?_⟩
  exact (itemsSuperselector_iff_strictMono (by simp) (by simp) (by simp [Simple.argument?])).1
    (by cbv)

end SelectorAlgebra
