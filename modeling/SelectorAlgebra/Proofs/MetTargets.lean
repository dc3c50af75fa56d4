import Mathlib.Data.List.Perm.Subperm
import SelectorAlgebra.Proofs.ValidExtension

/-!
# Proofs/MetTargets — when a compound meets enough of a target

Outside a style sheet all conditions of a target have to be met, but they are only counted: the
conditions of the compound that are targets against the keys of the table of extensions.

* `enoughTargets_iff` — the count says that all are met, if any is.

Neither list names a condition twice, up to equivalence, and the first has nothing that the second
has not.  Two such lists have the same length exactly if they have the same elements
(`length_foldl_addDistinct_le_iff`).
-/

namespace SelectorAlgebra

/-! ## Lists without repetitions -/

section Distinct

variable {α β : Type} [BEq α] {f : α → β} (hf : ∀ x y, (x == y) = true ↔ f x = f y)
  {xs ys found : List α}
include hf

/-- Being in a list up to equality, for an equality that compares images under `f`. -/
theorem contains_iff_mem_map {x : α} : xs.contains x = true ↔ f x ∈ xs.map f := by
  rw [List.contains_iff_exists_mem_beq, List.mem_map]
  exact exists_congr fun y => and_congr_right fun _ => (hf x y).trans eq_comm

theorem mem_map_addDistinct {x : α} {y : β} :
    y ∈ (addDistinct found x).map f ↔ y ∈ found.map f ∨ y = f x := by
  unfold addDistinct
  split
  · rename_i known
    refine ⟨.inl, fun h => h.elim id ?_⟩
    rintro rfl
    exact (contains_iff_mem_map hf).1 known
  · simp [eq_comm]

/-- Adding only what is new keeps the images distinct. -/
theorem nodup_map_addDistinct (h : (found.map f).Nodup) (x : α) :
    ((addDistinct found x).map f).Nodup := by
  unfold addDistinct
  split
  · exact h
  · rename_i new
    rw [List.map_append, List.map_singleton, ← List.concat_eq_append]
    exact h.concat fun known => new ((contains_iff_mem_map hf).2 known)

/-- A run of additions collects the images of both lists. -/
theorem mem_map_foldl_addDistinct {y : β} :
    y ∈ (xs.foldl addDistinct found).map f ↔ y ∈ found.map f ∨ y ∈ xs.map f := by
  induction xs generalizing found with
  | nil => simp
  | cons x xs ih =>
    rw [List.foldl_cons, ih, mem_map_addDistinct hf, List.map_cons, List.mem_cons, or_assoc]

/-- A run of additions keeps them distinct. -/
theorem nodup_map_foldl_addDistinct (h : (found.map f).Nodup) (xs : List α) :
    ((xs.foldl addDistinct found).map f).Nodup := by
  induction xs generalizing found with
  | nil => exact h
  | cons x xs ih => exact ih (nodup_map_addDistinct hf h x)

theorem subperm_foldl_addDistinct (sub : xs.map f ⊆ ys.map f) :
    ((xs.foldl addDistinct []).map f).Subperm ((ys.foldl addDistinct []).map f) := by
  have nodup : ((xs.foldl addDistinct []).map f).Nodup :=
    nodup_map_foldl_addDistinct hf (by simp) xs
  refine List.subperm_of_subset nodup fun y hy => ?_
  rw [mem_map_foldl_addDistinct hf] at hy ⊢
  exact hy.imp_right fun mem => sub mem

/-- Fewer images, fewer distinct members. -/
theorem length_foldl_addDistinct_le (sub : xs.map f ⊆ ys.map f) :
    (xs.foldl addDistinct []).length ≤ (ys.foldl addDistinct []).length := by
  simpa using (subperm_foldl_addDistinct hf sub).length_le

/-- **Counting without repetitions compares two lists**, if one has all that the other has. -/
theorem length_foldl_addDistinct_le_iff (sub : xs.map f ⊆ ys.map f) :
    (ys.foldl addDistinct []).length ≤ (xs.foldl addDistinct []).length ↔ ys.map f ⊆ xs.map f := by
  refine ⟨fun h y hy => ?_, length_foldl_addDistinct_le hf⟩
  have perm := (subperm_foldl_addDistinct hf sub).perm_of_length_le (by simpa using h)
  have mem := perm.symm.subset ((mem_map_foldl_addDistinct hf).2 (.inr hy))
  rw [mem_map_foldl_addDistinct hf] at mem
  exact mem.resolve_left List.not_mem_nil

end Distinct

/-! ## Enough of the target -/

section Enough

variable {mode : ExtendMode} {sources : SourceSpecificity} {media : Option MediaContext}
  {source : SelectorList} {target c : Compound} {span : Span}

theorem Compound.contains_iff {s : Simple} :
    List.contains c s = true ↔ s.canonical ∈ c.map Simple.canonical :=
  contains_iff_mem_map fun _ _ => Simple.beq_iff

/-- The table of one substitution has an entry for each distinct condition of the target. -/
theorem size_extensionsOf :
    (extensionsOf source target span).size = (target.foldl addDistinct []).length := by
  have keys : (extensionsOf source target span).keys = target.foldl addDistinct [] := by
    rw [extensionsOf, OrderedMap.ofList, OrderedMap.keys_insertAll, List.map_map]
    exact congrArg (List.foldl addDistinct []) (List.map_id target)
  rw [← keys, OrderedMap.keys, List.length_map, OrderedMap.size]

/-- The targets a compound meets are its conditions in the target, without repetitions. -/
theorem targetsMet_extensionsOf :
    ExtendContext.targetsMet ⟨mode, sources, extensionsOf source target span, media⟩
      (c.map fun s => (s, none)) = (c.filter target.contains).foldl addDistinct [] := by
  have conditions : (c.map fun s => (s, (none : Option (List Simple)))).flatMap
      (fun part => part.2.getD [part.1]) = c := by
    simp [List.flatMap_map]
  rw [ExtendContext.targetsMet, conditions]
  exact congrArg (List.foldl addDistinct []) (List.filter_congr fun s _ => contains_extensionsOf s)

theorem map_filter_contains_subset :
    (c.filter target.contains).map Simple.canonical ⊆ target.map Simple.canonical := by
  intro y hy
  obtain ⟨s, hs, rfl⟩ := List.mem_map.1 hy
  exact Compound.contains_iff.1 (List.mem_filter.1 hs).2

/-- The whole target is met exactly when each of its conditions is there. -/
theorem map_subset_filter_contains : target.map Simple.canonical
      ⊆ (c.filter target.contains).map Simple.canonical ↔
      ∀ s ∈ target, List.contains c s = true := by
  constructor
  · intro sub s hs
    have mem := sub (List.mem_map_of_mem hs)
    exact Compound.contains_iff.2 (List.map_subset _ (List.filter_subset_self _) mem)
  · intro all y hy
    obtain ⟨s, hs, rfl⟩ := List.mem_map.1 hy
    obtain ⟨s', hs', equal⟩ := List.mem_map.1 (Compound.contains_iff.1 (all s hs))
    rw [← equal] at hy ⊢
    exact List.mem_map_of_mem (List.mem_filter.2 ⟨hs', Compound.contains_iff.2 hy⟩)

/-- **Enough of a target is met if all of it is**, by a compound that meets any of it. -/
theorem enoughTargets_iff (hm : mode ≠ .normal) (meets : ∃ s ∈ c, target.contains s = true) :
    ExtendContext.enoughTargets ⟨mode, sources, extensionsOf source target span, media⟩
      (c.map fun s => (s, none)) = true ↔ ∀ s ∈ target, List.contains c s = true := by
  have same : ∀ s t : Simple, (s == t) = true ↔ s.canonical = t.canonical :=
    fun _ _ => Simple.beq_iff
  have short : ((c.filter target.contains).foldl addDistinct []).length
      ≤ (target.foldl addDistinct []).length :=
    length_foldl_addDistinct_le same map_filter_contains_subset
  have filled : 0 < ((c.filter target.contains).foldl addDistinct []).length := by
    obtain ⟨s, hs, targeted⟩ := meets
    have mem : s.canonical ∈
        ((c.filter target.contains).foldl addDistinct []).map Simple.canonical :=
      (mem_map_foldl_addDistinct same).2
        (.inr (List.mem_map_of_mem (List.mem_filter.2 ⟨hs, targeted⟩)))
    simpa using List.length_pos_of_mem mem
  rw [← map_subset_filter_contains, ← length_foldl_addDistinct_le_iff same
    map_filter_contains_subset, ExtendContext.enoughTargets, targetsMet_extensionsOf]
  simp only [size_extensionsOf, Bool.or_eq_true, beq_iff_eq, hm, false_or, decide_eq_true_eq]
  -- a target of one condition is met by any condition that is met
  omega

end Enough

end SelectorAlgebra
