import SelectorAlgebra.Selector.Equivalence
import SelectorAlgebra.Selector.Occurrence

/-!
# Proofs/Occurrence — what it means to stand in a selector at any depth

A condition occurs in a list if it stands in a compound of one of its choices, or occurs in the
argument of such a condition.  `simples` collects exactly these (`mem_simples_iff`), and a list
**mentions** a condition if it collects an equivalent one (`mentions_iff`).
-/

namespace SelectorAlgebra

/-- The condition stands in the list, or in an argument inside it at any depth. -/
inductive OccursIn (x : Simple) : SelectorList → Prop where
  | outside {l : SelectorList} {c : Complex} {d : Compound} (hc : c ∈ l)
      (hd : Item.compound d ∈ c.items) (hx : x ∈ d) : OccursIn x l
  | inside {l argument : SelectorList} {c : Complex} {d : Compound} {s : Simple} (hc : c ∈ l)
      (hd : Item.compound d ∈ c.items) (hs : s ∈ d) (harg : s.argument? = some argument)
      (hx : OccursIn x argument) : OccursIn x l

/-- The list has an equivalent condition, at any depth. -/
def SelectorList.Mentions (l : SelectorList) (t : Simple) : Prop :=
  ∃ x, OccursIn x l ∧ (x == t) = true

variable {x t : Simple} {l : SelectorList}

/-- The conditions of a condition: itself, and those of its argument. -/
theorem Simple.mem_simples {s : Simple} : x ∈ s.simples ↔
    x = s ∨ ∃ argument, s.argument? = some argument ∧ x ∈ SelectorList.simples argument := by
  rcases s with _ | _ | _ | _ | _ | _ | _ | ⟨_, _, _ | _⟩ <;>
    simp [Simple.simples, Simple.argument?, SelectorList.simples]

theorem mem_simplesOfItems : ∀ {row : List Item},
    x ∈ simplesOfItems row ↔ ∃ d, Item.compound d ∈ row ∧ ∃ s ∈ d, x ∈ s.simples
  | [] => by simp [simplesOfItems]
  | .compound c :: row => by
    have rest := @mem_simplesOfItems row
    simp [simplesOfItems, rest, or_and_right, exists_or]
  | .combinator k :: row => by
    have rest := @mem_simplesOfItems row
    simp [simplesOfItems, rest]

/-- A condition of a list is one of its compounds', or one of an argument's. -/
theorem mem_simples : x ∈ SelectorList.simples l ↔
    ∃ c ∈ l, ∃ d, Item.compound d ∈ c.items ∧ ∃ s ∈ d,
      x = s ∨ ∃ argument, s.argument? = some argument ∧ x ∈ SelectorList.simples argument := by
  rw [SelectorList.simples, simplesOfList_eq_flatMap, List.mem_flatMap]
  refine exists_congr fun c => and_congr_right fun _ => mem_simplesOfItems.trans ?_
  exact exists_congr fun d => and_congr_right fun _ => exists_congr fun s =>
    and_congr_right fun _ => Simple.mem_simples

/-- An argument nests less deep than the list it stands in. -/
theorem nestingOfList_argument_lt {argument : SelectorList} {c : Complex} {d : Compound}
    {s : Simple} (hc : c ∈ l) (hd : Item.compound d ∈ c.items) (hs : s ∈ d)
    (harg : s.argument? = some argument) :
    nestingOfList argument < nestingOfList l :=
  calc nestingOfList argument < s.nesting := nestingOfList_lt_nesting harg
    _ ≤ nestingOfCompound d := nesting_le_nestingOfCompound hs
    _ ≤ nestingOfItems c.items := nestingOfCompound_le_nestingOfItems hd
    _ ≤ nestingOfList l := nestingOfItems_le_nestingOfList hc

/-- What the traversal lists occurs; by induction on depth. -/
theorem occursIn_of_mem_simples {l : SelectorList} (h : x ∈ SelectorList.simples l) :
    OccursIn x l := by
  obtain ⟨c, hc, d, hd, s, hs, rfl | ⟨argument, harg, hx⟩⟩ := mem_simples.1 h
  · exact .outside hc hd hs
  · have := nestingOfList_argument_lt hc hd hs harg
    exact .inside hc hd hs harg (occursIn_of_mem_simples hx)
termination_by nestingOfList l

/-- **The conditions of a list are those that occur in it.** -/
theorem mem_simples_iff : x ∈ SelectorList.simples l ↔ OccursIn x l := by
  refine ⟨occursIn_of_mem_simples, fun h => ?_⟩
  induction h with
  | outside hc hd hx => exact mem_simples.2 ⟨_, hc, _, hd, x, hx, .inl rfl⟩
  | inside hc hd hs harg _ ih => exact mem_simples.2 ⟨_, hc, _, hd, _, hs, .inr ⟨_, harg, ih⟩⟩

theorem mentions_iff : l.Mentions t ↔ (SelectorList.simples l).contains t = true := by
  rw [List.contains_iff_exists_mem_beq]
  exact exists_congr fun x => and_congr mem_simples_iff.symm (by rw [BEq.comm])

end SelectorAlgebra
