/-!
# Sequence/Choices — picking one option from each choice
-/

namespace SelectorAlgebra

variable {α : Type}

/-- Every way to pick one option from each choice, in order.  Later choices vary slowest:

    [[1, 2], [3, 4], [5]]  ↦  [1, 3, 5], [2, 3, 5], [1, 4, 5], [2, 4, 5]
-/
def selections (choices : List (List α)) : List (List α) :=
  choices.foldl (fun picked choice => choice.flatMap fun o => picked.map (· ++ [o])) [[]]

end SelectorAlgebra
