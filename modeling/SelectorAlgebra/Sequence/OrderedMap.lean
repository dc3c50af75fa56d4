/-!
# Sequence/OrderedMap — tables in the order of their first insertion

A key keeps the place, and the exact form, it was first inserted with; a later insertion under an
equivalent key (`==`) only replaces the value.
-/

namespace SelectorAlgebra

/-- Keys with their values, in the order the keys came in. -/
structure OrderedMap (κ ν : Type) where
  entries : List (κ × ν)

namespace OrderedMap

variable {κ ν : Type} [BEq κ]

/-- The table without entries. -/
def empty : OrderedMap κ ν := ⟨[]⟩

instance : Inhabited (OrderedMap κ ν) := ⟨empty⟩

/-- Whether there is no entry. -/
def isEmpty (m : OrderedMap κ ν) : Bool := m.entries.isEmpty

/-- The number of keys. -/
def size (m : OrderedMap κ ν) : Nat := m.entries.length

/-- The keys, first ones first. -/
def keys (m : OrderedMap κ ν) : List κ := m.entries.map Prod.fst

/-- The values, in the order of their keys. -/
def values (m : OrderedMap κ ν) : List ν := m.entries.map Prod.snd

/-- The value under a key. -/
def get? (m : OrderedMap κ ν) (key : κ) : Option ν :=
  (m.entries.find? (·.1 == key)).map Prod.snd

/-- Whether there is a value under the key. -/
def contains (m : OrderedMap κ ν) (key : κ) : Bool := m.entries.any (·.1 == key)

/-- The entries with the value under a key changed by `change`, or with a new entry at the end. -/
def alterEntries (key : κ) (change : Option ν → ν) : List (κ × ν) → List (κ × ν)
  | [] => [(key, change none)]
  | (k, v) :: rest =>
    if k == key then (k, change (some v)) :: rest else (k, v) :: alterEntries key change rest

/-- The table with the value under a key computed from the one that was there. -/
def alter (m : OrderedMap κ ν) (key : κ) (change : Option ν → ν) : OrderedMap κ ν :=
  ⟨alterEntries key change m.entries⟩

/-- The table with a value under a key. -/
def insert (m : OrderedMap κ ν) (key : κ) (value : ν) : OrderedMap κ ν :=
  m.alter key fun _ => value

/-- The table with a value under a key unless there is one already. -/
def insertNew (m : OrderedMap κ ν) (key : κ) (value : ν) : OrderedMap κ ν :=
  m.alter key fun old => old.getD value

/-- The table without the entry under a key; the others keep their order. -/
def erase (m : OrderedMap κ ν) (key : κ) : OrderedMap κ ν :=
  ⟨m.entries.eraseP (·.1 == key)⟩

/-- The table with all of the given entries inserted, one after the other. -/
def insertAll (m : OrderedMap κ ν) (entries : List (κ × ν)) : OrderedMap κ ν :=
  entries.foldl (fun m e => m.insert e.1 e.2) m

/-- The table of the given entries. -/
def ofList (entries : List (κ × ν)) : OrderedMap κ ν := empty.insertAll entries

end OrderedMap

/-- The list with an element at its end unless it holds an equivalent one. -/
def addDistinct {α : Type} [BEq α] (xs : List α) (x : α) : List α :=
  if xs.contains x then xs else xs ++ [x]

end SelectorAlgebra
