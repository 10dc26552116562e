/-!
# TrackedHeap.Traversal

**Traversals**: walking over elements that were read once. A traversal is a value, so
a copy of it is a mark to come back to.
-/

namespace TrackedHeap

/-- A walk over elements. -/
structure Traversal (α : Type) where
  /-- The elements still to come. -/
  rest : List α
  deriving DecidableEq, Repr

namespace Traversal

variable {α : Type}

/-- The next element, if one is left, and the walk from there on. -/
def next (t : Traversal α) : Option α × Traversal α := (t.rest.head?, ⟨t.rest.tail⟩)

/-- How many elements are still to come. -/
def length (t : Traversal α) : Nat := t.rest.length

/-- A lower and an upper bound of the elements to come; both are exact. -/
def bounds (t : Traversal α) : Nat × Nat := (t.length, t.length)

/-- A step of a scripted walk. -/
inductive Word
  /-- Take the next element. -/
  | next
  /-- Count the elements to come. -/
  | length
  /-- Bound the elements to come. -/
  | bounds
  /-- Take all elements to come. -/
  | rest
  /-- Mark this place. -/
  | save
  /-- Go back to the place marked last. -/
  | restore
  deriving DecidableEq, Repr

/-- What a step shows. -/
inductive Sight (α : Type)
  /-- An element, or the end of the walk. -/
  | next (value : Option α)
  /-- A count. -/
  | length (n : Nat)
  /-- A lower and an upper bound. -/
  | bounds (lower upper : Nat)
  /-- A run of elements. -/
  | rest (values : List α)
  /-- Nothing: the step is about the place alone. -/
  | nothing
  deriving DecidableEq, Repr

/-- Walks as the script says, from `t` and with the place `mark` marked. -/
def play (t mark : Traversal α) : List Word → List (Sight α)
  | [] => []
  | .next :: script => .next t.next.1 :: play t.next.2 mark script
  | .length :: script => .length t.length :: play t mark script
  | .bounds :: script => .bounds t.bounds.1 t.bounds.2 :: play t mark script
  | .rest :: script => .rest t.rest :: play ⟨[]⟩ mark script
  | .save :: script => .nothing :: play t t script
  | .restore :: script => .nothing :: play mark mark script

/-- Walks as the script says over `values`. The start counts as marked. -/
def walk (values : List α) (script : List Word) : List (Sight α) := play ⟨values⟩ ⟨values⟩ script

end Traversal

end TrackedHeap
