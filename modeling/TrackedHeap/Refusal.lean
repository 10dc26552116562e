/-!
# TrackedHeap.Refusal

**Refusals**: why a heap declines a request. Each cause carries the numbers its
text speaks of. A refusal is an ordinary answer: the heap that gives one is as it
was before the request.
-/

namespace TrackedHeap

/-- Why a request is declined. -/
inductive Refusal
  /-- There is no element to show or to take. -/
  | empty
  /-- The handle, or the cursor, belongs to another heap. -/
  | foreignHandle
  /-- The handle named an element that is gone. -/
  | staleHandle
  /-- The handle is reserved, and no element has been stored under it yet. -/
  | unboundHandle
  /-- The handle already names an element. -/
  | handleInUse
  /-- The heap changed under a running traversal. -/
  | concurrentModification
  /-- The handle's key is beyond every key the heap has issued. -/
  | malformedHandle (key : Nat)
  /-- The copy would start behind the end of its target. -/
  | offsetOutOfRange (offset length : Nat)
  /-- The target has too little room behind the offset. -/
  | insufficientSpace (needed available : Nat)
  /-- The element at this position has no counterpart of the target's type. -/
  | incompatibleElement (index : Nat)
  deriving DecidableEq, Repr

namespace Refusal

/-- The broad classes of refusals. -/
inductive Category
  /-- What was passed can never be used in this request. -/
  | invalidArgument
  /-- What was passed is well formed, and the heap is not in a state to use it. -/
  | invalidOperation
  deriving DecidableEq, Repr

/-- The name a category goes by. -/
def Category.name : Category → String
  | invalidArgument => "InvalidArgument"
  | invalidOperation => "InvalidOperation"

/-- The class of a refusal. -/
def category : Refusal → Category
  | malformedHandle _ | offsetOutOfRange _ _ | insufficientSpace _ _ | incompatibleElement _ =>
      .invalidArgument
  | empty | foreignHandle | staleHandle | unboundHandle | handleInUse | concurrentModification =>
      .invalidOperation

/-- Whether the cause lies in a handle that does not name an element of this heap. -/
def concernsHandle : Refusal → Bool
  | foreignHandle | staleHandle | unboundHandle | handleInUse | malformedHandle _ => true
  | empty | concurrentModification | offsetOutOfRange _ _ | insufficientSpace _ _
  | incompatibleElement _ => false

/-- The name a refusal goes by. -/
def name : Refusal → String
  | empty => "Empty"
  | foreignHandle => "ForeignHandle"
  | staleHandle => "StaleHandle"
  | unboundHandle => "UnboundHandle"
  | handleInUse => "HandleInUse"
  | concurrentModification => "ConcurrentModification"
  | malformedHandle _ => "MalformedHandle"
  | offsetOutOfRange _ _ => "OffsetOutOfRange"
  | insufficientSpace _ _ => "InsufficientSpace"
  | incompatibleElement _ => "IncompatibleElement"

/-- The sentence shown to a user. -/
def message : Refusal → String
  | empty => "heap is empty"
  | foreignHandle => "handle is not valid for this heap"
  | staleHandle => "handle is not associated to a value"
  | unboundHandle => "handle has not been inserted yet"
  | handleInUse => "handle is already bound to a value"
  | concurrentModification => "heap was modified while enumerating"
  | malformedHandle key => s!"handle key {key} was never issued by this heap"
  | offsetOutOfRange offset length =>
      s!"offset {offset} is outside the target of length {length}"
  | insufficientSpace needed available =>
      s!"not enough space in target: need {needed}, have {available}"
  | incompatibleElement index => s!"invalid element type for target at index {index}"

/-- The numbers a refusal carries, each under its label. -/
def details : Refusal → List (String × Nat)
  | malformedHandle key => [("key", key)]
  | offsetOutOfRange offset length => [("offset", offset), ("len", length)]
  | insufficientSpace needed available => [("needed", needed), ("available", available)]
  | incompatibleElement index => [("index", index)]
  | _ => []

/-- The name, followed by the details in braces when there are any. -/
def describe (r : Refusal) : String :=
  match r.details with
  | [] => r.name
  | details =>
      let fields := details.map fun (label, n) => s!"{label}: {n}"
      r.name ++ " \x7b " ++ ", ".intercalate fields ++ " \x7d"

end Refusal

end TrackedHeap
