import TrackedHeap.Refusal

/-!
# TrackedHeap.Failure

**Faults**, which no change of the request would mend, and **failures**, which
are refusals or faults.

Two faults are limits of the machine: an allocation that is too large, and a
registry that has run out of keys. The other three say that the parts of a heap
disagree about each other. They are kept as outcomes instead of being ruled out
by a default value, so that "the parts never disagree" is a statement about this
library and not an assumption of it.
-/

namespace TrackedHeap

/-- What cannot be mended by asking differently. -/
inductive Fault
  /-- More storage was asked for than can be addressed. -/
  | capacityOverflow
  /-- Every key is issued. -/
  | keysExhausted
  /-- A position points outside the array of slots. -/
  | strayPosition (position : Nat)
  /-- A key points outside the registry. -/
  | strayKey (key : Nat)
  /-- A key is retired though none is counted as issued. -/
  | issuedUnderflow
  deriving DecidableEq, Repr

/-- The sentence shown to a user. -/
def Fault.message : Fault → String
  | capacityOverflow => "capacity overflow"
  | keysExhausted => "handle table exhausted: more than 4294967295 live handles"
  | strayPosition position => s!"position {position} is outside the heap"
  | strayKey key => s!"key {key} is outside the handle table"
  | issuedUnderflow => "a key was retired that was not issued"

/-- Why an operation gives no answer. -/
inductive Failure
  /-- The request is declined and the heap is as it was. -/
  | refused (cause : Refusal)
  /-- The operation was cut off. -/
  | fault (cause : Fault)
  deriving DecidableEq, Repr

end TrackedHeap
