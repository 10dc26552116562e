import TrackedHeap.Token

/-!
# TrackedHeap.Handle

**Handles**: plain values that name one element of one heap. Holding a handle
keeps nothing alive. Whether it still names something is decided by the registry
of the heap it is shown to, from its three fields alone, so a handle made up
outside and one issued by a heap are the same if their fields are.
-/

namespace TrackedHeap

/-- The name of an element. -/
structure Handle where
  /-- The token under which the handle was issued. -/
  owner : Token
  /-- The record of the registry that answers for it. -/
  key : Nat
  /-- How often that record had been retired when the handle was issued. -/
  generation : Nat
  deriving DecidableEq, Hashable, Repr

/-- How many different handles a list holds. No heap needs it: it is for callers who
collect handles and want to see whether one was given out twice. -/
def Handle.countDistinct (handles : List Handle) : Nat := handles.eraseDups.length

end TrackedHeap
