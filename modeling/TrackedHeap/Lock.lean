import TrackedHeap.Heap.Basic

/-!
# TrackedHeap.Lock

**Locks** for callers that share a heap. Each heap has one lock, the same for everyone
who asks, and different heaps have different locks. A heap never takes its own.
-/

namespace TrackedHeap

/-- A lock, known by the heap it guards. -/
structure Lock where
  /-- The identity of the heap. -/
  guarded : Token
  deriving DecidableEq, Repr

/-- The lock of a heap. -/
def Heap.lock {α : Type} (h : Heap α) : Lock := ⟨h.id⟩

/-- The locks that are taken at one moment. -/
abbrev HeldLocks := List Lock

namespace HeldLocks

/-- Takes a lock, if it is not taken. -/
def acquire? (held : HeldLocks) (lock : Lock) : Option HeldLocks :=
  if lock ∈ held then none else some (lock :: held)

/-- Gives a lock back. -/
def release (held : HeldLocks) (lock : Lock) : HeldLocks := held.erase lock

end HeldLocks

/-- How two locks stand to each other. -/
structure LockRelation where
  /-- Whether they are one lock. -/
  same : Bool
  /-- Whether the second can be taken while the first is. -/
  duringFirst : Bool
  /-- Whether the second can be taken once the first is given back. -/
  afterFirst : Bool
  deriving DecidableEq, Repr

/-- Tries the second lock while the first is taken, and once more afterwards. -/
def Lock.relation (a b : Lock) : LockRelation :=
  let held : HeldLocks := [a]
  ⟨a = b, (held.acquire? b).isSome, ((held.release a).acquire? b).isSome⟩

end TrackedHeap
