import TrackedHeap.Heap.Outcome

/-!
# TrackedHeap.Heap.Update

**Update**: another element under the same handle. The slot keeps its key and goes
where the new element belongs.
-/

namespace TrackedHeap

namespace Heap

variable {α : Type}

/-- Puts `value` into the slot at position `i` and answers with the element it
replaces. -/
def replaceAt (h : Heap α) (mint : Mint) (i : Nat) (value : α) : Except Fault (Change α α) :=
  if hi : i < h.slots.size then do
    let old := h.slots[i]
    let settled ← h.adopt
      (Sift.settle h.priority (h.slots.set i { old with value := value }) i (by simpa using hi))
    pure ⟨settled, mint, [], old.value⟩
  else .error (.strayPosition i)

/-- Replaces the element that a handle names, and answers with the previous one. -/
def update (h : Heap α) (mint : Mint) (handle : Handle) (value : α) : Outcome α α :=
  match h.registry.position handle with
  | .error cause => .failed h mint (.refused cause)
  | .ok i => .ofChange h mint (h.replaceAt mint i value)

end Heap

end TrackedHeap
