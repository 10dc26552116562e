import TrackedHeap.Heap.Storage

/-!
# TrackedHeap.Heap.Insertion

**Insertion**, in three ways: without a handle (`push`), under a new handle
(`insert`), and under a handle that was reserved before (`insertWith`). All three put
a slot behind the last one and sift it up (`append`), and differ in the key of that
slot alone.
-/

namespace TrackedHeap

namespace Heap

variable {α : Type}

/-- Adds a slot: behind the last one, from where it rises to its place. -/
def append (h : Heap α) (mint : Mint) (slot : Slot α) : Except Fault (Change α Unit) := do
  let (roomy, events) ← h.makeRoom
  let longer ← roomy.adopt
    (Sift.up roomy.priority (roomy.slots.push slot) roomy.slots.size (by simp))
  pure ⟨longer, mint, events, ()⟩

/-- Adds an element without a handle. -/
def push (h : Heap α) (mint : Mint) (value : α) : Outcome α Unit :=
  .ofChange h mint (h.append mint ⟨value, none⟩)

/-- Issues a handle to store an element under later. -/
def reserve (h : Heap α) (mint : Mint) : Outcome α Handle :=
  match h.registry.reserve with
  | .ok (handle, registry) => .done { h with registry := registry } mint handle
  | .error fault => .failed h mint (.fault fault)

/-- Gives a reserved handle back unused. -/
def release (h : Heap α) (mint : Mint) (handle : Handle) : Outcome α Unit :=
  match h.registry.unboundKey handle with
  | .error cause => .failed h mint (.refused cause)
  | .ok key =>
      match h.registry.retire key with
      | .ok registry => .done { h with registry := registry } mint ()
      | .error fault => .failed h mint (.fault fault)

/-- Adds an element under a reserved handle. -/
def insertWith (h : Heap α) (mint : Mint) (handle : Handle) (value : α) : Outcome α Unit :=
  match h.registry.unboundKey handle with
  | .error cause => .failed h mint (.refused cause)
  | .ok key => .ofChange h mint (h.append mint ⟨value, some key⟩)

/-- Adds an element under a new handle. The handle is issued first, and stays issued
when there turns out to be no room for the element. -/
def insert (h : Heap α) (mint : Mint) (value : α) : Outcome α Handle :=
  (h.reserve mint).andThen fun h mint handle =>
    .ofChange h mint ((h.append mint ⟨value, some handle.key⟩).map (·.answering handle))

/-- Adds elements without handles, one after another. -/
def extend (h : Heap α) (mint : Mint) : List α → Outcome α Unit
  | [] => .done h mint ()
  | value :: rest => (h.push mint value).andThen fun h mint _ => h.extend mint rest

/-- Adds elements under new handles, one after another. No other operation needs it: it is
for callers, who would otherwise repeat `insert` and collect the handles themselves. The
answer is all the handles or the failure that ended the row; what was added before the
failure stays. -/
def insertMany (h : Heap α) (mint : Mint) : List α → Outcome α (List Handle)
  | [] => .done h mint []
  | value :: rest =>
      (h.insert mint value).andThen fun h mint handle =>
        (h.insertMany mint rest).map (handle :: ·)

end Heap

end TrackedHeap
