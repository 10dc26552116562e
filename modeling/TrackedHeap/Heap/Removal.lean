import TrackedHeap.Heap.Storage

/-!
# TrackedHeap.Heap.Removal

**Removal**: of the first element in rank, of the one a handle names, of the first one
in tree order with a property, and of all.

A single removal (`removeAt`) fills the hole with the last slot, which may then have
to go either way. A heap that becomes empty releases what it can.
-/

namespace TrackedHeap

namespace Heap

variable {α : Type}

/-- The slots without the one at `i`, whose place the last slot takes. -/
def withoutSlot (slots : Array (Slot α)) (i : Nat) (hi : i < slots.size) : Array (Slot α) :=
  (slots.swap i (slots.size - 1)).pop

@[simp] theorem size_withoutSlot (slots : Array (Slot α)) (i : Nat) (hi : i < slots.size) :
    (withoutSlot slots i hi).size = slots.size - 1 := by
  simp [withoutSlot]

/-- Takes out the slot at position `i` and answers with its element. -/
def removeAt (h : Heap α) (mint : Mint) (i : Nat) : Except Fault (Change α α) :=
  if hi : i < h.slots.size then do
    let removed := h.slots[i]
    let registry ← h.registry.retire? removed.key
    let slots := withoutSlot h.slots i hi
    let shorter := { h with slots := slots, registry := registry }
    if hs : i < slots.size then
      -- What was the last slot now stands at `i`, and may have to go either way.
      let settled ← shorter.adopt (Sift.settle h.priority slots i hs)
      pure ⟨settled, mint, [], removed.value⟩
    else
      -- The slot taken out was the last one, so no other has moved.
      let touched := { shorter with version := h.version + 1 }
      if slots.isEmpty then pure ((touched.releaseEmpty mint).answering removed.value)
      else pure ⟨touched, mint, [], removed.value⟩
  else .error (.strayPosition i)

/-- Takes out the first element in rank. -/
def pop (h : Heap α) (mint : Mint) : Outcome α α :=
  if h.isEmpty then .failed h mint (.refused .empty) else .ofChange h mint (h.removeAt mint 0)

/-- Takes out the element that a handle names. -/
def remove (h : Heap α) (mint : Mint) (handle : Handle) : Outcome α α :=
  match h.registry.position handle with
  | .error cause => .failed h mint (.refused cause)
  | .ok i => .ofChange h mint (h.removeAt mint i)

/-- Takes out the first element, in tree order, with a property, if there is one. The
property is a function of the element: one that remembers what it was asked before, and
so may choose among equal elements, is not covered. -/
def removeFirst (h : Heap α) (mint : Mint) (holds : α → Bool) : Outcome α (Option α) :=
  match h.indexOf? holds with
  | none => .done h mint none
  | some i => (Outcome.ofChange h mint (h.removeAt mint i)).map some

/-- Takes out the first element, in tree order, that equals `value`, and answers
whether there was one. -/
def removeValue [BEq α] (h : Heap α) (mint : Mint) (value : α) : Outcome α Bool :=
  (h.removeFirst mint (· == value)).map Option.isSome

/-- Takes out up to `count` elements in rank order, with the refusal that ended the
row early if one did. -/
def popMany (h : Heap α) (mint : Mint) : Nat → Outcome α (List α × Option Refusal)
  | 0 => .done h mint ([], none)
  | count + 1 =>
      let popped := h.pop mint
      match popped.answer with
      | .error (.refused cause) => ⟨popped.heap, popped.mint, popped.events, .ok ([], some cause)⟩
      | _ => popped.andThen fun h mint value =>
          (h.popMany mint count).map fun (values, ended) => (value :: values, ended)

/-- Takes out all elements in rank order. -/
def drain (h : Heap α) (mint : Mint) : Outcome α (List α) := (h.popMany mint h.size).map Prod.fst

/-- Drops all elements and takes back their keys, in tree order. -/
def clear (h : Heap α) (mint : Mint) : Outcome α Unit :=
  .ofChange h mint do
    let registry ← h.registry.retireAll h.keys
    let emptied := { h with slots := #[], registry := registry }
    let released := emptied.releaseEmpty mint
    pure { released with heap := { released.heap with version := h.version + 1 } }

end Heap

end TrackedHeap
