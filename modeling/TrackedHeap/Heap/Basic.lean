import TrackedHeap.Registry
import TrackedHeap.Sift
import TrackedHeap.StoragePolicy

/-!
# TrackedHeap.Heap.Basic

The **heap** itself, how one is made, and what can be read from it.

A heap is an array of slots in tree order beside a registry of handles. The two
refer to each other: a slot holds the key that names it, and the record of that key
holds the slot's position. Every operation that moves slots hands the positions it
went through to `Registry.follow`, which brings the records up to date.

The capacity is a number of the heap's own and not the size of the array: it is
what the storage policy decides about, and what events report.
-/

namespace TrackedHeap

/-- A priority queue whose elements can be reached through handles. -/
structure Heap (α : Type) where
  /-- The identity of the heap, the same for as long as it lives. -/
  id : Token
  /-- The ranking of the elements. -/
  priority : Priority α
  /-- How much storage is held. -/
  policy : StoragePolicy
  /-- How much storage one slot takes. -/
  slotSize : SlotSize
  /-- The elements, in tree order. -/
  slots : Array (Slot α) := #[]
  /-- How many slots are held in storage. -/
  capacity : Nat := policy.floor
  /-- The keys issued by this heap. -/
  registry : Registry
  /-- Counts the changes of the array of slots, modulo `2 ^ 64`. -/
  version : UInt64 := 0
  /-- The floor was allocated once, so an emptied heap can go back to it. -/
  floor_lt : policy.floor < slotSize.limit

namespace Registry

variable {α : Type}

/-- Notes where the slot at position `i` is, if a key names it. -/
def place (r : Registry) (slots : Array (Slot α)) (i : Nat) : Except Fault Registry :=
  match slots[i]? with
  | none => .error (.strayPosition i)
  | some ⟨_, none⟩ => .ok r
  | some ⟨_, some key⟩ => r.bind key i

/-- Notes where the slots at the listed positions are. -/
def follow (r : Registry) (slots : Array (Slot α)) : List Nat → Except Fault Registry
  | [] => .ok r
  | i :: rest => do
      let r ← r.place slots i
      r.follow slots rest

@[simp] theorem follow_nil (r : Registry) (slots : Array (Slot α)) :
    r.follow slots [] = .ok r := rfl

end Registry

namespace Heap

variable {α : Type}

/-! ## Making a heap -/

/-- An empty heap, and the mint that is left. The floor is allocated before any
token is drawn; then the identity is drawn, and after it the first owner token. -/
def create (policy : StoragePolicy) (priority : Priority α) (size : SlotSize) (mint : Mint) :
    Except Fault (Heap α × Mint) :=
  if h : policy.floor < size.limit then
    .ok ({ id := mint.draw.1
           priority := priority
           policy := policy
           slotSize := size
           registry := { owner := mint.draw.2.draw.1 }
           floor_lt := h },
      mint.draw.2.draw.2)
  else .error .capacityOverflow

/-! ## Reading -/

/-- How many elements there are. -/
def size (h : Heap α) : Nat := h.slots.size

/-- Whether there is no element. -/
def isEmpty (h : Heap α) : Bool := h.size = 0

/-- The elements, in tree order. -/
def values (h : Heap α) : List α := h.slots.toList.map (·.value)

/-- The keys of the elements, in tree order. -/
def keys (h : Heap α) : List (Option Nat) := h.slots.toList.map (·.key)

/-- The token stamped on the handles issued from now on. -/
def owner (h : Heap α) : Token := h.registry.owner

/-- How many handles are issued, with or without an element. -/
def issued (h : Heap α) : Nat := h.registry.issued

/-- The capacity below which the heap never falls. -/
def floor (h : Heap α) : Nat := h.policy.floor

/-- A heap takes no lock of its own. -/
def isSynchronized (_ : Heap α) : Bool := false

/-- The first element in rank. -/
def peek (h : Heap α) : Except Refusal α :=
  match h.slots[0]? with
  | some slot => .ok slot.value
  | none => .error .empty

/-- The element that a handle names. -/
def get (h : Heap α) (handle : Handle) : Except Failure α :=
  match h.registry.position handle with
  | .error cause => .error (.refused cause)
  | .ok i =>
      match h.slots[i]? with
      | some slot => .ok slot.value
      | none => .error (.fault (.strayPosition i))

/-- The element that a handle names, or nothing for any handle that names none. -/
def get? (h : Heap α) (handle : Handle) : Option α := (h.get handle).toOption

/-- Whether a handle names an element of this heap. -/
def containsHandle (h : Heap α) (handle : Handle) : Bool := (h.registry.position handle).isOk

/-- The position of the first element, in tree order, with a property. -/
def indexOf? (h : Heap α) (holds : α → Bool) : Option Nat :=
  h.slots.findIdx? fun slot => holds slot.value

/-- Whether some element has a property. -/
def any (h : Heap α) (holds : α → Bool) : Bool := (h.indexOf? holds).isSome

/-- Whether some element equals `value`. -/
def contains [BEq α] (h : Heap α) (value : α) : Bool := h.any (· == value)

/-! ## Taking over rearranged slots -/

/-- Takes over the slots of a sift: the registry follows the path, and the version
counts the change, and counts it once more if the sifted slot left its place. -/
def adopt (h : Heap α) (s : Sifted α) : Except Fault (Heap α) := do
  let registry ← h.registry.follow s.slots s.path
  pure { h with
    slots := s.slots
    registry := registry
    version := h.version + if s.moved then 2 else 1 }

@[simp] theorem length_values (h : Heap α) : h.values.length = h.size := by
  simp [values, size]

@[simp] theorem length_keys (h : Heap α) : h.keys.length = h.size := by
  simp [keys, size]

end Heap

end TrackedHeap
