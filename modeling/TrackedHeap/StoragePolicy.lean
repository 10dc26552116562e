/-!
# TrackedHeap.StoragePolicy

**Storage policies**: how many slots a heap keeps, as a function of how many it
uses. A policy has four numbers. They may be set through the `with…` functions,
which keep them sensible, or written directly, which does not: every rule below
is meant for any four numbers.

Counts of slots are natural numbers with one ceiling, `wordMax`: sums and products
that would pass it stop there. How many slots can be allocated is another matter. It
depends on the bytes of a slot (`SlotSize`), for what is limited is bytes.
-/

namespace TrackedHeap

/-- How many bytes a slot takes. It is the element type that decides, but the mark of
the key beside the element takes eight of them whatever the type is. -/
structure SlotSize where
  /-- The bytes of one slot. -/
  bytes : Nat
  eight_le : 8 ≤ bytes := by decide

namespace SlotSize

/-- The size of the slots of elements that take one word of eight bytes. -/
def word : SlotSize := { bytes := 16 }

/-- The most bytes that can be allocated at once, `2 ^ 63 - 1`. -/
def maxBytes : Nat := 0x7fffffffffffffff

/-- Storage for this many slots or more cannot be allocated. -/
def limit (size : SlotSize) : Nat := maxBytes / size.bytes + 1

/-- The limit of the smallest slots, `2 ^ 60`. -/
def maxLimit : Nat := 0x1000000000000000

/-- What can be allocated is decided by the bytes. -/
theorem lt_limit_iff {size : SlotSize} {slots : Nat} :
    slots < size.limit ↔ slots * size.bytes ≤ maxBytes := by
  have hpos : 0 < size.bytes := Nat.lt_of_lt_of_le (by decide) size.eight_le
  rw [limit, Nat.lt_succ_iff, Nat.le_div_iff_mul_le hpos]

theorem limit_le (size : SlotSize) : size.limit ≤ maxLimit :=
  Nat.succ_le_succ (Nat.div_le_div_left size.eight_le (by decide))

end SlotSize

/-- The floor of a policy that says nothing about it. -/
def StoragePolicy.defaultFloor : Nat := 4

/-- How a heap sizes its array of slots. -/
structure StoragePolicy where
  /-- Slots held from the start, and kept from then on. -/
  floor : Nat := StoragePolicy.defaultFloor
  /-- The least number of slots added when a full heap grows. -/
  minGrowth : Nat := 4
  /-- An emptied heap goes back to the floor once it holds more than this many
  times the floor. -/
  shrinkFactor : Nat := 4
  /-- The fill level below which a heap is cut back on request. -/
  trimThreshold : Float := 0.9
  deriving BEq

namespace StoragePolicy

/-- The largest count of slots that can be written down, `2 ^ 64 - 1`. -/
def wordMax : Nat := 0xffffffffffffffff

/-- Sets the floor. -/
def withFloor (p : StoragePolicy) (slots : Nat) : StoragePolicy := { p with floor := slots }

/-- Sets the least growth, to one at least. -/
def withMinGrowth (p : StoragePolicy) (slots : Nat) : StoragePolicy :=
  { p with minGrowth := max slots 1 }

/-- Sets the shrink factor, to one at least. -/
def withShrinkFactor (p : StoragePolicy) (factor : Nat) : StoragePolicy :=
  { p with shrinkFactor := max factor 1 }

/-- Sets the trim threshold to the nearest level between zero and one. What is not
a number has no nearest level and stays. -/
def withTrimThreshold (p : StoragePolicy) (level : Float) : StoragePolicy :=
  { p with trimThreshold := if level < 0 then 0 else if 1 < level then 1 else level }

/-- The number of slots a full heap of `current` slots grows to: twice as many, or
`minGrowth` more if that is the larger step. A growth of zero counts as one, so a
full heap always gains room. -/
def grown (p : StoragePolicy) (current : Nat) : Nat :=
  max (min (current * 2) wordMax)
    (min (current + max p.minGrowth 1) wordMax)

/-- Whether an emptied heap with this capacity goes back to the floor. The same
measure tells a large registry from a small one. -/
def shouldRelease (p : StoragePolicy) (capacity : Nat) : Bool :=
  min (p.floor * p.shrinkFactor) wordMax < capacity

/-- Whether `live` elements use so little of `capacity` that it is cut back. -/
def shouldTrim (p : StoragePolicy) (live capacity : Nat) : Bool :=
  Float.ofNat live < Float.ofNat capacity * p.trimThreshold

/-- The capacity left after trimming: enough for the elements and for the floor,
and never more than before. -/
def trimmed (p : StoragePolicy) (live capacity : Nat) : Nat :=
  min capacity (max live p.floor)

/-- Growing gains room, unless the count is at its ceiling. -/
theorem lt_grown (p : StoragePolicy) {current : Nat} (h : current < wordMax) :
    current < p.grown current := by
  simp only [grown, wordMax] at *
  omega

end StoragePolicy

end TrackedHeap
