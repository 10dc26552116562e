import TrackedHeap.Element.Basic

/-!
# TrackedHeap.Element.Conversion

**Conversions** of elements to narrower types, for copying a heap out. A conversion has
no answer for an element that the narrower type cannot hold.
-/

namespace TrackedHeap

/-- A type to convert to. -/
inductive Conversion
  /-- Integers of this many bits, without a sign. -/
  | unsigned (bits : Nat)
  /-- Integers of this many bits, signed. -/
  | signed (bits : Nat)
  /-- Texts of three encoded bytes at most. -/
  | shortText
  /-- Texts. -/
  | text
  /-- The first part of a pair, as an integer of eight bits without a sign. -/
  | firstByte
  deriving DecidableEq, Repr

namespace Conversion

/-- An integer, if it is not less than `low` and less than `high`. -/
def within (low high n : Int) : Option Element :=
  if low ≤ n ∧ n < high then some (.int n) else none

/-- The converted element, if there is one. -/
def convert : Conversion → Element → Option Element
  | unsigned bits, .int n => within 0 (Nat.pow 2 bits) n
  | signed bits, .int n => within (-Nat.pow 2 (bits - 1)) (Nat.pow 2 (bits - 1)) n
  | shortText, .text s => if s.utf8ByteSize ≤ 3 then some (.text s) else none
  | text, .text s => some (.text s)
  | firstByte, .pair n _ => within 0 256 n
  | _, _ => none

/-- The kind of the converted elements. -/
def kind : Conversion → Kind
  | unsigned _ | signed _ | firstByte => .int
  | shortText | text => .text

theorem kind_within {low high n : Int} {b : Element} (h : within low high n = some b) :
    b.kind = .int := by
  unfold within at h
  split at h <;> cases h
  rfl

end Conversion

end TrackedHeap
