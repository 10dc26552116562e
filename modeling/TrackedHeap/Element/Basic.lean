import TrackedHeap.Binary64.Basic
import TrackedHeap.StoragePolicy

/-!
# TrackedHeap.Element.Basic

**Elements** of the four kinds that a heap can be asked for by name: integers, texts,
pairs of both, and floating point numbers. A heap holds elements of one kind.

Texts are ordered by code points, which is also the order of their encoded bytes.
Pairs are ordered by their first part, and by their second where the first is the same.
-/

namespace TrackedHeap

/-- The kinds of elements. -/
inductive Kind
  /-- Integers of 64 bits, signed. -/
  | int
  /-- Texts. -/
  | text
  /-- An integer with a text. -/
  | pair
  /-- Floating point numbers. -/
  | real
  deriving DecidableEq, Repr

/-- How many bytes a slot takes for an element of this kind: one word for a number and three for a
text, beside the mark of the key. -/
def Kind.slotSize : Kind → SlotSize
  | int | real => .word
  | text => { bytes := 32 }
  | pair => { bytes := 40 }

/-- An element. -/
inductive Element
  /-- An integer. -/
  | int (n : Int)
  /-- A text. -/
  | text (s : String)
  /-- An integer with a text. -/
  | pair (n : Int) (s : String)
  /-- A floating point number. -/
  | real (x : Binary64)
  deriving Repr

namespace Element

/-- The kind of an element. -/
def kind : Element → Kind
  | int _ => .int
  | text _ => .text
  | pair _ _ => .pair
  | real _ => .real

/-- How two elements of one kind compare by their values; nothing for elements of two
kinds, and for floating point numbers that are not numbers. -/
def compare? : Element → Element → Option Ordering
  | int a, int b => some (compare a b)
  | text a, text b => some (compare a b)
  | pair a s, pair b t => some ((compare a b).then (compare s t))
  | real x, real y => x.compare? y
  | _, _ => none

/-- Elements are equal if their values compare so. -/
instance : BEq Element := ⟨fun a b => a.compare? b == some .eq⟩

/-- The order that elements come with. Where values do not compare, neither comes
first. -/
instance : Ord Element := ⟨fun a b => (a.compare? b).getD .eq⟩

end Element

end TrackedHeap
