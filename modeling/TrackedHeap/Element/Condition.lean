import TrackedHeap.Element.Basic

/-!
# TrackedHeap.Element.Condition

**Conditions** on elements, by which a heap is searched. Comparisons are by the values
of the elements and never by the ranking of the heap, so a floating point number that
is not a number meets no comparison but `ne`.
-/

namespace TrackedHeap

/-- A condition on an element. -/
inductive Condition
  /-- Less than a value. -/
  | lt (value : Element)
  /-- Less than a value or equal to it. -/
  | le (value : Element)
  /-- Greater than a value. -/
  | gt (value : Element)
  /-- Greater than a value or equal to it. -/
  | ge (value : Element)
  /-- Equal to a value. -/
  | eq (value : Element)
  /-- Not equal to a value. -/
  | ne (value : Element)
  /-- Always met. -/
  | always
  /-- Never met. -/
  | never
  /-- An even integer. -/
  | even
  /-- A text of ASCII characters. -/
  | ascii
  /-- A text without characters. -/
  | empty
  deriving Repr

/-- Whether an element meets a condition. -/
def Condition.holds (c : Condition) (a : Element) : Bool :=
  match c, a with
  | lt b, a => a.compare? b == some .lt
  | le b, a => a.compare? b == some .lt || a == b
  | gt b, a => a.compare? b == some .gt
  | ge b, a => a.compare? b == some .gt || a == b
  | eq b, a => a == b
  | ne b, a => a != b
  | always, _ => true
  | never, _ => false
  | even, .int n => n % 2 == 0
  | ascii, .text s => s.toList.all fun c => c.val < 128
  | empty, .text s => s.isEmpty
  | _, _ => false

end TrackedHeap
