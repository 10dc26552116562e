import TrackedHeap.Heap.Basic

/-!
# TrackedHeap.Cursor

**Cursors**: a walk over the elements of a heap that holds nothing of the heap between
two steps. A cursor knows which heap it walks, and the heap's version at the start. It
goes on only while the heap still has that version, so the elements it shows are those
of one unchanged array.
-/

namespace TrackedHeap

/-- A detached walk over a heap. -/
structure Cursor where
  /-- The identity of the heap. -/
  heap : Token
  /-- The version of the heap when the walk began. -/
  version : UInt64
  /-- How many elements were shown. -/
  position : Nat
  deriving DecidableEq, Repr

namespace Cursor

variable {α : Type}

/-- A cursor before the first element of `h`. -/
def start (h : Heap α) : Cursor := ⟨h.id, h.version, 0⟩

/-- Shows the next element of `h`, or nothing at the end, and gives the cursor
afterwards. Only a step that shows an element moves the cursor. -/
def next (c : Cursor) (h : Heap α) : Except Refusal (Option α) × Cursor :=
  if h.id ≠ c.heap then (.error .foreignHandle, c)
  else if h.version ≠ c.version then (.error .concurrentModification, c)
  else
    match h.slots[c.position]? with
    | some slot => (.ok (some slot.value), { c with position := c.position + 1 })
    | none => (.ok none, c)

theorem next_eq_some {c d : Cursor} {h : Heap α} {value : α}
    (hn : c.next h = (.ok (some value), d)) :
    c.position < h.size ∧ d.position = c.position + 1 := by
  unfold next at hn
  repeat' split at hn
  all_goals simp_all
  obtain ⟨hlt, -⟩ := Array.getElem?_eq_some_iff.mp ‹_›
  exact ⟨hlt, by rw [← hn.2]⟩

/-- Shows all elements up to the end. A refusal is the whole answer. -/
def rest (c : Cursor) (h : Heap α) : Except Refusal (List α) × Cursor :=
  match _ : c.next h with
  | (.ok (some value), d) => ((rest d h).1.map (value :: ·), (rest d h).2)
  | (.ok none, d) => (.ok [], d)
  | (.error cause, d) => (.error cause, d)
termination_by h.size - c.position
decreasing_by
  all_goals
    have := next_eq_some ‹c.next h = _›
    omega

end Cursor

end TrackedHeap
