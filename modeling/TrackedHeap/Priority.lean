/-!
# TrackedHeap.Priority

**Priorities**: the ranking that decides which element of a heap comes first.

A priority is a function to `Ordering`, with the text it is shown as. Nothing is
asked of the function: a constant or contradictory one gives a heap whose order
means nothing, and whose handles and contents are as sound as any other's.
-/

namespace TrackedHeap

/-- A ranking of elements. -/
structure Priority (α : Type) where
  /-- How the first element ranks beside the second; `lt` comes out earlier. -/
  compare : α → α → Ordering
  /-- What the ranking is shown as. -/
  description : String

namespace Priority

variable {α : Type}

/-- The order that the type of the elements comes with. -/
def natural [Ord α] : Priority α := ⟨Ord.compare, "NaturalOrder"⟩

/-- A ranking given as a function, whose text says no more than that. -/
def custom (compare : α → α → Ordering) : Priority α := ⟨compare, "FnComparer(..)"⟩

/-- The opposite ranking: it asks the given one with the elements exchanged. -/
def reversed (p : Priority α) : Priority α :=
  ⟨fun a b => p.compare b a, s!"Reversed({p.description})"⟩

/-- Whether `a` ranks strictly behind `b`. -/
def exceeds (p : Priority α) (a b : α) : Bool := p.compare a b == .gt

@[simp] theorem reversed_compare (p : Priority α) (a b : α) :
    p.reversed.compare a b = p.compare b a := rfl

theorem exceeds_iff (p : Priority α) {a b : α} : p.exceeds a b = true ↔ p.compare a b = .gt := by
  simp [exceeds]

end Priority

end TrackedHeap
