import TrackedHeap.Event
import TrackedHeap.Heap.Basic

/-!
# TrackedHeap.Heap.Outcome

**Changes** and **outcomes** of operations on a heap.

A `Change` is what an operation that goes through leaves behind: the heap, the
mint, the events in the order they happened, and an answer. An `Outcome` is the same
with an answer that may be a failure. An outcome has a heap also when the operation
failed, so what a failed operation leaves behind is part of what it says.
-/

namespace TrackedHeap

/-- What an operation that went through leaves behind. -/
structure Change (α β : Type) where
  /-- The heap afterwards. -/
  heap : Heap α
  /-- The mint afterwards. -/
  mint : Mint
  /-- What happened to the storage, in order. -/
  events : List Event
  /-- What the caller is told. -/
  answer : β

/-- The same change with another answer. -/
def Change.answering {α β γ : Type} (c : Change α β) (answer : γ) : Change α γ :=
  { c with answer := answer }

/-- What an operation leaves behind, whether it went through or not. -/
structure Outcome (α β : Type) where
  /-- The heap afterwards. -/
  heap : Heap α
  /-- The mint afterwards. -/
  mint : Mint
  /-- What happened to the storage, in order. -/
  events : List Event
  /-- What the caller is told. -/
  answer : Except Failure β

namespace Outcome

variable {α β γ : Type}

/-- An answer that leaves everything as it was. -/
def done (heap : Heap α) (mint : Mint) (answer : β) : Outcome α β := ⟨heap, mint, [], .ok answer⟩

/-- A failure that leaves everything as it was. -/
def failed (heap : Heap α) (mint : Mint) (failure : Failure) : Outcome α β :=
  ⟨heap, mint, [], .error failure⟩

/-- A change that goes through is the outcome; one that is cut off leaves the heap and
the mint as they were. -/
def ofChange (heap : Heap α) (mint : Mint) : Except Fault (Change α β) → Outcome α β
  | .ok c => ⟨c.heap, c.mint, c.events, .ok c.answer⟩
  | .error fault => failed heap mint (.fault fault)

/-- The same outcome with its answer changed by `f`. -/
def map (f : β → γ) (o : Outcome α β) : Outcome α γ := { o with answer := o.answer.map f }

/-- One operation after another. If the first fails the second is not begun, and what
the first left behind stays. -/
def andThen (o : Outcome α β) (next : Heap α → Mint → β → Outcome α γ) : Outcome α γ :=
  match o.answer with
  | .ok b =>
      let last := next o.heap o.mint b
      { last with events := o.events ++ last.events }
  | .error failure => ⟨o.heap, o.mint, o.events, .error failure⟩

@[simp] theorem ofChange_ok (heap : Heap α) (mint : Mint) (c : Change α β) :
    ofChange heap mint (.ok c) = ⟨c.heap, c.mint, c.events, .ok c.answer⟩ := rfl

@[simp] theorem ofChange_error (heap : Heap α) (mint : Mint) (fault : Fault) :
    (ofChange heap mint (.error fault) : Outcome α β) = failed heap mint (.fault fault) := rfl

@[simp] theorem map_heap (f : β → γ) (o : Outcome α β) : (o.map f).heap = o.heap := rfl

@[simp] theorem map_mint (f : β → γ) (o : Outcome α β) : (o.map f).mint = o.mint := rfl

@[simp] theorem map_events (f : β → γ) (o : Outcome α β) : (o.map f).events = o.events := rfl

end Outcome

end TrackedHeap
