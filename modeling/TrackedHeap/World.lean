import TrackedHeap.Cursor
import TrackedHeap.Heap.Insertion
import TrackedHeap.Heap.Removal
import TrackedHeap.Heap.Update

/-!
# TrackedHeap.World

**Worlds**: several heaps and cursors that share one mint.

What a single heap can be asked to change is an `Op`. What can be done in a world is a
`Command`: it makes a heap, applies an `Op` to one, uses one up, or moves a cursor.
A run of a world is a list of commands. Heaps and cursors go by their numbers, which
are given in order and not used again; handles are passed as plain values, so a command
may carry a handle of another heap, a dead one, or one made up.
-/

namespace TrackedHeap

variable {α β : Type}

/-- A request that may change a heap. -/
inductive Op (α : Type)
  /-- Add an element without a handle. -/
  | push (value : α)
  /-- Add an element under a new handle. -/
  | insert (value : α)
  /-- Add elements without handles. -/
  | extend (values : List α)
  /-- Issue a handle. -/
  | reserve
  /-- Give an unused handle back. -/
  | release (handle : Handle)
  /-- Add an element under an issued handle. -/
  | insertWith (handle : Handle) (value : α)
  /-- Take out the first element in rank. -/
  | pop
  /-- Take out the element that a handle names. -/
  | remove (handle : Handle)
  /-- Take out an element equal to this one. -/
  | removeValue (value : α)
  /-- Take out an element with a property. The property is a function of the element, with no
  memory of what it was asked before. -/
  | removeFirst (holds : α → Bool)
  /-- Replace the element that a handle names. -/
  | update (handle : Handle) (value : α)
  /-- Drop all elements. -/
  | clear
  /-- Cut the storage back. -/
  | trim

/-- What a request is answered with. -/
inductive Reply (α : Type)
  /-- It is done. -/
  | done
  /-- The handle that was issued. -/
  | handle (handle : Handle)
  /-- An element. -/
  | value (value : α)
  /-- An element, if there was one. -/
  | found (value : Option α)
  /-- Elements in order. -/
  | values (values : List α)
  /-- Yes or no. -/
  | flag (flag : Bool)
  /-- The number of a heap or a cursor. -/
  | number (n : Nat)
  deriving DecidableEq, Repr

/-- Carries a request out. -/
def Op.run [BEq α] (h : Heap α) (mint : Mint) : Op α → Outcome α (Reply α)
  | push value => (h.push mint value).map fun _ => .done
  | insert value => (h.insert mint value).map .handle
  | extend values => (h.extend mint values).map fun _ => .done
  | reserve => (h.reserve mint).map .handle
  | release handle => (h.release mint handle).map fun _ => .done
  | insertWith handle value => (h.insertWith mint handle value).map fun _ => .done
  | pop => (h.pop mint).map .value
  | remove handle => (h.remove mint handle).map .value
  | removeValue value => (h.removeValue mint value).map .flag
  | removeFirst holds => (h.removeFirst mint holds).map .found
  | update handle value => (h.update mint handle value).map .value
  | clear => (h.clear mint).map fun _ => .done
  | trim => (h.trim mint).map fun _ => .done

/-- Heaps and cursors with the mint they draw from. -/
structure World (α : Type) where
  /-- The tokens not drawn yet. -/
  mint : Mint := {}
  /-- The heaps by number; one that was used up leaves its place empty. -/
  heaps : Array (Option (Heap α)) := #[]
  /-- The cursors by number. -/
  cursors : Array Cursor := #[]

/-- What can be done in a world. -/
inductive Command (α : Type)
  /-- Make an empty heap, for elements with slots of this size. -/
  | create (policy : StoragePolicy) (priority : Priority α) (size : SlotSize := .word)
  /-- Make a heap of elements that come from a source which promised at least
  `promised` of them, truly or not. -/
  | collect (priority : Priority α) (promised : Nat) (values : List α) (size : SlotSize := .word)
  /-- Ask a heap for something. -/
  | act (heap : Nat) (op : Op α)
  /-- Use a heap up, for its elements in tree order. -/
  | consume (heap : Nat)
  /-- Use a heap up, for its elements in rank order. -/
  | drain (heap : Nat)
  /-- Put a new cursor before the first element of a heap. -/
  | openCursor (heap : Nat)
  /-- Make a second cursor at the place of one. -/
  | copyCursor (cursor : Nat)
  /-- Step a cursor over a heap. -/
  | step (cursor heap : Nat)
  /-- Step a cursor over a heap up to the end. -/
  | stepToEnd (cursor heap : Nat)
  /-- Put a cursor before the first element of a heap. -/
  | restart (cursor heap : Nat)

/-- What a command leaves behind. -/
structure Step (α β : Type) where
  /-- The world afterwards. -/
  world : World α
  /-- What happened to the storage of the heap concerned. -/
  events : List Event
  /-- What the caller is told. -/
  answer : Except Failure β

namespace World

/-- A heap by its number. -/
def heap? (w : World α) (heap : Nat) : Option (Heap α) := w.heaps[heap]?.join

/-- Adds a heap; its number is the number of those before it. -/
def addHeap (w : World α) (h : Heap α) : World α := { w with heaps := w.heaps.push (some h) }

/-- Puts a heap into the place of a number. -/
def setHeap (w : World α) (heap : Nat) (h : Option (Heap α)) : World α :=
  { w with heaps := w.heaps.setIfInBounds heap h }

/-- Puts a cursor into the place of a number. -/
def setCursor (w : World α) (cursor : Nat) (c : Cursor) : World α :=
  { w with cursors := w.cursors.setIfInBounds cursor c }

/-- Lets one heap do something, with the world's mint. -/
def onHeap (w : World α) (heap : Nat) (f : Heap α → Mint → Outcome α β) : Option (Step α β) := do
  let h ← w.heap? heap
  let o := f h w.mint
  pure ⟨{ w.setHeap heap (some o.heap) with mint := o.mint }, o.events, o.answer⟩

/-- Makes an empty heap. -/
def create (w : World α) (policy : StoragePolicy) (priority : Priority α) (size : SlotSize) :
    Step α (Reply α) :=
  match Heap.create policy priority size w.mint with
  | .ok (h, mint) => ⟨{ w.addHeap h with mint := mint }, [], .ok (.number w.heaps.size)⟩
  | .error fault => ⟨w, [], .error (.fault fault)⟩

/-- Makes a heap of the given elements. What their source promised decides the floor
and nothing else. -/
def collect (w : World α) (priority : Priority α) (promised : Nat) (values : List α)
    (size : SlotSize) : Step α (Reply α) :=
  let policy := ({} : StoragePolicy).withFloor (max promised StoragePolicy.defaultFloor)
  match Heap.create policy priority size w.mint with
  | .ok (h, mint) =>
      let o := h.extend mint values
      match o.answer with
      | .ok () => ⟨{ w.addHeap o.heap with mint := o.mint }, o.events, .ok (.number w.heaps.size)⟩
      | .error failure => ⟨{ w with mint := o.mint }, o.events, .error failure⟩
  | .error fault => ⟨w, [], .error (.fault fault)⟩

/-- Carries a command out; nothing, if it names a heap or a cursor that is not there. -/
def exec [BEq α] (w : World α) : Command α → Option (Step α (Reply α))
  | .create policy priority size => some (w.create policy priority size)
  | .collect priority promised values size => some (w.collect priority promised values size)
  | .act heap op => w.onHeap heap fun h mint => op.run h mint
  | .consume heap => do
      let h ← w.heap? heap
      pure ⟨w.setHeap heap none, [], .ok (.values h.values)⟩
  | .drain heap => do
      let h ← w.heap? heap
      let o := h.drain w.mint
      pure ⟨{ w.setHeap heap none with mint := o.mint }, o.events, o.answer.map .values⟩
  | .openCursor heap => do
      let h ← w.heap? heap
      pure ⟨{ w with cursors := w.cursors.push (.start h) }, [], .ok (.number w.cursors.size)⟩
  | .copyCursor cursor => do
      let c ← w.cursors[cursor]?
      pure ⟨{ w with cursors := w.cursors.push c }, [], .ok (.number w.cursors.size)⟩
  | .step cursor heap => do
      let c ← w.cursors[cursor]?
      let h ← w.heap? heap
      let (shown, c) := c.next h
      pure ⟨w.setCursor cursor c, [], (shown.map .found).mapError .refused⟩
  | .stepToEnd cursor heap => do
      let c ← w.cursors[cursor]?
      let h ← w.heap? heap
      let (shown, c) := c.rest h
      pure ⟨w.setCursor cursor c, [], (shown.map .values).mapError .refused⟩
  | .restart cursor heap => do
      let _ ← w.cursors[cursor]?
      let h ← w.heap? heap
      pure ⟨w.setCursor cursor (.start h), [], .ok .done⟩

/-- Carries commands out in order, and gives the world after the last. -/
def run [BEq α] (w : World α) : List (Command α) → Option (World α)
  | [] => some w
  | command :: rest => do
      let step ← w.exec command
      step.world.run rest

@[simp] theorem run_nil [BEq α] (w : World α) : w.run [] = some w := rfl

end World

end TrackedHeap
