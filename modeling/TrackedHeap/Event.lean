import TrackedHeap.Token

/-!
# TrackedHeap.Event

**Events**: what a heap reports about its storage. Every change of a heap's
capacity is told by exactly one event, in the operation that made it.
-/

namespace TrackedHeap

/-- A report on storage. -/
inductive Event
  /-- A full array of slots was enlarged. -/
  | grew (before after : Nat)
  /-- An under-used array of slots was cut back, with this many elements in it. -/
  | trimmed (before after live : Nat)
  /-- The array of slots of an emptied heap was cut back to the floor. -/
  | released (before after : Nat)
  /-- A large registry of an idle heap was dropped, and a new owner took over. -/
  | registryReleased (tracked : Nat) (owner : Token)
  deriving DecidableEq, Repr

namespace Event

/-- How much a report matters. -/
inductive Level
  /-- An everyday step. -/
  | trace
  /-- A rarer step, worth a look while hunting for a mistake. -/
  | debug
  deriving DecidableEq, Repr

/-- The name a level goes by. -/
def Level.name : Level → String
  | trace => "TRACE"
  | debug => "DEBUG"

/-- The level of a report: growth is an everyday step. -/
def level : Event → Level
  | grew _ _ => .trace
  | trimmed _ _ _ | released _ _ | registryReleased _ _ => .debug

/-- The sentence that tells a report. -/
def message : Event → String
  | grew before after => s!"grew heap storage from {before} to {after} slots"
  | trimmed before after live =>
      s!"trimmed heap storage from {before} to {after} slots ({live} live)"
  | released before after => s!"released heap storage from {before} to {after} slots"
  | registryReleased tracked owner =>
      s!"released handle table of {tracked} entries, new owner {owner.toInt}"

end Event

end TrackedHeap
