import Mathlib.Data.Multiset.AddSub
import Mathlib.Data.Multiset.Filter
import Mathlib.Data.Set.Insert
import TrackedHeap.World

/-!
# TrackedHeap.Proofs.Bag.Basic

**Keyed bags**: what a heap is to its users when nothing is said about order.

A bag holds entries, each an element with or without a handle, and the handles that are
reserved for elements to come. Its requests are those of a heap. A bag does not know about
storage or the supply of keys, so whether there is room, and which handle is issued, are
left open; a handle that is issued is one that is not in use.
-/

namespace TrackedHeap

variable {α : Type}

/-- A store of elements, some of which have handles. -/
@[ext] structure Bag (α : Type) where
  /-- The elements with their handles. -/
  entries : Multiset (α × Option Handle) := 0
  /-- The handles that are issued and name no element yet. -/
  reserved : Set Handle := ∅

namespace Bag

/-- The element that a handle names is `value`. -/
def Names (b : Bag α) (x : Handle) (value : α) : Prop := (value, some x) ∈ b.entries

/-- A handle is fresh if it names no element and is not reserved. -/
def Fresh (b : Bag α) (x : Handle) : Prop := (∀ value, ¬ b.Names x value) ∧ x ∉ b.reserved

/-- The bag with one entry more. -/
def add (b : Bag α) (value : α) (x : Option Handle) : Bag α :=
  { b with entries := (value, x) ::ₘ b.entries }

/-- The bag with more entries, none of which has a handle. -/
def addAll (b : Bag α) (values : List α) : Bag α :=
  { b with entries := ↑(values.map fun value => (value, (none : Option Handle))) + b.entries }

/-- The bag with one more reserved handle. -/
def hold (b : Bag α) (x : Handle) : Bag α := { b with reserved := insert x b.reserved }

/-- The bag with one reserved handle less. -/
def drop (b : Bag α) (x : Handle) : Bag α := { b with reserved := b.reserved \ {x} }

/-- Holding a fresh handle and dropping it again changes nothing. -/
theorem drop_hold {b : Bag α} {x : Handle} (hx : b.Fresh x) : (b.hold x).drop x = b :=
  Bag.ext rfl (Set.insert_sdiff_self_of_notMem hx.2)

@[simp] theorem addAll_nil (b : Bag α) : b.addAll [] = b := by simp [addAll]

theorem addAll_add (b : Bag α) (value : α) (values : List α) :
    (b.add value none).addAll values = b.addAll (value :: values) := by
  refine Bag.ext ?_ rfl
  simp only [addAll, add, List.map_cons, ← Multiset.cons_coe, Multiset.cons_add,
    Multiset.add_cons]

/-- One request, its answer, and the bag afterwards. -/
inductive Step [BEq α] (b : Bag α) : Op α → Except Failure (Reply α) → Bag α → Prop
  /-- An element is added without a handle. -/
  | pushed {value : α} : Step b (.push value) (.ok .done) (b.add value none)
  | pushFull {value : α} : Step b (.push value) (.error (.fault .capacityOverflow)) b
  | extended {values : List α} : Step b (.extend values) (.ok .done) (b.addAll values)
  /-- There was room for the first ones only. -/
  | extendFull {values rest : List α} (hne : rest ≠ []) :
      Step b (.extend (values ++ rest)) (.error (.fault .capacityOverflow)) (b.addAll values)
  | reserved {x : Handle} (hx : b.Fresh x) : Step b .reserve (.ok (.handle x)) (b.hold x)
  | exhausted : Step b .reserve (.error (.fault .keysExhausted)) b
  /-- An element is added under the handle that is the answer. -/
  | inserted {value : α} {x : Handle} (hx : b.Fresh x) :
      Step b (.insert value) (.ok (.handle x)) (b.add value (some x))
  /-- There was no room, and a handle nobody was told of stays reserved. -/
  | insertFull {value : α} {x : Handle} (hx : b.Fresh x) :
      Step b (.insert value) (.error (.fault .capacityOverflow)) (b.hold x)
  | insertExhausted {value : α} : Step b (.insert value) (.error (.fault .keysExhausted)) b
  | released {x : Handle} (hx : x ∈ b.reserved) : Step b (.release x) (.ok .done) (b.drop x)
  | releaseRefused {x : Handle} {cause : Refusal} (hx : x ∉ b.reserved)
      (hcause : cause = .handleInUse ↔ ∃ value, b.Names x value) :
      Step b (.release x) (.error (.refused cause)) b
  /-- A reserved handle comes to name the element. -/
  | insertedWith {x : Handle} {value : α} (hx : x ∈ b.reserved) :
      Step b (.insertWith x value) (.ok .done) ((b.drop x).add value (some x))
  | insertWithFull {x : Handle} {value : α} (hx : x ∈ b.reserved) :
      Step b (.insertWith x value) (.error (.fault .capacityOverflow)) b
  | insertWithRefused {x : Handle} {value : α} {cause : Refusal} (hx : x ∉ b.reserved)
      (hcause : cause = .handleInUse ↔ ∃ value, b.Names x value) :
      Step b (.insertWith x value) (.error (.refused cause)) b
  /-- Some entry is deleted, and its element is the answer. -/
  | popped {value : α} {x : Option Handle} {rest : Multiset (α × Option Handle)}
      (he : b.entries = (value, x) ::ₘ rest) :
      Step b .pop (.ok (.value value)) { b with entries := rest }
  | popEmpty (he : b.entries = 0) : Step b .pop (.error (.refused .empty)) b
  /-- The entry of the handle is deleted. -/
  | removed {x : Handle} {value : α} {rest : Multiset (α × Option Handle)}
      (he : b.entries = (value, some x) ::ₘ rest) :
      Step b (.remove x) (.ok (.value value)) { b with entries := rest }
  | removeRefused {x : Handle} {cause : Refusal} (hx : ∀ value, ¬ b.Names x value)
      (hcause : cause = .unboundHandle ↔ x ∈ b.reserved) :
      Step b (.remove x) (.error (.refused cause)) b
  /-- One entry whose element has the property is deleted. -/
  | removedFirst {holds : α → Bool} {value : α} {x : Option Handle}
      {rest : Multiset (α × Option Handle)} (hv : holds value = true)
      (he : b.entries = (value, x) ::ₘ rest) :
      Step b (.removeFirst holds) (.ok (.found (some value))) { b with entries := rest }
  | noneFirst {holds : α → Bool} (hv : ∀ entry ∈ b.entries, ¬ holds entry.1 = true) :
      Step b (.removeFirst holds) (.ok (.found none)) b
  /-- One entry whose element equals the given one is deleted. -/
  | removedValue {given value : α} {x : Option Handle} {rest : Multiset (α × Option Handle)}
      (hv : (value == given) = true) (he : b.entries = (value, x) ::ₘ rest) :
      Step b (.removeValue given) (.ok (.flag true)) { b with entries := rest }
  | noValue {given : α} (hv : ∀ entry ∈ b.entries, ¬ (entry.1 == given) = true) :
      Step b (.removeValue given) (.ok (.flag false)) b
  /-- The entry of the handle has another element, and the old one is the answer. -/
  | updated {x : Handle} {value old : α} {rest : Multiset (α × Option Handle)}
      (he : b.entries = (old, some x) ::ₘ rest) :
      Step b (.update x value) (.ok (.value old)) { b with entries := (value, some x) ::ₘ rest }
  | updateRefused {x : Handle} {value : α} {cause : Refusal} (hx : ∀ value, ¬ b.Names x value)
      (hcause : cause = .unboundHandle ↔ x ∈ b.reserved) :
      Step b (.update x value) (.error (.refused cause)) b
  /-- All entries are deleted, and reserved handles stay reserved. -/
  | cleared : Step b .clear (.ok .done) { b with entries := 0 }
  | trimmed : Step b .trim (.ok .done) b

/-- Adding one element and then others is adding them all. -/
theorem Step.extend_cons [BEq α] {b b' : Bag α} {value : α} {values : List α}
    {answer : Except Failure (Reply α)}
    (hs : (b.add value none).Step (.extend values) answer b') :
    b.Step (.extend (value :: values)) answer b' := by
  cases hs with
  | extended =>
      rw [addAll_add]
      exact .extended
  | extendFull hne =>
      rw [addAll_add, ← List.cons_append]
      exact .extendFull hne

theorem Step.extend_ok [BEq α] {b b' : Bag α} {values : List α} {reply : Reply α}
    (hs : b.Step (.extend values) (.ok reply) b') : b' = b.addAll values := by
  cases hs
  rfl

theorem Step.extend_error [BEq α] {b b' : Bag α} {values : List α} {failure : Failure}
    (hs : b.Step (.extend values) (.error failure) b') : failure = .fault .capacityOverflow := by
  cases hs
  rfl

end Bag

/-! ### Several bags -/

/-- A command neither changes a heap nor makes or uses up one. -/
def Command.looks : Command α → Bool
  | .openCursor _ | .copyCursor _ | .step _ _ | .stepToEnd _ _ | .restart _ _ => true
  | .create .. | .collect .. | .act _ _ | .consume _ | .drain _ => false

/-- Bags by number; one that was used up leaves its place empty. -/
abbrev Bags (α : Type) : Type := Array (Option (Bag α))

namespace Bags

/-- One command, its answer, and the bags afterwards. -/
inductive Step [BEq α] (bs : Bags α) : Command α → Except Failure (Reply α) → Bags α → Prop
  | created {policy : StoragePolicy} {priority : Priority α} {size : SlotSize} :
      Step bs (.create policy priority size) (.ok (.number bs.size)) (bs.push (some {}))
  | createFull {policy : StoragePolicy} {priority : Priority α} {size : SlotSize} :
      Step bs (.create policy priority size) (.error (.fault .capacityOverflow)) bs
  | collected {priority : Priority α} {promised : Nat} {values : List α} {size : SlotSize} :
      Step bs (.collect priority promised values size) (.ok (.number bs.size))
        (bs.push (some (Bag.addAll {} values)))
  | collectFull {priority : Priority α} {promised : Nat} {values : List α} {size : SlotSize} :
      Step bs (.collect priority promised values size) (.error (.fault .capacityOverflow)) bs
  | acted {n : Nat} {op : Op α} {b b' : Bag α} {answer : Except Failure (Reply α)}
      (hn : bs[n]? = some (some b)) (hs : b.Step op answer b') :
      Step bs (.act n op) answer (bs.setIfInBounds n (some b'))
  | consumed {n : Nat} {b : Bag α} {values : List α} (hn : bs[n]? = some (some b))
      (hv : b.entries.map Prod.fst = ↑values) :
      Step bs (.consume n) (.ok (.values values)) (bs.setIfInBounds n none)
  | drained {n : Nat} {b : Bag α} {values : List α} (hn : bs[n]? = some (some b))
      (hv : b.entries.map Prod.fst = ↑values) :
      Step bs (.drain n) (.ok (.values values)) (bs.setIfInBounds n none)
  | looked {command : Command α} {answer : Except Failure (Reply α)}
      (hc : command.looks = true) : Step bs command answer bs

/-- A row of commands with their answers. -/
inductive Run [BEq α] : Bags α → List (Command α) → List (Except Failure (Reply α)) → Bags α → Prop
  | nil {bs : Bags α} : Run bs [] [] bs
  | cons {bs bs' bs'' : Bags α} {command : Command α} {commands : List (Command α)}
      {answer : Except Failure (Reply α)} {answers : List (Except Failure (Reply α))}
      (first : bs.Step command answer bs') (rest : Run bs' commands answers bs'') :
      Run bs (command :: commands) (answer :: answers) bs''

end Bags

end TrackedHeap
