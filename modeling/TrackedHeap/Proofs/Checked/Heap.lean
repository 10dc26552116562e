import TrackedHeap.Proofs.Checked.Sift
import TrackedHeap.Proofs.Heap.Storage
import TrackedHeap.Proofs.Registry.Growth

/-!
# TrackedHeap.Proofs.Checked.Heap

**The parts of a heap run with checks**: its registry, its storage, and the one slot that is added,
taken out or replaced.

What the heap keeps as a `Fault` is a trap here (`Checked.lift`). What it leaves to its types, or to
natural numbers, is asked for: the key that waits has a record, the count of issued keys fits into a
word, storage grows by a number that is not below zero, the slot that is taken out and the last
one are there. A part that is well formed and within its bounds passes every check, and comes to
the same.
-/

namespace TrackedHeap

variable {α β γ : Type}

/-- There are never `2 ^ 60` slots. -/
theorem Heap.Housed.size_lt {h : Heap α} (hh : h.Housed) : h.slots.size < SlotSize.maxLimit :=
  Nat.lt_of_le_of_lt hh.size_le (Nat.lt_of_lt_of_le hh.capacity_lt h.slotSize.limit_le)

theorem Heap.size_pos_of_not_isEmpty {h : Heap α} (hne : ¬ h.isEmpty = true) :
    0 < h.slots.size :=
  Nat.pos_of_ne_zero fun h0 => hne (decide_eq_true h0)

/-- A heap on which no check fails: its parts agree with each other, and all it counts is below the
limits. -/
structure Heap.Checkable (h : Heap α) : Prop where
  wellFormed : h.WellFormed
  housed : h.Housed
  tracked_le : h.registry.tracked ≤ Registry.keyLimit

namespace Checked

open StoragePolicy (wordMax)
open SlotSize (maxLimit)

/-- A fault of a heap is a trap. -/
def lift (x : Except Fault β) : Except Trap β := x.mapError .fault

/-- Goes on with `x` unless the answer is a fault. -/
def unlessFault (answer : Except Failure β) (x : γ) : Except Trap γ :=
  match answer with
  | .error (.fault cause) => .error (.fault cause)
  | .error (.refused _) | .ok _ => .ok x

/-- Storage for `n` slots of a size, if it does not take too many bytes. -/
def allocate (size : SlotSize) (n : Nat) : Except Trap Unit :=
  if n * size.bytes ≤ SlotSize.maxBytes then .ok () else .error (.fault .capacityOverflow)

/-- Goes on only if what is taken for granted holds. -/
def require (holds : Bool) : Except Trap Unit := if holds then .ok () else .error .unmet

@[simp] theorem lift_ok (b : β) : lift (.ok b) = .ok b := rfl

@[simp] theorem unlessFault_ok (b : β) (x : γ) : unlessFault (.ok b) x = .ok x := rfl

@[simp] theorem unlessFault_refused (cause : Refusal) (x : γ) :
    unlessFault (.error (.refused cause) : Except Failure β) x = .ok x := rfl

theorem unlessFault_eq_error {answer : Except Failure β} {x : γ} {trap : Trap}
    (h : unlessFault answer x = .error trap) :
    ∃ cause, answer = .error (.fault cause) ∧ trap = .fault cause := by
  rcases answer with (_ | cause) | _
  · cases h
  · cases h
    exact ⟨cause, rfl, rfl⟩
  · cases h

theorem lift_bind (x : Except Fault β) (f : β → Except Fault γ) :
    lift (x >>= f) = lift x >>= fun b => lift (f b) := by
  cases x <;> rfl

theorem allocate_eq {size : SlotSize} {n : Nat} (h : n < size.limit) : allocate size n = .ok () :=
  if_pos (SlotSize.lt_limit_iff.mp h)

theorem allocate_eq_error {size : SlotSize} {n : Nat} (h : ¬ n < size.limit) :
    allocate size n = .error (.fault .capacityOverflow) :=
  if_neg (mt SlotSize.lt_limit_iff.mpr h)

/-! ### The registry -/

/-- Issues a handle, as `Registry.reserve` does. The record is read once more for the handle. -/
def reserve (r : Registry) : Except Trap (Handle × Registry) := do
  let (key, records, free) ← match r.free with
    | key :: rest => do
        let record ← read r.records key
        pure (key, r.records.setIfInBounds key { record with status := .reserved }, rest)
    | [] =>
        if r.records.size < Registry.keyLimit then pure (r.records.size, r.records.push {}, [])
        else .error (.fault .keysExhausted)
  let issued ← add r.issued 1
  let record ← read records key
  pure (r.handle key record, { r with records := records, free := free, issued := issued })

/-- A key that waits has a record, and as many keys as there can be are counted in a word. -/
theorem reserve_eq {r : Registry} (hs : r.Sound) (hlimit : r.tracked ≤ Registry.keyLimit) :
    reserve r = lift r.reserve := by
  have hword : r.issued + 1 ≤ wordMax := by
    have hissued := hs.issued_le_tracked
    simp only [Registry.keyLimit, wordMax] at *
    omega
  unfold reserve Registry.reserve
  cases hfree : r.free with
  | nil =>
      by_cases hroom : r.records.size < Registry.keyLimit
      · have hlast : r.records.size < (r.records.push {}).size := by
          rw [Array.size_push]
          exact Nat.lt_succ_self _
        have hnew : (r.records.push {})[r.records.size] = {} := Array.getElem_push_eq
        simp only [bind, Except.bind, pure, Except.pure, hroom, if_true, add_eq hword,
          read_eq hlast, hnew]
        rfl
      · simp only [bind, Except.bind, hroom, if_false]
        rfl
  | cons key rest =>
      obtain ⟨record, hr, -⟩ :=
        hs.vacant_of_mem_free key (by rw [hfree]; exact List.mem_cons_self ..)
      have hlt := (Array.getElem?_eq_some_iff.mp hr).1
      have hset : key < (r.records.set key { r.records[key] with status := .reserved }).size := by
        rw [Array.size_set]
        exact hlt
      -- What is read for the handle is the record that was just written.
      simp only [bind, Except.bind, pure, Except.pure, read_eq hlt, add_eq hword,
        Array.setIfInBounds_def, hlt, dite_true, read_eq hset, Array.getElem_set_self]
      rfl

/-! ### Storage -/

/-- Sees to it that one more slot fits, as `Heap.makeRoom` does: the storage is enlarged by the
difference. -/
def makeRoom (h : Heap α) : Except Trap (Heap α × List Event) :=
  if h.size < h.capacity then .ok (h, [])
  else do
    let grown := h.policy.grown h.capacity
    let additional ← sub grown h.size
    allocate h.slotSize (h.size + additional)
    pure ({ h with capacity := grown }, [.grew h.capacity grown])

/-- What a heap does on becoming empty, as `Heap.releaseEmpty` does. The floor is allocated
again. -/
def releaseEmpty (h : Heap α) (mint : Mint) : Except Trap (Change α Unit) := do
  require h.slots.isEmpty
  if h.policy.shouldRelease h.capacity then allocate h.slotSize h.policy.floor
  pure (h.releaseEmpty mint)

/-- A heap within its bounds is not beyond what it grows to. -/
theorem makeRoom_eq {h : Heap α} (hh : h.Housed) : makeRoom h = lift h.makeRoom := by
  unfold makeRoom Heap.makeRoom
  split
  · rfl
  · next hfull =>
      have hle := hh.size_le
      have hgrown := h.policy.lt_grown hh.capacity_lt_wordMax
      have hsum : h.size + (h.policy.grown h.capacity - h.size) = h.policy.grown h.capacity := by
        omega
      simp only [bind, Except.bind, sub_eq (show h.size ≤ h.policy.grown h.capacity by omega),
        hsum]
      by_cases hlimit : h.policy.grown h.capacity < h.slotSize.limit
      · simp only [allocate_eq hlimit, hlimit, if_true]
        rfl
      · simp only [allocate_eq_error hlimit, hlimit, if_false]
        rfl

theorem releaseEmpty_eq {h : Heap α} (he : h.slots = #[]) (mint : Mint) :
    releaseEmpty h mint = .ok (h.releaseEmpty mint) := by
  have hempty : require h.slots.isEmpty = .ok () := by rw [he]; rfl
  rw [releaseEmpty, hempty, allocate_eq h.floor_lt]
  by_cases hrelease : h.policy.shouldRelease h.capacity
  · simp only [bind, Except.bind, hrelease, if_true]
    rfl
  · simp only [bind, Except.bind, hrelease]
    rfl

/-! ### One slot -/

/-- Adds a slot, as `Heap.append` does. -/
def append (h : Heap α) (mint : Mint) (slot : Slot α) : Except Trap (Change α Unit) := do
  let (roomy, events) ← makeRoom h
  let sifted ← up roomy.priority (roomy.slots.push slot) roomy.slots.size
  let longer ← lift (roomy.adopt sifted)
  pure ⟨longer, mint, events, ()⟩

/-- The slot at `i`, and the slots without it, whose place the last one takes. -/
def swapRemove (slots : Array (Slot α)) (i : Nat) : Except Trap (Slot α × Array (Slot α)) := do
  let removed ← read slots i
  let last ← sub slots.size 1
  let swapped ← exchange slots i last
  pure (removed, swapped.pop)

/-- Takes out the slot at position `i`, as `Heap.removeAt` does. -/
def removeAt (h : Heap α) (mint : Mint) (i : Nat) : Except Trap (Change α α) := do
  let (removed, slots) ← swapRemove h.slots i
  let registry ← lift (h.registry.retire? removed.key)
  let shorter := { h with slots := slots, registry := registry }
  if i < slots.size then
    let sifted ← settle h.priority slots i
    let settled ← lift (shorter.adopt sifted)
    pure ⟨settled, mint, [], removed.value⟩
  else
    let touched := { shorter with version := h.version + 1 }
    if slots.isEmpty then
      let released ← releaseEmpty touched mint
      pure (released.answering removed.value)
    else pure ⟨touched, mint, [], removed.value⟩

/-- Replaces the element of the slot at position `i`, as `Heap.replaceAt` does. -/
def replaceAt (h : Heap α) (mint : Mint) (i : Nat) (value : α) : Except Trap (Change α α) := do
  let old ← read h.slots i
  let sifted ← settle h.priority (h.slots.setIfInBounds i { old with value := value }) i
  let settled ← lift (h.adopt sifted)
  pure ⟨settled, mint, [], old.value⟩

theorem swapRemove_eq {slots : Array (Slot α)} {i : Nat} (hi : i < slots.size) :
    swapRemove slots i = .ok (slots[i], Heap.withoutSlot slots i hi) := by
  have hlast : slots.size - 1 < slots.size := by omega
  simp only [swapRemove, read_eq hi, sub_eq (show 1 ≤ slots.size by omega), exchange_eq hi hlast,
    bind, Except.bind]
  rfl

/-- **One slot** is added, taken out and replaced with checks as without them, in a heap within its
bounds, at any position it has. -/
theorem append_eq {h : Heap α} (hh : h.Housed) (mint : Mint) (slot : Slot α) :
    append h mint slot = lift (h.append mint slot) := by
  rw [append, makeRoom_eq hh, Heap.append, lift_bind]
  congr 1
  funext room
  obtain ⟨roomy, events⟩ := room
  dsimp only
  rw [up_eq _ (Heap.size_lt_size_push ..), lift_bind]
  rfl

theorem removeAt_eq {h : Heap α} (hh : h.Housed) (mint : Mint) {i : Nat} (hi : i < h.slots.size) :
    removeAt h mint i = lift (h.removeAt mint i) := by
  have hlimit : (Heap.withoutSlot h.slots i hi).size ≤ maxLimit := by
    rw [Heap.size_withoutSlot]
    exact Nat.le_trans (Nat.sub_le ..) (Nat.le_of_lt hh.size_lt)
  rw [removeAt, swapRemove_eq hi, Heap.removeAt, dif_pos hi]
  simp only [bind, Except.bind]
  cases h.registry.retire? h.slots[i].key with
  | error cause => rfl
  | ok registry =>
      -- The last slot was moved to `i`, or was the one taken out; then there may be none left.
      by_cases hs : i < (Heap.withoutSlot h.slots i hi).size
      · simp only [lift_ok, hs, if_true, dite_true, settle_eq _ hs hlimit]
        cases Heap.adopt _ (Sift.settle h.priority (Heap.withoutSlot h.slots i hi) i hs) <;> rfl
      · simp only [lift_ok, hs, if_false, dite_false]
        by_cases he : (Heap.withoutSlot h.slots i hi).isEmpty = true
        · have hreleased := releaseEmpty_eq
            (h := h.touched (Heap.withoutSlot h.slots i hi) registry) (Array.isEmpty_iff.mp he) mint
          unfold Heap.touched at hreleased
          simp only [he, if_true, hreleased]
          rfl
        · simp only [he]
          rfl

theorem replaceAt_eq {h : Heap α} (hh : h.Housed) (mint : Mint) {i : Nat} (hi : i < h.slots.size)
    (value : α) : replaceAt h mint i value = lift (h.replaceAt mint i value) := by
  have hset : i < (h.slots.set i { h.slots[i] with value := value }).size := by
    rw [Array.size_set]
    exact hi
  have hlimit : (h.slots.set i { h.slots[i] with value := value }).size ≤ maxLimit := by
    rw [Array.size_set]
    exact Nat.le_of_lt hh.size_lt
  rw [replaceAt, read_eq hi, Heap.replaceAt, dif_pos hi, lift_bind]
  simp only [bind, Except.bind, Array.setIfInBounds_def, hi, dite_true, settle_eq _ hset hlimit]
  rfl

end Checked

end TrackedHeap
