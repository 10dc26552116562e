import Mathlib.Logic.Relation
import TrackedHeap.Proofs.Heap.Operations

/-!
# TrackedHeap.Proofs.Heap.Storage

**What requests do to the storage** of a heap.

Whatever the four numbers of the policy are, a request does one of five things: it leaves the
storage alone, it admits elements one after another, it takes elements out and leaves some, it
leaves none, or it cuts the storage back (`Heap.Rehouses`). Only a full heap grows when it admits
an element; only a heap without elements goes back to its floor. That the storage stays between
its bounds (`Heap.Housed`) is read off these five.
-/

namespace TrackedHeap

variable {α : Type}

open Relation (TransGen)

namespace StoragePolicy

/-- The most that is held under a policy by a heap that never had more than `peak` elements. -/
def ceiling (p : StoragePolicy) (peak : Nat) : Nat :=
  max p.floor (max (2 * peak) (peak + max p.minGrowth 1))

/-- A heap that grows doubles or gains the least growth, so at a size below the peak it stays below
the ceiling. The ceiling of a word only lowers this. -/
theorem grown_le_ceiling (p : StoragePolicy) {current peak : Nat} (h : current ≤ peak) :
    p.grown current ≤ p.ceiling peak := by
  simp only [grown, ceiling]
  omega

theorem le_of_not_shouldRelease {p : StoragePolicy} {capacity : Nat}
    (h : ¬ p.shouldRelease capacity = true) :
    capacity ≤ min (p.floor * p.shrinkFactor) wordMax := by
  simpa [shouldRelease] using h

end StoragePolicy

namespace Op

/-- Whether a request asks for one element to be added. -/
def insertsOne : Op α → Bool
  | push _ | insert _ | insertWith _ _ => true
  | _ => false

/-- Whether a request asks for elements to be added. -/
def inserts : Op α → Bool
  | push _ | insert _ | insertWith _ _ | extend _ => true
  | _ => false

/-- Whether a request asks for elements to be taken out. -/
def removes : Op α → Bool
  | pop | remove _ | removeValue _ | removeFirst _ | clear => true
  | _ => false

end Op

namespace Heap

/-- The storage of a heap is within its bounds. -/
structure Housed (h : Heap α) : Prop where
  floor_le : h.floor ≤ h.capacity
  size_le : h.size ≤ h.capacity
  capacity_lt : h.capacity < h.slotSize.limit
  /-- A heap without elements has released what it held beyond the measure of its policy. -/
  le_of_empty : h.slots = #[] →
    h.capacity ≤ max h.floor (min (h.floor * h.policy.shrinkFactor) StoragePolicy.wordMax)

/-- `h'` holds one element more than `h`: where there was room, or, if `h` was full, in storage
that has grown. -/
structure Admits (h h' : Heap α) : Prop where
  policy_eq : h'.policy = h.policy
  slotSize_eq : h'.slotSize = h.slotSize
  size_eq : h'.size = h.size + 1
  size_le : h'.size ≤ h'.capacity
  capacity_cases : h.size < h.capacity ∧ h'.capacity = h.capacity ∨
    h.size = h.capacity ∧ h.capacity < h'.capacity ∧
      h'.capacity = h.policy.grown h.capacity ∧ h'.capacity < h.slotSize.limit

/-- What a request can do to the storage of a heap. -/
inductive Rehouses (h h' : Heap α) : Op α → Prop
  /-- No element has come or gone. -/
  | kept {op : Op α} (hp : h'.policy = h.policy) (hz : h'.slotSize = h.slotSize)
      (hs : h'.size = h.size) (hc : h'.capacity = h.capacity) : Rehouses h h' op
  /-- Elements were admitted one after another. -/
  | filled {op : Op α} (hop : op.inserts = true) (ha : TransGen Admits h h') : Rehouses h h' op
  /-- Elements were taken out, and some are left. -/
  | thinned {op : Op α} (hop : op.removes = true) (hp : h'.policy = h.policy)
      (hz : h'.slotSize = h.slotSize) (hs : h'.size < h.size) (hne : h'.slots ≠ #[])
      (hc : h'.capacity = h.capacity) : Rehouses h h' op
  /-- No element is left, and what was held beyond measure is released. -/
  | emptied {op : Op α} (hop : op.removes = true) (hp : h'.policy = h.policy)
      (hz : h'.slotSize = h.slotSize) (he : h'.slots = #[])
      (hc : h'.capacity = if h.policy.shouldRelease h.capacity then h.floor else h.capacity) :
      Rehouses h h' op
  /-- The storage was cut back. -/
  | cut (hp : h'.policy = h.policy) (hz : h'.slotSize = h.slotSize) (hs : h'.slots = h.slots)
      (hc : h'.capacity = min h.capacity (max h.size h.floor)) : Rehouses h h' .trim

/-! ### One element -/

theorem size_eq_zero_iff {h : Heap α} : h.size = 0 ↔ h.slots = #[] := Array.size_eq_zero_iff

/-- A new heap holds its floor. -/
theorem housed_create {policy : StoragePolicy} {priority : Priority α} {size : SlotSize}
    {m m' : Mint} {h : Heap α} (hc : Heap.create policy priority size m = .ok (h, m')) :
    h.Housed := by
  unfold Heap.create at hc
  split at hc
  · next hlt =>
      cases hc
      exact ⟨Nat.le_refl _, Nat.zero_le _, hlt, fun _ => Nat.le_max_left ..⟩
  · cases hc

/-- A capacity that can be allocated is far from the ceiling of a word. -/
theorem Housed.capacity_lt_wordMax {h : Heap α} (hh : h.Housed) :
    h.capacity < StoragePolicy.wordMax :=
  Nat.lt_trans (Nat.lt_of_lt_of_le hh.capacity_lt h.slotSize.limit_le) (by decide)

theorem Admits.housed {h h' : Heap α} (ha : h.Admits h') (hh : h.Housed) : h'.Housed := by
  have hfloor : h'.floor = h.floor := by simp only [floor, ha.policy_eq]
  have hlimit : h'.slotSize.limit = h.slotSize.limit := by rw [ha.slotSize_eq]
  have hsize := ha.size_eq
  have := hh.floor_le
  have := hh.capacity_lt
  refine ⟨?_, ha.size_le, ?_, ?_⟩
  · rcases ha.capacity_cases with ⟨-, hc⟩ | ⟨-, hc, -⟩ <;> omega
  · rcases ha.capacity_cases with ⟨-, hc⟩ | ⟨-, -, -, hc⟩ <;> omega
  · intro he
    rw [← size_eq_zero_iff] at he
    omega

/-- The capacity after room was made: the one before if there was room, else the grown one. -/
theorem makeRoom_eq_ok {h : Heap α} {capacity : Nat} {events : List Event}
    (hroom : h.makeRoom = .ok ({ h with capacity := capacity }, events)) :
    h.size < h.capacity ∧ capacity = h.capacity ∨
      h.capacity ≤ h.size ∧ capacity = h.policy.grown h.capacity ∧
        capacity < h.slotSize.limit := by
  unfold makeRoom at hroom
  split at hroom
  · next hlt => exact Or.inl ⟨hlt, congrArg (·.1.capacity) (Except.ok.inj hroom.symm)⟩
  · next hfull =>
      dsimp only at hroom
      split at hroom
      · next hlt =>
          have hcapacity : capacity = h.policy.grown h.capacity :=
            congrArg (·.1.capacity) (Except.ok.inj hroom.symm)
          exact Or.inr ⟨Nat.le_of_not_lt hfull, hcapacity, hcapacity ▸ hlt⟩
      · cases hroom

/-- Storing a slot admits an element: a full heap grows by one slot at least. -/
theorem Stores.admits {h h' : Heap α} {slot : Slot α} {events : List Event}
    (hs : h.Stores slot events h') (hh : h.Housed) : h.Admits h' := by
  have hsize : h'.size = h.size + 1 := by
    rw [size, hs.slots_eq, Sift.size_up, Array.size_push, size]
  obtain ⟨capacity, hroom, ha⟩ := hs.room
  have hpolicy : h'.policy = h.policy := by rw [ha.eq_with]
  have hslot : h'.slotSize = h.slotSize := by rw [ha.eq_with]
  have hcapacity : h'.capacity = capacity := by rw [ha.eq_with]
  have := hh.size_le
  rcases makeRoom_eq_ok hroom with ⟨hlt, hc⟩ | ⟨hfull, hc, hlimit⟩
  · exact ⟨hpolicy, hslot, hsize, by omega, Or.inl ⟨hlt, by omega⟩⟩
  · have hgrown := h.policy.lt_grown hh.capacity_lt_wordMax
    exact ⟨hpolicy, hslot, hsize, by omega, Or.inr ⟨by omega, by omega, by omega, by omega⟩⟩

/-- The registry has no part in the storage. -/
theorem Housed.with_registry {h : Heap α} (hh : h.Housed) (r : Registry) :
    Housed { h with registry := r } :=
  ⟨hh.floor_le, hh.size_le, hh.capacity_lt, hh.le_of_empty⟩

/-- The same where a handle was issued for the element before. -/
theorem Stores.admits_of_registry {h h' : Heap α} {r : Registry} {slot : Slot α}
    {events : List Event} (hs : Stores { h with registry := r } slot events h') (hh : h.Housed) :
    h.Admits h' := by
  have ha := hs.admits (hh.with_registry r)
  exact ⟨ha.policy_eq, ha.slotSize_eq, ha.size_eq, ha.size_le, ha.capacity_cases⟩

/-- Taking a slot out leaves the storage alone, unless it leaves no slot. -/
theorem TakesOut.rehouses {h : Heap α} {m : Mint} {i : Nat} {hi : i < h.slots.size}
    {c : Change α α} (ht : h.TakesOut m i hi c) {op : Op α} (hop : op.removes = true) :
    h.Rehouses c.heap op := by
  have hsize : c.heap.size + 1 = h.size := by
    have hlen := ht.perm_slots.length_eq
    simpa only [List.length_cons, Array.length_toList, size] using hlen
  obtain ⟨r, -, -, hc⟩ := ht
  cases hc with
  | refilled hs ha =>
      refine .thinned hop (by rw [ha.eq_with]) (by rw [ha.eq_with]) (by omega) ?_
        (by rw [ha.eq_with])
      intro he
      have hzero := congrArg Array.size (ha.slots_eq.symm.trans he)
      rw [Sift.size_settle] at hzero
      rw [hzero] at hs
      exact absurd hs (Nat.not_lt_zero i)
  | last hs hne => exact .thinned hop rfl rfl (by omega) hne rfl
  | emptied hs he =>
      exact .emptied hop (policy_releaseEmpty _ m) (slotSize_releaseEmpty _ m)
        ((slots_releaseEmpty _ m).trans he) (capacity_releaseEmpty _ m)

theorem Clears.rehouses {h : Heap α} {m : Mint} {c : Change α Unit} (hc : h.Clears m c) :
    h.Rehouses c.heap .clear := by
  have hslots := hc.slots_eq
  obtain ⟨r, released, -, -, rfl, rfl⟩ := hc
  exact .emptied rfl (policy_releaseEmpty _ m) (slotSize_releaseEmpty _ m) hslots
    (capacity_releaseEmpty _ m)

end Heap

/-! ### Any request -/

namespace Op.Effect

open Heap

variable [BEq α] {h : Heap α} {m : Mint} {o : Outcome α (Reply α)}

/-- Adding many elements admits those that found room, one after another. -/
theorem admits_extend {values : List α} (he : (Op.extend values).Effect h m o) (hh : h.Housed) :
    o.heap = h ∨ TransGen Admits h o.heap := by
  induction values generalizing h o with
  | nil =>
      cases he
      exact Or.inl rfl
  | cons value rest ih =>
      cases he with
      | extendMore hs ho =>
          have ha := hs.admits hh
          rcases ih ho (ha.housed hh) with heq | hrest
          · exact Or.inr (.single (by rw [heq]; exact ha))
          · exact Or.inr (.head ha hrest)
      | extendFull hl => exact Or.inl rfl

/-- **Requests and storage**: whatever a request comes to, it does one of five things to the
storage. -/
theorem rehouses {op : Op α} (he : op.Effect h m o) (hh : h.Housed) : h.Rehouses o.heap op := by
  cases he with
  | pushed hs | insertedWith hu hs => exact .filled rfl (.single (hs.admits hh))
  | inserted hres hr hg hs => exact .filled rfl (.single (hs.admits_of_registry hh))
  | extendMore hs ho =>
      have ha := hs.admits hh
      rcases admits_extend ho (ha.housed hh) with heq | hrest
      · exact .filled rfl (.single (by rw [heq]; exact ha))
      · exact .filled rfl (.head ha hrest)
  | popped ht | removed hp ht | removedFirst hf ht | removedValue hf ht => exact ht.rehouses rfl
  | updated hp hr =>
      refine .kept (by rw [hr.eq_with]) (by rw [hr.eq_with]) ?_ (by rw [hr.eq_with])
      rw [size, Adopts.slots_eq hr, Sift.size_settle, Array.size_set, size]
  | cleared hc => exact hc.rehouses
  | trimmed ht => exact .cut rfl rfl rfl rfl
  | pushFull | extended | extendFull | reserved | exhausted | insertFull | insertExhausted
  | released | releaseRefused | insertWithFull | insertWithRefused | popEmpty | removeRefused
  | noneFirst | noValue | updateRefused | untrimmed => exact .kept rfl rfl rfl rfl

end Op.Effect

/-! ### The bounds -/

namespace Heap

variable {h h' : Heap α}

theorem Admits.capacity_le (ha : h.Admits h') : h.capacity ≤ h'.capacity := by
  rcases ha.capacity_cases with ⟨-, hc⟩ | ⟨-, hc, -⟩ <;> omega

/-- A heap that grows was full, so its capacity was a size below the peak. -/
theorem Admits.capacity_le_ceiling (ha : h.Admits h') {peak : Nat} (hpeak : h'.size ≤ peak)
    (hle : h.capacity ≤ h.policy.ceiling peak) : h'.capacity ≤ h'.policy.ceiling peak := by
  have hsize := ha.size_eq
  rw [ha.policy_eq]
  rcases ha.capacity_cases with ⟨-, hc⟩ | ⟨hfull, -, hc, -⟩
  · exact hc ▸ hle
  · rw [hc]
    exact h.policy.grown_le_ceiling (by omega)

/-- What a row of admissions leaves: its size is the largest of the row. -/
structure Filled (h h' : Heap α) : Prop where
  housed : h'.Housed
  policy_eq : h'.policy = h.policy
  slotSize_eq : h'.slotSize = h.slotSize
  size_lt : h.size < h'.size
  capacity_le : h.capacity ≤ h'.capacity
  capacity_le_ceiling : ∀ peak, h'.size ≤ peak → h.capacity ≤ h.policy.ceiling peak →
    h'.capacity ≤ h'.policy.ceiling peak

theorem filled_of_admits (ha : TransGen Admits h h') (hh : h.Housed) : h.Filled h' := by
  induction ha with
  | single ha =>
      have hsize := ha.size_eq
      exact ⟨ha.housed hh, ha.policy_eq, ha.slotSize_eq, by omega, ha.capacity_le,
        fun _ hpeak hle => ha.capacity_le_ceiling hpeak hle⟩
  | tail _ ha ih =>
      have hsize := ha.size_eq
      have hlt := ih.size_lt
      refine ⟨ha.housed ih.housed, ha.policy_eq.trans ih.policy_eq,
        ha.slotSize_eq.trans ih.slotSize_eq, by omega, Nat.le_trans ih.capacity_le ha.capacity_le,
        ?_⟩
      intro peak hpeak hle
      exact ha.capacity_le_ceiling hpeak (ih.capacity_le_ceiling peak (by omega) hle)

namespace Rehouses

variable {op : Op α}

theorem policy_eq (hr : h.Rehouses h' op) (hh : h.Housed) : h'.policy = h.policy := by
  cases hr with
  | filled hop ha => exact (filled_of_admits ha hh).policy_eq
  | kept hp | thinned _ hp | emptied _ hp | cut hp => exact hp

theorem slotSize_eq (hr : h.Rehouses h' op) (hh : h.Housed) : h'.slotSize = h.slotSize := by
  cases hr with
  | filled hop ha => exact (filled_of_admits ha hh).slotSize_eq
  | kept _ hz | thinned _ _ hz | emptied _ _ hz | cut _ hz => exact hz

/-- Storage stays within its bounds, whatever is asked for. -/
theorem housed (hr : h.Rehouses h' op) (hh : h.Housed) : h'.Housed := by
  have hpolicy := hr.policy_eq hh
  have hfloor : h'.floor = h.floor := by simp only [floor, hpolicy]
  have hlimit : h'.slotSize.limit = h.slotSize.limit := by rw [hr.slotSize_eq hh]
  have hle := hh.floor_le
  have hsize := hh.size_le
  have hlt := hh.capacity_lt
  cases hr with
  | kept hp hz hs hc =>
      refine ⟨by omega, by omega, by omega, ?_⟩
      intro he
      rw [hfloor, hpolicy, hc]
      exact hh.le_of_empty (size_eq_zero_iff.mp (hs ▸ size_eq_zero_iff.mpr he))
  | filled hop ha => exact (filled_of_admits ha hh).housed
  | thinned hop hp hz hs hne hc => exact ⟨by omega, by omega, by omega, fun he => absurd he hne⟩
  | emptied hop hp hz he hc =>
      have hzero := size_eq_zero_iff.mpr he
      rw [← hfloor] at hc
      split at hc
      · exact ⟨by omega, by omega, by omega, fun _ => by omega⟩
      · next hrelease =>
          have hmeasure := StoragePolicy.le_of_not_shouldRelease hrelease
          refine ⟨by omega, by omega, by omega, fun _ => ?_⟩
          rw [hc, hpolicy, hfloor]
          exact Nat.le_trans hmeasure (Nat.le_max_right ..)
  | cut hp hz hs hc =>
      have hsame : h'.size = h.size := by simp only [size, hs]
      refine ⟨by omega, by omega, by omega, ?_⟩
      intro he
      rw [hfloor, hpolicy]
      exact Nat.le_trans (by omega) (hh.le_of_empty (hs ▸ he))

/-- Storage stays below the ceiling for the peak of its elements. -/
theorem capacity_le_ceiling (hr : h.Rehouses h' op) (hh : h.Housed) {peak : Nat}
    (hpeak : h'.size ≤ peak) (hle : h.capacity ≤ h.policy.ceiling peak) :
    h'.capacity ≤ h'.policy.ceiling peak := by
  have hfloor := hh.floor_le
  have hpolicy := hr.policy_eq hh
  cases hr with
  | filled hop ha => exact (filled_of_admits ha hh).capacity_le_ceiling peak hpeak hle
  | kept hp hz hs hc => exact hc ▸ hpolicy ▸ hle
  | thinned hop hp hz hs hne hc => exact hc ▸ hpolicy ▸ hle
  | emptied hop hp hz he hc =>
      rw [hpolicy]
      split at hc <;> omega
  | cut hp hz hs hc =>
      rw [hpolicy]
      omega

/-- **Storage grows** only where elements are admitted. -/
theorem admits_of_lt (hr : h.Rehouses h' op) (hh : h.Housed) (hlt : h.capacity < h'.capacity) :
    op.inserts = true ∧ TransGen Admits h h' := by
  have hfloor := hh.floor_le
  cases hr with
  | kept hp hz hs hc => omega
  | filled hop ha => exact ⟨hop, ha⟩
  | thinned hop hp hz hs hne hc => omega
  | emptied hop hp hz he hc => split at hc <;> omega
  | cut hp hz hs hc => omega

/-- **Storage is given back** only where it is trimmed, and where no element is left. -/
theorem cases_of_lt (hr : h.Rehouses h' op) (hh : h.Housed) (hlt : h'.capacity < h.capacity) :
    op = .trim ∧ h'.slots = h.slots ∧ max h.floor h.size ≤ h'.capacity ∨
      op.removes = true ∧ h'.slots = #[] ∧ h'.capacity = h.floor := by
  have hfloor := hh.floor_le
  have hsize := hh.size_le
  cases hr with
  | kept hp hz hs hc => omega
  | filled hop ha =>
      have := (filled_of_admits ha hh).capacity_le
      omega
  | thinned hop hp hz hs hne hc => omega
  | emptied hop hp hz he hc =>
      split at hc
      · exact Or.inr ⟨hop, he, hc⟩
      · omega
  | cut hp hz hs hc =>
      exact Or.inl ⟨rfl, hs, by omega⟩

end Rehouses

end Heap

/-- An insertion of one element that went through has admitted it. -/
theorem Op.Effect.admits [BEq α] {h : Heap α} {m : Mint} {o : Outcome α (Reply α)} {op : Op α}
    (he : op.Effect h m o) (hh : h.Housed) (hop : op.insertsOne = true)
    (hok : o.answer.isOk = true) : h.Admits o.heap := by
  cases he with
  | pushed hs | insertedWith hu hs => exact hs.admits hh
  | inserted hres hr hg hs => exact hs.admits_of_registry hh
  | pushFull | insertFull | insertExhausted | insertWithFull | insertWithRefused => cases hok
  | extended | extendMore | extendFull | reserved | exhausted | released | releaseRefused | popped
  | popEmpty | removed | removeRefused | removedFirst | noneFirst | removedValue | noValue
  | updated | updateRefused | cleared | trimmed | untrimmed => cases hop

end TrackedHeap
