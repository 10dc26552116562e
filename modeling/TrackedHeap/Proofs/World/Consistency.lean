import TrackedHeap.Proofs.Registry.Growth
import TrackedHeap.Proofs.World.Runs

/-!
# TrackedHeap.Proofs.World.Consistency

**Slots and registry agree** in every run, whatever the ranking: keys and positions refer
to each other, the free keys are the vacant ones, and the counter counts the rest.

All of this is `Heap.WellFormed` read out. What is left to prove is a count: the keys of
the slots, which are all different, are the bound keys of the registry, so there are as
many keyed slots as bound records.
-/

namespace TrackedHeap

variable {α : Type}

/-! ### Counting by key -/

/-- The elements of a list that have a property are as many as their places. -/
theorem countP_eq_length_of_places {β : Type} {l : List β} {p : β → Bool} {places : List Nat}
    (hnd : places.Nodup) (hp : ∀ i, i ∈ places ↔ ∃ b, l[i]? = some b ∧ p b = true) :
    l.countP p = places.length := by
  rw [countP_eq_length_finRange]
  apply List.Perm.length_eq
  rw [List.perm_ext_iff_of_nodup
    (((List.nodup_finRange _).filter _).map Fin.val_injective) hnd]
  intro i
  rw [hp]
  simp only [List.mem_map, List.mem_filter, List.mem_finRange, true_and]
  constructor
  · intro hfin
    obtain ⟨j, hj, rfl⟩ := hfin
    exact ⟨_, List.getElem?_eq_getElem j.isLt, hj⟩
  · intro hb
    obtain ⟨b, hb, hpb⟩ := hb
    obtain ⟨hlt, rfl⟩ := List.getElem?_eq_some_iff.mp hb
    exact ⟨⟨i, hlt⟩, hpb, rfl⟩

namespace Heap.WellFormed

variable {h : Heap α}

/-- As many slots have keys as records are bound. -/
theorem countP_bound (hw : h.WellFormed) :
    h.registry.records.countP (fun record => record.status.position?.isSome) =
      h.slots.countP (fun slot => slot.key.isSome) := by
  have hkeys : h.keys.reduceOption.length = h.slots.countP (fun slot => slot.key.isSome) := by
    rw [← Array.countP_toList, List.reduceOption, List.length_filterMap_eq_countP, Heap.keys,
      List.countP_map]
    rfl
  rw [← hkeys, ← Array.countP_toList]
  refine countP_eq_length_of_places hw.keys_nodup ?_
  intro key
  rw [List.reduceOption_mem_iff, hw.mem_keys_iff_isSome]
  simp only [Registry.positionOf, Array.getElem?_toList]
  rcases h.registry.records[key]? with _ | record <;> simp

/-- The counter counts the keyed slots and the reserved keys. -/
theorem issued_eq (hw : h.WellFormed) :
    h.registry.issued = h.slots.countP (fun slot => slot.key.isSome) +
      h.registry.records.countP (fun record => record.status = .reserved) := by
  rw [← hw.countP_bound, hw.registry.issued_eq]
  simp only [← Array.countP_toList]
  induction h.registry.records.toList with
  | nil => rfl
  | cons record records ih =>
      rw [List.countP_cons, List.countP_cons, List.countP_cons, ih]
      rcases record with ⟨generation, _ | _ | position⟩ <;> simp [Status.position?] <;> omega

end Heap.WellFormed

namespace Heap

/-- The slots of a heap and the records of its registry say the same. -/
structure Agrees (h : Heap α) : Prop where
  /-- The record of the key of a slot is bound to the slot's position. -/
  bound_of_slot : ∀ (i : Nat) value key, h.slots[i]? = some ⟨value, some key⟩ →
    ∃ generation, h.registry.records[key]? = some ⟨generation, .bound i⟩
  /-- The slot at the position of a bound record holds the record's key. -/
  slot_of_bound : ∀ (key : Nat) generation i,
    h.registry.records[key]? = some ⟨generation, .bound i⟩ →
      ∃ value, h.slots[i]? = some ⟨value, some key⟩
  /-- No two slots hold one key. -/
  slot_unique : ∀ (i j : Nat) value value' key, h.slots[i]? = some ⟨value, some key⟩ →
    h.slots[j]? = some ⟨value', some key⟩ → i = j
  /-- A vacant record has no position. -/
  position_of_vacant : ∀ (key : Nat) generation,
    h.registry.records[key]? = some ⟨generation, .vacant⟩ → h.registry.positionOf key = none
  /-- No key waits twice to be issued again. -/
  free_nodup : h.registry.free.Nodup
  /-- The keys that wait are the vacant ones, as long as no count is at its end. -/
  mem_free_iff : (∀ record ∈ h.registry.records, record.generation < Registry.lastGeneration) →
    ∀ key, key ∈ h.registry.free ↔
      ∃ generation, h.registry.records[key]? = some ⟨generation, .vacant⟩
  /-- The counter counts the records that are not vacant. -/
  issued_eq : h.registry.issued =
    h.registry.records.countP (fun record => record.status ≠ .vacant)
  /-- These are the keyed slots and the reserved keys. -/
  issued_eq_add : h.registry.issued = h.slots.countP (fun slot => slot.key.isSome) +
    h.registry.records.countP (fun record => record.status = .reserved)

theorem WellFormed.agrees {h : Heap α} (hw : h.WellFormed) : h.Agrees where
  bound_of_slot i value key hs := by
    have hpos := (hw.tied i key).mp (keyAt_eq_some_iff.mpr ⟨value, hs⟩)
    obtain ⟨⟨generation, status⟩, hr, hst⟩ := Option.bind_eq_some_iff.mp hpos
    cases status <;> cases hst
    exact ⟨generation, hr⟩
  slot_of_bound key generation i hr := by
    have hpos : h.registry.positionOf key = some i := by
      simp [Registry.positionOf, hr, Status.position?]
    exact keyAt_eq_some_iff.mp ((hw.tied i key).mpr hpos)
  slot_unique i j value value' key hi hj :=
    hw.tied.injective (keyAt_eq_some_iff.mpr ⟨value, hi⟩) (keyAt_eq_some_iff.mpr ⟨value', hj⟩)
  position_of_vacant key generation hr := by
    simp [Registry.positionOf, hr, Status.position?]
  free_nodup := hw.registry.free_nodup
  mem_free_iff hg key := by
    constructor
    · intro hk
      obtain ⟨⟨generation, status⟩, hr, rfl⟩ := hw.registry.vacant_of_mem_free key hk
      exact ⟨generation, hr⟩
    · intro hvac
      obtain ⟨generation, hr⟩ := hvac
      have hlt := hg _ (Array.mem_of_getElem? hr)
      exact (hw.registry.mem_free_of_vacant key _ hr rfl).resolve_right (Nat.not_le.mpr hlt)
  issued_eq := hw.registry.issued_eq
  issued_eq_add := hw.issued_eq

end Heap

namespace World

variable [BEq α]

/-- **Slots and registry agree** after every run, whatever the rankings say and whatever
requests have failed on the way. -/
theorem heap_agrees {commands : List (Command α)} {w : World α}
    (hrun : World.run {} commands = some w) {n : Nat} {h : Heap α} (hn : w.heap? n = some h) :
    h.Agrees :=
  (heap_wellFormed hrun hn).agrees

/-- A run to which this applies: a keyed element, one without a key and a reserved key are
left when the first element, which was keyed, has been taken out. -/
theorem heap_agrees_of_five : ∃ (w : World Nat) (h : Heap Nat),
    World.run {} [.create {} .natural, .act 0 (.insert 5), .act 0 (.insert 3), .act 0 (.push 4),
      .act 0 .reserve, .act 0 .pop] = some w ∧ w.heap? 0 = some h ∧
    h.keys = [none, some 0] ∧ h.registry.free = [1] ∧ h.issued = 2 ∧ h.Agrees := by
  obtain ⟨w, h, hrun, hn, hcheck⟩ := exists_of_any_run (α := Nat)
    [.create {} .natural, .act 0 (.insert 5), .act 0 (.insert 3), .act 0 (.push 4),
      .act 0 .reserve, .act 0 .pop] 0
    (fun h => decide (h.keys = [none, some 0] ∧ h.registry.free = [1] ∧ h.issued = 2))
    (by decide +kernel)
  obtain ⟨hkeys, hfree, hissued⟩ := of_decide_eq_true hcheck
  exact ⟨w, h, hrun, hn, hkeys, hfree, hissued, heap_agrees hrun hn⟩

end World

end TrackedHeap
