import TrackedHeap.Heap.Insertion
import TrackedHeap.Heap.Update
import TrackedHeap.Proofs.Heap.Tied

/-!
# TrackedHeap.Proofs.Heap.WellFormed

**Well-formed heaps**: a sound registry, tied to the slots. This is all that a heap
under an arbitrary ranking can promise, and all its operations rely on.

A heap that takes over a sift `Adopts` it. Adding an element is one sift up (`Stores`)
and replacing one is one settling sift (`Replaces`), so each is described by what the heap
adopts; what becomes of the elements, the keys and the version is read off that
description.
-/

namespace TrackedHeap

variable {α : Type}

namespace Heap

/-- A sound registry, tied to the slots. -/
structure WellFormed (h : Heap α) : Prop where
  registry : h.registry.Sound
  tied : Tied h.slots h.registry

/-- `h'` is `h` with the slots of a sift, and its registry has followed. -/
structure Adopts (h : Heap α) (s : Sifted α) (h' : Heap α) : Prop where
  eq_with : h' = { h with
    slots := s.slots
    registry := h'.registry
    version := h.version + if s.moved then 2 else 1 }
  unplaced_eq : h'.registry.unplaced = h.registry.unplaced
  tied : Tied h'.slots h'.registry

namespace Adopts

variable {h h' : Heap α} {s : Sifted α}

theorem slots_eq (ha : h.Adopts s h') : h'.slots = s.slots := by rw [ha.eq_with]

theorem id_eq (ha : h.Adopts s h') : h'.id = h.id := by rw [ha.eq_with]

theorem priority_eq (ha : h.Adopts s h') : h'.priority = h.priority := by rw [ha.eq_with]

theorem version_eq (ha : h.Adopts s h') :
    h'.version = h.version + if s.moved then 2 else 1 := by rw [ha.eq_with]

theorem wellFormed (ha : h.Adopts s h') (hs : h.registry.Sound) : h'.WellFormed :=
  ⟨hs.congr ha.unplaced_eq, ha.tied⟩

end Adopts

/-- A heap whose slots were tied but for the start of a sift can take the sift over. -/
theorem adopt_of_tiedOff {h : Heap α} {slots : Array (Slot α)} {i : Nat}
    (ht : TiedOff slots h.registry i) {s : Sifted α} (hs : s.Rearranges slots) (hi : i ∈ s.path)
    (hlt : ∀ j ∈ s.path, j < s.slots.size) : ∃ h', h.adopt s = .ok h' ∧ h.Adopts s h' := by
  obtain ⟨r, hf, hun, htied⟩ := ht.follow hs hi hlt
  refine ⟨{ h with
    slots := s.slots
    registry := r
    version := h.version + if s.moved then 2 else 1 }, ?_, rfl, hun, htied⟩
  simp only [adopt, hf]
  rfl

theorem mem_keys {h : Heap α} {key : Nat} : some key ∈ h.keys ↔ ∃ i, keyAt h.slots i = some key :=
  mem_keys_iff

namespace WellFormed

variable {h : Heap α}

theorem isIssued_of_mem_keys (hw : h.WellFormed) {key : Nat} (hk : some key ∈ h.keys) :
    h.registry.IsIssued key := by
  obtain ⟨i, hi⟩ := mem_keys.mp hk
  exact hw.tied.isIssued hi

/-- A key names an element exactly if some slot holds it. -/
theorem mem_keys_iff_isSome (hw : h.WellFormed) {key : Nat} :
    some key ∈ h.keys ↔ (h.registry.positionOf key).isSome = true := by
  simp only [mem_keys, Option.isSome_iff_exists, hw.tied _ key]

/-- A handle under which an element is stored shows the element's position. -/
theorem statusOf_of_mem_keys (hw : h.WellFormed) {x : Handle} (hx : h.registry.Issues x)
    (hk : some x.key ∈ h.keys) :
    ∃ i, ∃ hi : i < h.slots.size, h.registry.statusOf x = .ok (.bound i) ∧
      h.slots[i].key = some x.key := by
  obtain ⟨i, hi⟩ := mem_keys.mp hk
  have hlt := lt_size_of_keyAt hi
  have hpos := (hw.tied i x.key).mp hi
  obtain ⟨ho, ⟨generation, status⟩, hrec, rfl, hv⟩ := hx
  rw [Registry.positionOf, hrec] at hpos
  cases status <;> cases hpos
  refine ⟨i, hlt, ?_, by rw [← keyAt_getElem hlt, hi]⟩
  simp [Registry.statusOf, ho, hrec]

/-- An issued handle that names no element is reserved. -/
theorem statusOf_of_not_mem_keys (hw : h.WellFormed) {x : Handle} (hx : h.registry.Issues x)
    (hk : some x.key ∉ h.keys) : h.registry.statusOf x = .ok .reserved := by
  rw [hw.mem_keys_iff_isSome] at hk
  obtain ⟨ho, ⟨generation, status⟩, hrec, rfl, hv⟩ := hx
  simp only [Registry.positionOf, hrec] at hk
  cases status with
  | vacant => exact absurd rfl hv
  | reserved => simp [Registry.statusOf, ho, hrec]
  | bound i => exact absurd rfl hk

theorem statusOf_eq_reserved_iff (hw : h.WellFormed) {x : Handle} :
    h.registry.statusOf x = .ok .reserved ↔ h.registry.Issues x ∧ some x.key ∉ h.keys := by
  refine ⟨?_, fun ⟨hx, hk⟩ => hw.statusOf_of_not_mem_keys hx hk⟩
  intro hs
  by_cases hx : h.registry.Issues x
  · refine ⟨hx, ?_⟩
    intro hk
    obtain ⟨i, hi, hbound, -⟩ := hw.statusOf_of_mem_keys hx hk
    rw [hs] at hbound
    cases hbound
  · rw [Registry.statusOf_of_not_issues hx] at hs
    cases hs

/-- No two slots hold the same key. -/
theorem keys_nodup (hw : h.WellFormed) : h.keys.reduceOption.Nodup := by
  unfold List.reduceOption Heap.keys
  rw [List.Nodup, List.pairwise_filterMap, List.pairwise_map, List.pairwise_iff_getElem]
  intro i j hi hj hij key hki key' hkj heq
  subst heq
  have hi' : keyAt h.slots i = some key := by
    rw [keyAt_getElem (by simpa using hi)]
    simpa using hki
  have hj' : keyAt h.slots j = some key := by
    rw [keyAt_getElem (by simpa using hj)]
    simpa using hkj
  exact Nat.ne_of_lt hij (hw.tied.injective hi' hj')

/-- A handle that names an element is issued, and its key is at the element's place. -/
theorem position_eq_ok_iff (hw : h.WellFormed) {x : Handle} {i : Nat} :
    h.registry.position x = .ok i ↔ h.registry.Issues x ∧ keyAt h.slots i = some x.key := by
  by_cases hx : h.registry.Issues x
  · by_cases hk : some x.key ∈ h.keys
    · obtain ⟨j, hj, hs, hkey⟩ := hw.statusOf_of_mem_keys hx hk
      simp only [Registry.position, hs, hx, true_and, Except.ok.injEq]
      constructor
      · intro hji
        rw [← hji, keyAt_getElem hj, hkey]
      · intro hi
        exact hw.tied.injective ((keyAt_getElem hj).trans hkey) hi
    · have hi : keyAt h.slots i ≠ some x.key := fun hi => hk (mem_keys.mpr ⟨i, hi⟩)
      simp [Registry.position, hw.statusOf_of_not_mem_keys hx hk, hi]
  · simp [Registry.position, Registry.statusOf_of_not_issues hx, hx]

/-- A handle that names a position names one of a slot. -/
theorem lt_size_of_position (hw : h.WellFormed) {x : Handle} {i : Nat}
    (hp : h.registry.position x = .ok i) : i < h.slots.size :=
  lt_size_of_keyAt (hw.position_eq_ok_iff.mp hp).2

theorem unboundKey_eq_ok_iff (hw : h.WellFormed) {x : Handle} {key : Nat} :
    h.registry.unboundKey x = .ok key ↔
      h.registry.Issues x ∧ some x.key ∉ h.keys ∧ key = x.key := by
  by_cases hx : h.registry.Issues x
  · by_cases hk : some x.key ∈ h.keys
    · obtain ⟨i, hi, hs, -⟩ := hw.statusOf_of_mem_keys hx hk
      simp [Registry.unboundKey, hs, hk]
    · simp [Registry.unboundKey, hw.statusOf_of_not_mem_keys hx hk, hx, hk, eq_comm]
  · simp [Registry.unboundKey, Registry.statusOf_of_not_issues hx, hx]

end WellFormed

/-- No slots are tied to a registry that has issued nothing. -/
theorem tied_new {slots : Array (Slot α)} (hs : slots = #[]) (owner : Token) :
    Tied slots { owner := owner } := by
  intro i key
  rw [hs]
  simp [keyAt, Registry.positionOf]

/-! ### Adding an element -/

/-- A heap is at its limit when it is full and cannot grow. -/
def AtLimit (h : Heap α) : Prop :=
  h.capacity ≤ h.size ∧ h.slotSize.limit ≤ h.policy.grown h.capacity

/-- Room is made unless the heap is at its limit; a heap that has grown differs in its
capacity alone. -/
theorem makeRoom_cases (h : Heap α) :
    (∃ capacity events, h.makeRoom = .ok ({ h with capacity := capacity }, events)) ∧ ¬ h.AtLimit ∨
      h.makeRoom = .error .capacityOverflow ∧ h.AtLimit := by
  unfold makeRoom AtLimit
  split
  · next hlt => exact Or.inl ⟨⟨h.capacity, [], rfl⟩, fun hl => by omega⟩
  · next hlt =>
      dsimp only
      split
      · next hg => exact Or.inl ⟨⟨_, _, rfl⟩, fun hl => by omega⟩
      · next hg => exact Or.inr ⟨rfl, by omega, by omega⟩

/-- A slot behind the last one breaks the tie there alone, if no slot holds its key. -/
theorem tiedOff_push {h : Heap α} (hw : h.WellFormed) {slot : Slot α}
    (hk : ∀ key, slot.key = some key → h.registry.IsIssued key ∧ some key ∉ h.keys) :
    TiedOff (h.slots.push slot) h.registry h.slots.size := by
  have hlast : keyAt (h.slots.push slot) h.slots.size = slot.key := by simp [keyAt]
  have hbefore : ∀ j, j ≠ h.slots.size → keyAt (h.slots.push slot) j = keyAt h.slots j := by
    intro j hj
    simp [keyAt, Array.getElem?_push, hj]
  refine ⟨?_, ?_, fun key hl => (hk key (hlast ▸ hl)).1⟩
  · intro j key hj
    rw [hbefore j hj, hlast, ← hw.tied]
    refine ⟨fun hkey => ⟨hkey, ?_⟩, And.left⟩
    intro hs
    exact (hk key hs).2 (mem_keys.mpr ⟨j, hkey⟩)
  · intro key hp
    have := lt_size_of_keyAt ((hw.tied _ key).mpr hp)
    omega

theorem size_lt_size_push (slots : Array (Slot α)) (slot : Slot α) :
    slots.size < (slots.push slot).size := by
  rw [Array.size_push]
  exact Nat.lt_succ_self _

/-- `h'` is `h` with one slot more, whose key, if any, is issued and was held by none. -/
structure Stores (h : Heap α) (slot : Slot α) (events : List Event) (h' : Heap α) : Prop where
  key_free : ∀ key, slot.key = some key → h.registry.IsIssued key ∧ some key ∉ h.keys
  room : ∃ capacity, h.makeRoom = .ok ({ h with capacity := capacity }, events) ∧
    Adopts { h with capacity := capacity }
      (Sift.up h.priority (h.slots.push slot) h.slots.size (size_lt_size_push ..)) h'

namespace Stores

variable {h h' : Heap α} {slot : Slot α} {events : List Event}

theorem slots_eq (hs : h.Stores slot events h') :
    h'.slots =
      (Sift.up h.priority (h.slots.push slot) h.slots.size (size_lt_size_push ..)).slots := by
  obtain ⟨capacity, -, ha⟩ := hs.room
  exact ha.slots_eq

theorem priority_eq (hs : h.Stores slot events h') : h'.priority = h.priority := by
  obtain ⟨capacity, -, ha⟩ := hs.room
  exact ha.priority_eq

theorem id_eq (hs : h.Stores slot events h') : h'.id = h.id := by
  obtain ⟨capacity, -, ha⟩ := hs.room
  exact ha.id_eq

/-- There was room for the slot. -/
theorem not_atLimit (hs : h.Stores slot events h') : ¬ h.AtLimit := by
  obtain ⟨capacity, hroom, -⟩ := hs.room
  rcases h.makeRoom_cases with ⟨-, hl⟩ | ⟨hfull, -⟩
  · exact hl
  · rw [hroom] at hfull
    cases hfull

theorem unplaced_eq (hs : h.Stores slot events h') :
    h'.registry.unplaced = h.registry.unplaced := by
  obtain ⟨capacity, -, ha⟩ := hs.room
  exact ha.unplaced_eq

theorem wellFormed (hs : h.Stores slot events h') (hw : h.WellFormed) : h'.WellFormed := by
  obtain ⟨capacity, -, ha⟩ := hs.room
  exact ha.wellFormed hw.registry

/-- The slots afterwards are those before and the new one. -/
theorem perm_slots (hs : h.Stores slot events h') :
    h'.slots.toList.Perm (slot :: h.slots.toList) := by
  rw [hs.slots_eq]
  refine (Sift.perm_up ..).toList.trans ?_
  rw [Array.toList_push]
  exact List.perm_append_singleton _ _

theorem mem_keys (hs : h.Stores slot events h') (key : Nat) :
    some key ∈ h'.keys ↔ slot.key = some key ∨ some key ∈ h.keys := by
  unfold Heap.keys
  rw [(hs.perm_slots.map (·.key)).mem_iff, List.map_cons, List.mem_cons, eq_comm]

theorem owner_eq (hs : h.Stores slot events h') : h'.owner = h.owner :=
  Registry.owner_congr hs.unplaced_eq

end Stores

/-- **Adding** a slot whose key, if any, is issued and held by no slot: the heap makes
room and adopts a sift up, or there is no room and nothing is done. -/
theorem WellFormed.append {h : Heap α} (hw : h.WellFormed) (slot : Slot α)
    (hk : ∀ key, slot.key = some key → h.registry.IsIssued key ∧ some key ∉ h.keys) (m : Mint) :
    (∃ h' events, h.Stores slot events h' ∧ h.append m slot = .ok ⟨h', m, events, ()⟩) ∨
      h.AtLimit ∧ h.append m slot = .error .capacityOverflow := by
  rcases h.makeRoom_cases with ⟨⟨capacity, events, hroom⟩, -⟩ | ⟨hroom, hlimit⟩
  · left
    have ht : TiedOff (h.slots.push slot)
        ({ h with capacity := capacity } : Heap α).registry h.slots.size := tiedOff_push hw hk
    obtain ⟨h', hadopt, ha⟩ := adopt_of_tiedOff ht
      (Sift.rearranges_up h.priority (h.slots.push slot) h.slots.size (size_lt_size_push ..))
      (Sift.mem_path_up h.priority _ _ _)
      (by simpa using Sift.path_up_lt_size h.priority _ _ (size_lt_size_push h.slots slot))
    refine ⟨h', events, ⟨hk, capacity, hroom, ha⟩, ?_⟩
    simp only [Heap.append, hroom]
    simp only [bind, Except.bind, hadopt]
    rfl
  · right
    refine ⟨hlimit, ?_⟩
    simp only [Heap.append, hroom]
    rfl

/-! ### Replacing an element -/

/-- `h'` is `h` with another element in the slot at `i`. -/
def Replaces (h : Heap α) (i : Nat) (hi : i < h.slots.size) (value : α) (h' : Heap α) : Prop :=
  h.Adopts (Sift.settle h.priority (h.slots.set i ⟨value, h.slots[i].key⟩) i (by simpa using hi)) h'

namespace Replaces

variable {h h' : Heap α} {i : Nat} {hi : i < h.slots.size} {value : α}

/-- The keys afterwards are those before. -/
theorem perm_keys (hr : h.Replaces i hi value h') : h'.keys.Perm h.keys := by
  have hlt : i < (h.slots.toList.map (·.key)).length := by simpa using hi
  have hkey : h.slots[i].key = (h.slots.toList.map (·.key))[i] := by simp
  have hset : (h.slots.set i ⟨value, h.slots[i].key⟩).toList.map (·.key) = h.keys := by
    rw [Array.toList_set, List.map_set, hkey, List.set_getElem_self]
    rfl
  rw [← hset, Heap.keys, hr.slots_eq]
  exact (Sift.perm_settle ..).toList.map (·.key)

theorem mem_keys (hr : h.Replaces i hi value h') (key : Nat) :
    some key ∈ h'.keys ↔ some key ∈ h.keys := hr.perm_keys.mem_iff

/-- A handle that leads to the replaced element leads to the new one, wherever it comes to rest. -/
theorem position_eq (hr : h.Replaces i hi value h') (hw : h.WellFormed) {x : Handle}
    (hx : h.registry.position x = .ok i) {j : Nat}
    (hj : h'.slots[j]? = some ⟨value, h.slots[i].key⟩) : h'.registry.position x = .ok j := by
  obtain ⟨hissued, hkey⟩ := hw.position_eq_ok_iff.mp hx
  rw [keyAt_getElem hi] at hkey
  have hw' : h'.WellFormed := hr.wellFormed hw.registry
  rw [hw'.position_eq_ok_iff, Registry.issues_congr hr.unplaced_eq]
  exact ⟨hissued, by simp [keyAt, hj, hkey]⟩

end Replaces

/-- **Replacing** the element of a slot: the heap adopts a settling sift. -/
theorem WellFormed.replaceAt {h : Heap α} (hw : h.WellFormed) {i : Nat} (hi : i < h.slots.size)
    (m : Mint) (value : α) :
    ∃ h', h.Replaces i hi value h' ∧ h.replaceAt m i value = .ok ⟨h', m, [], h.slots[i].value⟩ := by
  have hkeys : ∀ j, keyAt (h.slots.set i ⟨value, h.slots[i].key⟩) j = keyAt h.slots j := by
    intro j
    unfold keyAt
    by_cases hji : i = j
    · subst hji
      simp [hi]
    · rw [Array.getElem?_set_ne hi hji]
  obtain ⟨h', hadopt, ha⟩ := adopt_of_tiedOff (TiedOff.of_tied hw.tied hkeys i)
    (Sift.rearranges_settle h.priority _ i (by simpa using hi)) (Sift.mem_path_settle ..)
    (fun j hj => by simpa using Sift.path_settle_lt_size h.priority _ i _ j hj)
  refine ⟨h', ha, ?_⟩
  simp only [Heap.replaceAt, hi, dite_true, hadopt]
  rfl

end Heap

end TrackedHeap
