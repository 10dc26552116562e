import TrackedHeap.Heap.Removal
import TrackedHeap.Proofs.Heap.WellFormed

/-!
# TrackedHeap.Proofs.Heap.Removal

**Removal** from a well-formed heap, of one element or of all.

Taking out a slot withdraws its key from the registry and closes the gap. `Removes`
lists the three ways this ends: the last slot fills the gap and is settled, the last
slot was the one taken out, or no slot is left and what is held is released. Clearing
ends in the third way. A release may renew the registry (`MayRenew`), which takes
nothing away from anyone: it happens only when no key is issued.
-/

namespace TrackedHeap

variable {α : Type}

namespace Registry

/-- What a registry becomes when elements are dropped: it is kept, or it is renewed
because the heap is empty and nothing is issued. -/
inductive MayRenew (r : Registry) (m : Mint) (emptied : Prop) : Registry → Mint → Prop
  /-- Positions apart, the registry stays as it is. -/
  | kept {s : Registry} (hu : s.unplaced = r.unplaced)
      (hn : ¬ (emptied ∧ r.tracked ≠ 0 ∧ r.issued = 0)) : MayRenew r m emptied s m
  /-- All keys are forgotten, and a fresh owner takes over. -/
  | renewed (he : emptied) (ht : r.tracked ≠ 0) (h0 : r.issued = 0) :
      MayRenew r m emptied { owner := m.next } m.draw.2

namespace MayRenew

variable {r s : Registry} {m m' : Mint} {emptied : Prop}

theorem sound (h : r.MayRenew m emptied s m') (hr : r.Sound) : s.Sound := by
  cases h with
  | kept hu hn => exact hr.congr hu
  | renewed he ht h0 => exact .new m.next

/-- Renewing takes no issued handle away, for there is none. -/
theorem issues_iff (h : r.MayRenew m emptied s m') (hr : r.Sound) (x : Handle) :
    s.Issues x ↔ r.Issues x := by
  cases h with
  | kept hu hn => exact issues_congr hu x
  | renewed he ht h0 =>
      refine ⟨?_, fun hx => absurd hx.isIssued (hr.not_isIssued h0 _)⟩
      intro hx
      obtain ⟨-, record, hrec, -⟩ := hx
      simp at hrec

end MayRenew

end Registry

namespace Heap

/-! ### Closing the gap -/

theorem getElem?_withoutSlot {slots : Array (Slot α)} {i : Nat} (hi : i < slots.size) (j : Nat) :
    (withoutSlot slots i hi)[j]? =
      if j < slots.size - 1 then if j = i then slots[slots.size - 1]? else slots[j]? else none := by
  unfold withoutSlot
  rw [Array.getElem?_pop, Array.size_swap]
  split
  · next hj =>
      rw [Array.getElem?_swap, if_neg (by omega)]
      by_cases hji : j = i
      · subst hji
        simp
      · simp [hji, Ne.symm hji]
  · rfl

theorem keyAt_withoutSlot {slots : Array (Slot α)} {i : Nat} (hi : i < slots.size) (j : Nat) :
    keyAt (withoutSlot slots i hi) j =
      if j < slots.size - 1 then
        if j = i then keyAt slots (slots.size - 1) else keyAt slots j
      else none := by
  unfold keyAt
  rw [getElem?_withoutSlot]
  split
  · split <;> rfl
  · rfl

/-- One slot is gone and all others are there. -/
theorem perm_withoutSlot {slots : Array (Slot α)} {i : Nat} (hi : i < slots.size) :
    (slots[i] :: (withoutSlot slots i hi).toList).Perm slots.toList := by
  have hlast : slots.size - 1 < slots.size := by omega
  have hswap : ((slots.swap i (slots.size - 1)).toList).Perm slots.toList :=
    (Array.swap_perm hi hlast).toList
  have hne : (slots.swap i (slots.size - 1)).toList ≠ [] := by
    apply List.ne_nil_of_length_pos
    simpa using Nat.zero_lt_of_lt hi
  have hend : (slots.swap i (slots.size - 1)).toList.getLast hne = slots[i] := by
    rw [List.getLast_eq_getElem]
    simp
  have hsplit := List.dropLast_append_getLast hne
  rw [hend] at hsplit
  unfold withoutSlot
  rw [Array.toList_pop]
  refine List.Perm.trans ?_ hswap
  conv_rhs => rw [← hsplit]
  exact (List.perm_append_singleton _ _).symm

/-- Withdrawing the key of a slot takes away its position and no other. -/
theorem positionOf_of_withdraws {slots : Array (Slot α)} {r s : Registry} {i : Nat}
    (hi : i < slots.size) (hw : r.Withdraws [slots[i].key] s) (key : Nat) :
    s.positionOf key = if keyAt slots i = some key then none else r.positionOf key := by
  rw [hw.positionOf_eq, keyAt_getElem hi]
  simp only [List.mem_singleton, eq_comm]

/-- Taking out the slot at `i` and its key breaks the tie at `i` alone. -/
theorem tiedOff_withoutSlot {slots : Array (Slot α)} {r s : Registry} (ht : Tied slots r) {i : Nat}
    (hi : i < slots.size) (hw : r.Withdraws [slots[i].key] s) (hlast : i < slots.size - 1) :
    TiedOff (withoutSlot slots i hi) s i := by
  have hpos := positionOf_of_withdraws hi hw
  have hfill : keyAt (withoutSlot slots i hi) i = keyAt slots (slots.size - 1) := by
    simp [keyAt_withoutSlot, hlast]
  refine ⟨?_, ?_, ?_⟩
  · intro j key hji
    rw [hfill, keyAt_withoutSlot, if_neg hji, hpos]
    constructor
    · intro h
      split at h
      · next hj =>
          refine ⟨?_, fun hk => absurd (ht.injective h hk) (by omega)⟩
          rw [if_neg fun hk => hji (ht.injective h hk)]
          exact (ht j key).mp h
      · cases h
    · intro hpos
      obtain ⟨h, hk⟩ := hpos
      split at h
      · cases h
      · have hj := (ht j key).mpr h
        have hlt := lt_size_of_keyAt hj
        have hne : j ≠ slots.size - 1 := fun hjl => hk (hjl ▸ hj)
        rw [if_pos (by omega)]
        exact hj
  · intro key hp
    rw [hpos] at hp
    split at hp
    · cases hp
    · next hne => exact absurd ((ht i key).mpr hp) hne
  · intro key hk
    rw [hfill] at hk
    refine (hw.isIssued_iff key).mpr ⟨ht.isIssued hk, ?_⟩
    intro hmem
    have hki : keyAt slots i = some key :=
      (keyAt_getElem hi).trans (List.mem_singleton.mp hmem).symm
    have := ht.injective hk hki
    omega

/-- Taking out the last slot and its key leaves the rest tied. -/
theorem tied_withoutSlot_last {slots : Array (Slot α)} {r s : Registry} (ht : Tied slots r)
    {i : Nat} (hi : i < slots.size) (hw : r.Withdraws [slots[i].key] s)
    (hlast : ¬ i < slots.size - 1) : Tied (withoutSlot slots i hi) s := by
  intro j key
  rw [positionOf_of_withdraws hi hw, keyAt_withoutSlot]
  by_cases hk : keyAt slots i = some key
  · rw [if_pos hk]
    split
    · next hj =>
        rw [if_neg (by omega)]
        refine ⟨?_, nofun⟩
        intro h
        have := ht.injective h hk
        omega
    · simp
  · rw [if_neg hk, ← ht]
    split
    · next hj => rw [if_neg (by omega)]
    · next hj =>
        refine ⟨nofun, ?_⟩
        intro h
        have hlt := lt_size_of_keyAt h
        have hji : j = i := by omega
        exact absurd (hji ▸ h) hk

/-- The slots once the one at `i` is taken out: the last slot fills the gap and is
settled, unless it is the one taken out. -/
def slotsWithout (p : Priority α) (slots : Array (Slot α)) (i : Nat) (hi : i < slots.size) :
    Array (Slot α) :=
  if hs : i < (withoutSlot slots i hi).size then
    (Sift.settle p (withoutSlot slots i hi) i hs).slots
  else withoutSlot slots i hi

theorem perm_slotsWithout (p : Priority α) {slots : Array (Slot α)} {i : Nat}
    (hi : i < slots.size) : (slots[i] :: (slotsWithout p slots i hi).toList).Perm slots.toList := by
  unfold slotsWithout
  split
  · next hs =>
      exact ((Sift.perm_settle p _ i hs).toList.cons slots[i]).trans (perm_withoutSlot hi)
  · exact perm_withoutSlot hi

/-! ### Releasing -/

/-- Releasing an empty heap touches its capacity and its registry, and renews the
registry if it is idle. -/
theorem releaseEmpty_eq (h : Heap α) (m : Mint) :
    (h.releaseEmpty m).heap =
      { h with
        capacity := (h.releaseEmpty m).heap.capacity
        registry := (h.releaseEmpty m).heap.registry } ∧
    h.registry.MayRenew m True (h.releaseEmpty m).heap.registry (h.releaseEmpty m).mint := by
  simp only [releaseEmpty, releaseStorage, releaseRegistry]
  split <;> dsimp only <;> split
  · next hr => exact ⟨rfl, .renewed trivial hr.1 hr.2⟩
  · next hr => exact ⟨rfl, .kept rfl fun hn => hr hn.2⟩
  · next hr => exact ⟨rfl, .renewed trivial hr.1 hr.2⟩
  · next hr => exact ⟨rfl, .kept rfl fun hn => hr hn.2⟩

@[simp] theorem slots_releaseEmpty (h : Heap α) (m : Mint) :
    (h.releaseEmpty m).heap.slots = h.slots := by
  rw [(h.releaseEmpty_eq m).1]

@[simp] theorem id_releaseEmpty (h : Heap α) (m : Mint) : (h.releaseEmpty m).heap.id = h.id := by
  rw [(h.releaseEmpty_eq m).1]

@[simp] theorem priority_releaseEmpty (h : Heap α) (m : Mint) :
    (h.releaseEmpty m).heap.priority = h.priority := by
  rw [(h.releaseEmpty_eq m).1]

@[simp] theorem version_releaseEmpty (h : Heap α) (m : Mint) :
    (h.releaseEmpty m).heap.version = h.version := by
  rw [(h.releaseEmpty_eq m).1]

@[simp] theorem policy_releaseEmpty (h : Heap α) (m : Mint) :
    (h.releaseEmpty m).heap.policy = h.policy := by
  rw [(h.releaseEmpty_eq m).1]

@[simp] theorem slotSize_releaseEmpty (h : Heap α) (m : Mint) :
    (h.releaseEmpty m).heap.slotSize = h.slotSize := by
  rw [(h.releaseEmpty_eq m).1]

/-- Storage is released down to the floor or not at all. -/
theorem capacity_releaseEmpty (h : Heap α) (m : Mint) : (h.releaseEmpty m).heap.capacity =
    if h.policy.shouldRelease h.capacity then h.policy.floor else h.capacity := by
  simp only [releaseEmpty, releaseStorage, releaseRegistry]
  split <;> dsimp only <;> split <;> rfl

/-- An empty heap stays well formed, for no slot is tied to what is forgotten. -/
theorem wellFormed_releaseEmpty {h : Heap α} (m : Mint) (hw : h.WellFormed)
    (he : h.slots = #[]) : (h.releaseEmpty m).heap.WellFormed := by
  have hslots : (h.releaseEmpty m).heap.slots = #[] := (slots_releaseEmpty h m).trans he
  refine ⟨(h.releaseEmpty_eq m).2.sound hw.registry, ?_⟩
  simp only [releaseEmpty, releaseStorage, releaseRegistry] at hslots ⊢
  split <;> dsimp only <;> split
  · exact tied_new he m.next
  · exact hw.tied
  · exact tied_new he m.next
  · exact hw.tied

/-! ### Taking out one element -/

/-- The heap `h` with its slots, its registry and one more change counted. -/
def touched (h : Heap α) (slots : Array (Slot α)) (r : Registry) : Heap α :=
  { h with slots := slots, registry := r, version := h.version + 1 }

/-- How taking out the slot at `i` ends, once its key is withdrawn and `r` is left. -/
inductive Removes (h : Heap α) (m : Mint) (i : Nat) (hi : i < h.slots.size) (r : Registry) :
    Change α α → Prop
  /-- The last slot fills the gap and is settled. -/
  | refilled {settled : Heap α} (hs : i < (withoutSlot h.slots i hi).size)
      (ha : Adopts { h with slots := withoutSlot h.slots i hi, registry := r }
        (Sift.settle h.priority (withoutSlot h.slots i hi) i hs) settled) :
      Removes h m i hi r ⟨settled, m, [], h.slots[i].value⟩
  /-- The last slot was the one taken out, and others are left. -/
  | last (hs : ¬ i < (withoutSlot h.slots i hi).size) (hne : withoutSlot h.slots i hi ≠ #[]) :
      Removes h m i hi r
        ⟨h.touched (withoutSlot h.slots i hi) r, m, [], h.slots[i].value⟩
  /-- No slot is left, and what is held is released. -/
  | emptied (hs : ¬ i < (withoutSlot h.slots i hi).size) (he : withoutSlot h.slots i hi = #[]) :
      Removes h m i hi r
        (((h.touched (withoutSlot h.slots i hi) r).releaseEmpty m).answering h.slots[i].value)

/-- `c` is what taking out the slot at `i` leaves behind. -/
def TakesOut (h : Heap α) (m : Mint) (i : Nat) (hi : i < h.slots.size) (c : Change α α) : Prop :=
  ∃ r, r.Sound ∧ h.registry.Withdraws [h.slots[i].key] r ∧ h.Removes m i hi r c

/-- Once the key of a slot is taken back, taking the slot out goes through. -/
theorem WellFormed.removeAt_of_retire {h : Heap α} (hw : h.WellFormed) {i : Nat}
    (hi : i < h.slots.size) (m : Mint) {r : Registry}
    (hret : h.registry.retire? h.slots[i].key = .ok r)
    (hwith : h.registry.Withdraws [h.slots[i].key] r) :
    ∃ c, h.removeAt m i = .ok c ∧ h.Removes m i hi r c := by
  have hsize : (withoutSlot h.slots i hi).size = h.slots.size - 1 := size_withoutSlot ..
  by_cases hs : i < (withoutSlot h.slots i hi).size
  · have ht : TiedOff (withoutSlot h.slots i hi)
        ({ h with slots := withoutSlot h.slots i hi, registry := r } : Heap α).registry i :=
      tiedOff_withoutSlot hw.tied hi hwith (hsize ▸ hs)
    obtain ⟨settled, hadopt, ha⟩ := adopt_of_tiedOff ht
      (Sift.rearranges_settle h.priority _ i hs) (Sift.mem_path_settle ..)
      (fun j hj => by
        rw [Sift.size_settle]
        exact Sift.path_settle_lt_size h.priority _ i hs j hj)
    refine ⟨_, ?_, .refilled hs ha⟩
    simp only [Heap.removeAt, hi, dite_true, hret, bind, Except.bind, hs, hadopt]
    rfl
  · by_cases he : withoutSlot h.slots i hi = #[]
    · refine ⟨_, ?_, .emptied hs he⟩
      simp only [Heap.removeAt, hi, dite_true, hret, bind, Except.bind, hs, dite_false]
      rw [if_pos (by simp [he])]
      rfl
    · refine ⟨_, ?_, .last hs he⟩
      simp only [Heap.removeAt, hi, dite_true, hret, bind, Except.bind, hs, dite_false]
      rw [if_neg (by simpa using he)]
      rfl

/-- **Taking out** the slot at a position withdraws its key and closes the gap. -/
theorem WellFormed.removeAt {h : Heap α} (hw : h.WellFormed) {i : Nat} (hi : i < h.slots.size)
    (m : Mint) : ∃ c, h.removeAt m i = .ok c ∧ h.TakesOut m i hi c := by
  obtain ⟨r, hret, hrs, hwith⟩ := hw.registry.retire? h.slots[i].key fun k hk =>
    hw.tied.isIssued ((keyAt_getElem hi).trans hk)
  obtain ⟨c, hrem, hc⟩ := hw.removeAt_of_retire hi m hret hwith
  exact ⟨c, hrem, r, hrs, hwith, hc⟩

namespace Removes

variable {h : Heap α} {m : Mint} {i : Nat} {hi : i < h.slots.size} {r : Registry} {c : Change α α}

theorem answer_eq (hc : h.Removes m i hi r c) : c.answer = h.slots[i].value := by
  cases hc <;> rfl

theorem priority_eq (hc : h.Removes m i hi r c) : c.heap.priority = h.priority := by
  cases hc with
  | refilled hs ha => exact ha.priority_eq
  | last hs hne => rfl
  | emptied hs he => exact priority_releaseEmpty _ m

theorem id_eq (hc : h.Removes m i hi r c) : c.heap.id = h.id := by
  cases hc with
  | refilled hs ha => exact ha.id_eq
  | last hs hne => rfl
  | emptied hs he => exact id_releaseEmpty _ m

theorem slots_eq (hc : h.Removes m i hi r c) :
    c.heap.slots = slotsWithout h.priority h.slots i hi := by
  unfold slotsWithout
  cases hc with
  | refilled hs ha => rw [dif_pos hs, ha.slots_eq]
  | last hs hne => rw [dif_neg hs]; rfl
  | emptied hs he => rw [dif_neg hs]; exact slots_releaseEmpty _ m

theorem mayRenew (hc : h.Removes m i hi r c) :
    r.MayRenew m (c.heap.slots = #[]) c.heap.registry c.mint := by
  cases hc with
  | refilled hs ha =>
      refine .kept ha.unplaced_eq ?_
      intro hn
      have hempty := hn.1
      rw [ha.slots_eq] at hempty
      have hsize := Sift.size_settle h.priority _ i hs
      rw [hempty] at hsize
      simp only [List.size_toArray, List.length_nil] at hsize
      omega
  | last hs hne => exact .kept rfl fun hn => hne hn.1
  | emptied hs he =>
      have hren := ((h.touched (withoutSlot h.slots i hi) r).releaseEmpty_eq m).2
      have hslots : (((h.touched (withoutSlot h.slots i hi) r).releaseEmpty m).answering
          h.slots[i].value).heap.slots = #[] := by
        rw [← he]
        exact slots_releaseEmpty _ m
      simp only [hslots]
      exact hren

theorem wellFormed (hc : h.Removes m i hi r c) (hw : h.WellFormed) (hr : r.Sound)
    (hwith : h.registry.Withdraws [h.slots[i].key] r) : c.heap.WellFormed := by
  have hsize : (withoutSlot h.slots i hi).size = h.slots.size - 1 := size_withoutSlot ..
  cases hc with
  | refilled hs ha => exact ha.wellFormed hr
  | last hs hne => exact ⟨hr, tied_withoutSlot_last hw.tied hi hwith (hsize ▸ hs)⟩
  | emptied hs he =>
      exact wellFormed_releaseEmpty m ⟨hr, tied_withoutSlot_last hw.tied hi hwith (hsize ▸ hs)⟩ he

end Removes

namespace TakesOut

variable {h : Heap α} {m : Mint} {i : Nat} {hi : i < h.slots.size} {c : Change α α}

theorem answer_eq (ht : h.TakesOut m i hi c) : c.answer = h.slots[i].value := by
  obtain ⟨r, -, -, hc⟩ := ht
  exact hc.answer_eq

theorem priority_eq (ht : h.TakesOut m i hi c) : c.heap.priority = h.priority := by
  obtain ⟨r, -, -, hc⟩ := ht
  exact hc.priority_eq

theorem id_eq (ht : h.TakesOut m i hi c) : c.heap.id = h.id := by
  obtain ⟨r, -, -, hc⟩ := ht
  exact hc.id_eq

theorem slots_eq (ht : h.TakesOut m i hi c) :
    c.heap.slots = slotsWithout h.priority h.slots i hi := by
  obtain ⟨r, -, -, hc⟩ := ht
  exact hc.slots_eq

/-- One slot is gone and all others are there. -/
theorem perm_slots (ht : h.TakesOut m i hi c) :
    (h.slots[i] :: c.heap.slots.toList).Perm h.slots.toList := by
  rw [ht.slots_eq]
  exact perm_slotsWithout h.priority hi

theorem perm_keys (ht : h.TakesOut m i hi c) : (h.slots[i].key :: c.heap.keys).Perm h.keys := by
  simpa [keys] using ht.perm_slots.map (·.key)

/-- The key of the slot is withdrawn, and the registry is renewed if the heap is empty and
the registry idle then. -/
theorem withdraws (ht : h.TakesOut m i hi c) :
    ∃ r, r.Sound ∧ h.registry.Withdraws [h.slots[i].key] r ∧
      r.MayRenew m (c.heap.slots = #[]) c.heap.registry c.mint := by
  obtain ⟨r, hr, hwith, hc⟩ := ht
  exact ⟨r, hr, hwith, hc.mayRenew⟩

theorem wellFormed (ht : h.TakesOut m i hi c) (hw : h.WellFormed) : c.heap.WellFormed := by
  obtain ⟨r, hr, hwith, hc⟩ := ht
  exact hc.wellFormed hw hr hwith

end TakesOut

/-! ### Dropping all elements -/

/-- `c` is what dropping all elements leaves behind. -/
def Clears (h : Heap α) (m : Mint) (c : Change α Unit) : Prop :=
  ∃ r released, r.Sound ∧ h.registry.Withdraws h.keys r ∧
    released = ({ h with slots := #[], registry := r } : Heap α).releaseEmpty m ∧
    c = { released with heap := { released.heap with version := h.version + 1 } }

/-- **Clearing** withdraws the keys of all elements and releases what is held. -/
theorem WellFormed.clear {h : Heap α} (hw : h.WellFormed) (m : Mint) :
    ∃ c, h.Clears m c ∧ h.clear m = ⟨c.heap, c.mint, c.events, .ok ()⟩ := by
  obtain ⟨r, hret, hrs, hwith⟩ := hw.registry.retireAll hw.keys_nodup
    fun k hk => hw.isIssued_of_mem_keys hk
  refine ⟨_, ⟨r, _, hrs, hwith, rfl, rfl⟩, ?_⟩
  simp only [Heap.clear, hret]
  rfl

namespace Clears

variable {h : Heap α} {m : Mint} {c : Change α Unit}

theorem slots_eq (hc : h.Clears m c) : c.heap.slots = #[] := by
  obtain ⟨r, released, -, -, rfl, rfl⟩ := hc
  exact slots_releaseEmpty _ m

theorem priority_eq (hc : h.Clears m c) : c.heap.priority = h.priority := by
  obtain ⟨r, released, -, -, rfl, rfl⟩ := hc
  exact priority_releaseEmpty _ m

theorem id_eq (hc : h.Clears m c) : c.heap.id = h.id := by
  obtain ⟨r, released, -, -, rfl, rfl⟩ := hc
  exact id_releaseEmpty _ m

theorem wellFormed (hc : h.Clears m c) (hw : h.WellFormed) : c.heap.WellFormed := by
  obtain ⟨r, released, hr, hwith, rfl, rfl⟩ := hc
  have htied : Tied (#[] : Array (Slot α)) r := by
    intro i key
    rw [hwith.positionOf_eq]
    split
    · simp [keyAt]
    · next hk =>
        have hpos : h.registry.positionOf key ≠ some i := fun hp =>
          hk (mem_keys.mpr ⟨i, (hw.tied i key).mpr hp⟩)
        simp [keyAt, hpos]
  have hrel :
      Heap.WellFormed (({ h with slots := #[], registry := r } : Heap α).releaseEmpty m).heap :=
    wellFormed_releaseEmpty m ⟨hr, htied⟩ rfl
  exact ⟨hrel.registry, hrel.tied⟩

/-- The keys of all elements are withdrawn, and the registry is renewed if it is idle then. -/
theorem withdraws (hc : h.Clears m c) :
    ∃ r, r.Sound ∧ h.registry.Withdraws h.keys r ∧
      r.MayRenew m (c.heap.slots = #[]) c.heap.registry c.mint := by
  rw [eq_true hc.slots_eq]
  obtain ⟨r, released, hr, hwith, rfl, rfl⟩ := hc
  exact ⟨r, hr, hwith, (releaseEmpty_eq ({ h with slots := #[], registry := r } : Heap α) m).2⟩

end Clears

/-! ### Dropping, and renewing afterwards -/

/-- `h'` is `h` without some of its slots; their keys are withdrawn, and neither the order
of the others nor the storage is told. -/
structure Drops (h : Heap α) (dropped : List (Slot α)) (h' : Heap α) : Prop where
  perm : (dropped ++ h'.slots.toList).Perm h.slots.toList
  registry : ∃ r, r.Sound ∧ h.registry.Withdraws (dropped.map (·.key)) r ∧
    h'.registry.unplaced = r.unplaced
  tied : Tied h'.slots h'.registry
  priority_eq : h'.priority = h.priority
  id_eq : h'.id = h.id

/-- A heap is kept as it is, or it is empty and idle and renews its registry. -/
inductive MayRenew (h : Heap α) (m : Mint) : Heap α → Mint → Prop
  | kept : MayRenew h m h m
  | renewed (he : h.slots = #[]) (ht : h.registry.tracked ≠ 0) (h0 : h.registry.issued = 0) :
      MayRenew h m { h with registry := { owner := m.next } } m.draw.2

/-- A heap whose registry may have been renewed is told apart into the heap before and the
renewal. -/
theorem exists_mayRenew {h' : Heap α} {r : Registry} {m m' : Mint} (hr : r.Sound)
    (hren : r.MayRenew m (h'.slots = #[]) h'.registry m') (ht : Tied h'.slots h'.registry) :
    ∃ s, s.unplaced = r.unplaced ∧ Tied h'.slots s ∧
      MayRenew { h' with registry := s } m h' m' := by
  rcases h' with ⟨id, p, policy, size, slots, capacity, s, version, hfloor⟩
  cases hren with
  | kept hu hn => exact ⟨s, hu, ht, .kept⟩
  | renewed he htr h0 =>
      refine ⟨r, rfl, ?_, .renewed he htr h0⟩
      intro i key
      have hpos : r.positionOf key ≠ some i := fun hp =>
        hr.not_isIssued h0 key (Registry.isIssued_of_positionOf hp)
      simp only [show slots = #[] from he, hpos, iff_false]
      simp [keyAt]

theorem TakesOut.drops {h : Heap α} {m : Mint} {i : Nat} {hi : i < h.slots.size}
    {c : Change α α} (ht : h.TakesOut m i hi c) (hw : h.WellFormed) :
    ∃ h', h.Drops [h.slots[i]] h' ∧ h'.slots = slotsWithout h.priority h.slots i hi ∧
      h'.MayRenew m c.heap c.mint := by
  obtain ⟨r, hr, hwith, hren⟩ := ht.withdraws
  obtain ⟨s, hu, htied, hren'⟩ := exists_mayRenew hr hren (ht.wellFormed hw).tied
  exact ⟨{ c.heap with registry := s },
    ⟨ht.perm_slots, ⟨r, hr, hwith, hu⟩, htied, ht.priority_eq, ht.id_eq⟩, ht.slots_eq, hren'⟩

theorem Clears.drops {h : Heap α} {m : Mint} {c : Change α Unit} (hc : h.Clears m c)
    (hw : h.WellFormed) : ∃ h', h.Drops h.slots.toList h' ∧ h'.MayRenew m c.heap c.mint := by
  obtain ⟨r, hr, hwith, hren⟩ := hc.withdraws
  obtain ⟨s, hu, htied, hren'⟩ := exists_mayRenew hr hren (hc.wellFormed hw).tied
  refine ⟨{ c.heap with registry := s },
    ⟨?_, ⟨r, hr, hwith, hu⟩, htied, hc.priority_eq, hc.id_eq⟩, hren'⟩
  simp [hc.slots_eq]

namespace Drops

variable {h h' : Heap α} {dropped : List (Slot α)}

theorem wellFormed (hd : h.Drops dropped h') : h'.WellFormed := by
  obtain ⟨r, hr, -, hu⟩ := hd.registry
  exact ⟨hr.congr hu, hd.tied⟩

theorem owner_eq (hd : h.Drops dropped h') : h'.owner = h.owner := by
  obtain ⟨r, -, hwith, hu⟩ := hd.registry
  exact (Registry.owner_congr hu).trans hwith.owner_eq

/-- A handle stays issued unless it named a dropped element. -/
theorem issues_iff (hd : h.Drops dropped h') (x : Handle) :
    h'.registry.Issues x ↔ h.registry.Issues x ∧ some x.key ∉ dropped.map (·.key) := by
  obtain ⟨r, -, hwith, hu⟩ := hd.registry
  rw [Registry.issues_congr hu, hwith.issues_iff]

/-- A key that was not dropped stands for the same handle as before. -/
theorem handleOf?_eq (hd : h.Drops dropped h') {key : Nat}
    (hk : some key ∉ dropped.map (·.key)) :
    h'.registry.handleOf? key = h.registry.handleOf? key := by
  obtain ⟨r, -, hwith, hu⟩ := hd.registry
  rw [Registry.handleOf?_congr hu, hwith.handleOf?_eq hk]

theorem isSome_records (hd : h.Drops dropped h') (key : Nat) :
    h'.registry.records[key]?.isSome = h.registry.records[key]?.isSome := by
  obtain ⟨r, -, hwith, hu⟩ := hd.registry
  rw [Registry.isSome_records_congr hu, hwith.isSome_records]

theorem mem_keys (hd : h.Drops dropped h') (key : Nat) :
    some key ∈ h.keys ↔ some key ∈ dropped.map (·.key) ∨ some key ∈ h'.keys := by
  unfold Heap.keys
  rw [← (hd.perm.map (·.key)).mem_iff, List.map_append, List.mem_append]

/-- If all slots are dropped, none is left. -/
theorem slots_eq_empty (hd : h.Drops h.slots.toList h') : h'.slots = #[] := by
  have hlen := hd.perm.length_eq
  simp only [List.length_append, Array.length_toList] at hlen
  exact Array.size_eq_zero_iff.mp (by omega)

end Drops

namespace MayRenew

variable {h h' : Heap α} {m m' : Mint}

theorem slots_eq (hr : h.MayRenew m h' m') : h'.slots = h.slots := by
  cases hr <;> rfl

theorem priority_eq (hr : h.MayRenew m h' m') : h'.priority = h.priority := by
  cases hr <;> rfl

theorem id_eq (hr : h.MayRenew m h' m') : h'.id = h.id := by
  cases hr <;> rfl

/-- The owner is the one before, or the next token. -/
theorem owner_cases (hr : h.MayRenew m h' m') :
    h'.owner = h.owner ∨ h'.owner = m.next ∧ m' = m.draw.2 := by
  cases hr with
  | kept => exact Or.inl rfl
  | renewed => exact Or.inr ⟨rfl, rfl⟩

theorem wellFormed (hr : h.MayRenew m h' m') (hw : h.WellFormed) : h'.WellFormed := by
  cases hr with
  | kept => exact hw
  | renewed he ht h0 => exact ⟨.new m.next, tied_new he m.next⟩

/-- Renewing takes no issued handle away, for there is none. -/
theorem issues_iff (hr : h.MayRenew m h' m') (hs : h.registry.Sound) (x : Handle) :
    h'.registry.Issues x ↔ h.registry.Issues x := by
  cases hr with
  | kept => exact Iff.rfl
  | renewed he ht h0 => exact Registry.MayRenew.issues_iff (.renewed trivial ht h0) hs x

end MayRenew

end Heap

end TrackedHeap
