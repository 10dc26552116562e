import TrackedHeap.Heap.Basic
import TrackedHeap.Proofs.Registry.Sound
import TrackedHeap.Proofs.Sift.Rearrangement

/-!
# TrackedHeap.Proofs.Heap.Tied

**The tie** between the slots of a heap and its registry: a slot holds a key exactly
where the record of that key says.

An operation breaks the tie at one position, by storing a slot there, and then sifts
that slot. `TiedOff` is the tie with one position excepted. The positions a sift
reports begin with the excepted one, no slot enters or leaves them, and the registry
is told about each of them: so it is tied again afterwards, whatever the ranking.
-/

namespace TrackedHeap

variable {α : Type}

/-- The key of the slot at a position. -/
def keyAt (slots : Array (Slot α)) (i : Nat) : Option Nat := slots[i]?.bind (·.key)

/-- A slot holds a key exactly where the record of the key says. -/
def Tied (slots : Array (Slot α)) (r : Registry) : Prop :=
  ∀ i key, keyAt slots i = some key ↔ r.positionOf key = some i

/-- Tied but for the slot at `i`, whose record may tell anything. -/
structure TiedOff (slots : Array (Slot α)) (r : Registry) (i : Nat) : Prop where
  /-- Away from `i`, a slot holds a key exactly where its record says. -/
  away : ∀ j key, j ≠ i →
    (keyAt slots j = some key ↔ r.positionOf key = some j ∧ keyAt slots i ≠ some key)
  /-- No other record tells the position `i`. -/
  here : ∀ key, r.positionOf key = some i → keyAt slots i = some key
  /-- The key at `i` is issued. -/
  issued : ∀ key, keyAt slots i = some key → r.IsIssued key

theorem keyAt_eq_some_iff {slots : Array (Slot α)} {i key : Nat} :
    keyAt slots i = some key ↔ ∃ value, slots[i]? = some ⟨value, some key⟩ := by
  unfold keyAt
  rw [Option.bind_eq_some_iff]
  constructor
  · intro hkey
    obtain ⟨⟨value, k⟩, hs, hk⟩ := hkey
    cases hk
    exact ⟨value, hs⟩
  · intro hslot
    obtain ⟨value, hs⟩ := hslot
    exact ⟨_, hs, rfl⟩

theorem keyAt_of_size_le {slots : Array (Slot α)} {i : Nat} (h : slots.size ≤ i) :
    keyAt slots i = none := by
  simp [keyAt, h]

theorem keyAt_getElem {slots : Array (Slot α)} {i : Nat} (h : i < slots.size) :
    keyAt slots i = slots[i].key := by
  simp [keyAt, h]

theorem lt_size_of_keyAt {slots : Array (Slot α)} {i key : Nat} (h : keyAt slots i = some key) :
    i < slots.size := by
  by_contra hge
  rw [keyAt_of_size_le (Nat.le_of_not_lt hge)] at h
  cases h

/-- A key is held somewhere if and only if it is in the list of keys. -/
theorem mem_keys_iff {slots : Array (Slot α)} {key : Nat} :
    some key ∈ slots.toList.map (·.key) ↔ ∃ i, keyAt slots i = some key := by
  simp only [List.mem_map, Array.mem_toList_iff, Array.mem_iff_getElem?]
  constructor
  · intro hmem
    obtain ⟨slot, ⟨i, hs⟩, hk⟩ := hmem
    exact ⟨i, by simp [keyAt, hs, hk]⟩
  · intro hkey
    obtain ⟨i, hi⟩ := hkey
    obtain ⟨slot, hs, hk⟩ := Option.bind_eq_some_iff.mp hi
    exact ⟨slot, ⟨i, hs⟩, hk⟩

/-- The tie is decided by the slots and the records that there are. -/
theorem tied_iff {slots : Array (Slot α)} {r : Registry} : Tied slots r ↔
    (∀ i < slots.size, ∀ key ∈ keyAt slots i, r.positionOf key = some i) ∧
      ∀ key < r.tracked, ∀ i ∈ r.positionOf key, keyAt slots i = some key := by
  constructor
  · exact fun ht => ⟨fun i _ key => (ht i key).mp, fun key _ i => (ht i key).mpr⟩
  · intro h i key
    refine ⟨fun hk => h.1 i (lt_size_of_keyAt hk) key hk, fun hp => ?_⟩
    obtain ⟨record, hr, -⟩ := Registry.isIssued_of_positionOf hp
    exact h.2 key (Array.getElem?_eq_some_iff.mp hr).1 i hp

instance (slots : Array (Slot α)) (r : Registry) : Decidable (Tied slots r) :=
  decidable_of_iff _ tied_iff.symm

/-! ### The registry follows a path -/

namespace Registry

/-- **Binding** an issued key moves its record and nothing else. -/
theorem bind_of_isIssued {r : Registry} {key : Nat} (hk : r.IsIssued key) (i : Nat) :
    ∃ s, r.bind key i = .ok s ∧ s.unplaced = r.unplaced ∧ s.positionOf key = some i ∧
      ∀ k, k ≠ key → s.positionOf k = r.positionOf k := by
  obtain ⟨record, hr, hv⟩ := hk
  obtain ⟨hlt, rfl⟩ := Array.getElem?_eq_some_iff.mp hr
  refine ⟨_, by rw [bind, dif_pos hlt], ?_, ?_, ?_⟩
  · have hun : ({ r.records[key] with status := .bound i } : Record).unplaced =
        r.records[key].unplaced := by
      simp [Record.unplaced, hv]
    have hmap : (r.records.set key { r.records[key] with status := .bound i }).map
        Record.unplaced = r.records.map Record.unplaced := by
      rw [Array.map_set, hun, ← Array.map_set (h := hlt), Array.set_getElem_self]
    simp only [unplaced, hmap]
  · simp [positionOf, Status.position?]
  · intro k hne
    simp [positionOf, Array.getElem?_set_ne hlt (Ne.symm hne)]

/-- Noting the place of a slot binds its key, if it has one. -/
theorem place_of_isIssued {r : Registry} {slots : Array (Slot α)} {i : Nat} (hi : i < slots.size)
    (hk : ∀ key, keyAt slots i = some key → r.IsIssued key) :
    ∃ s, r.place slots i = .ok s ∧ s.unplaced = r.unplaced ∧
      (∀ key, keyAt slots i = some key → s.positionOf key = some i) ∧
      ∀ key, keyAt slots i ≠ some key → s.positionOf key = r.positionOf key := by
  have hkey := keyAt_getElem hi
  unfold place
  rw [Array.getElem?_eq_getElem hi]
  rcases hs : slots[i] with ⟨value, _ | key⟩
  · rw [hs] at hkey
    exact ⟨r, rfl, rfl, fun k h => by simp [hkey] at h, fun _ _ => rfl⟩
  · rw [hs] at hkey
    obtain ⟨s, hb, hun, hpos, hother⟩ := bind_of_isIssued (hk key hkey) i
    refine ⟨s, hb, hun, ?_, fun k h => hother k fun hkk => h (hkk ▸ hkey)⟩
    intro k h
    rw [hkey] at h
    cases h
    exact hpos

/-- Following a path binds the keys of the slots on it and no others. -/
theorem follow_of_isIssued {r : Registry} {slots : Array (Slot α)} {path : List Nat}
    (hlt : ∀ i ∈ path, i < slots.size)
    (hinj : ∀ i j key, keyAt slots i = some key → keyAt slots j = some key → i = j)
    (hk : ∀ i ∈ path, ∀ key, keyAt slots i = some key → r.IsIssued key) :
    ∃ s, r.follow slots path = .ok s ∧ s.unplaced = r.unplaced ∧
      (∀ i ∈ path, ∀ key, keyAt slots i = some key → s.positionOf key = some i) ∧
      ∀ key, (∀ i ∈ path, keyAt slots i ≠ some key) → s.positionOf key = r.positionOf key := by
  induction path generalizing r with
  | nil => exact ⟨r, rfl, rfl, by simp, fun _ _ => rfl⟩
  | cons i path ih =>
      obtain ⟨s, hs, hsu, hsi, hso⟩ := place_of_isIssued (hlt i (List.mem_cons_self ..))
        (hk i (List.mem_cons_self ..))
      obtain ⟨t, ht, htu, hti, hto⟩ := ih (r := s)
        (fun j hj => hlt j (List.mem_cons_of_mem _ hj))
        (fun j hj key h => (isIssued_congr hsu key).mpr (hk j (List.mem_cons_of_mem _ hj) key h))
      refine ⟨t, ?_, htu.trans hsu, ?_, ?_⟩
      · simp only [follow, hs]
        exact ht
      · intro j hj key h
        by_cases hmem : ∃ l ∈ path, keyAt slots l = some key
        · obtain ⟨l, hl, hlk⟩ := hmem
          rw [hinj j l key h hlk]
          exact hti l hl key hlk
        · have hji : j = i := (List.mem_cons.mp hj).resolve_right fun hj' => hmem ⟨j, hj', h⟩
          subst hji
          rw [hto key fun l hl hlk => hmem ⟨l, hl, hlk⟩]
          exact hsi key h
      · intro key h
        rw [hto key fun l hl => h l (List.mem_cons_of_mem _ hl)]
        exact hso key (h i (List.mem_cons_self ..))

end Registry

/-! ### Distinct keys -/

theorem Tied.injective {slots : Array (Slot α)} {r : Registry} (ht : Tied slots r) {i j key : Nat}
    (hi : keyAt slots i = some key) (hj : keyAt slots j = some key) : i = j := by
  rw [ht] at hi hj
  rw [hi] at hj
  exact Option.some.inj hj

theorem Tied.isIssued {slots : Array (Slot α)} {r : Registry} (ht : Tied slots r) {i key : Nat}
    (hi : keyAt slots i = some key) : r.IsIssued key :=
  Registry.isIssued_of_positionOf ((ht i key).mp hi)

namespace TiedOff

variable {slots : Array (Slot α)} {r : Registry} {i : Nat}

theorem injective (ht : TiedOff slots r i) {j l key : Nat} (hj : keyAt slots j = some key)
    (hl : keyAt slots l = some key) : j = l := by
  by_cases hji : j = i
  · subst hji
    by_contra hne
    exact ((ht.away l key (Ne.symm hne)).mp hl).2 hj
  · by_cases hli : l = i
    · subst hli
      exact absurd hl ((ht.away j key hji).mp hj).2
    · have hpj := ((ht.away j key hji).mp hj).1
      rw [((ht.away l key hli).mp hl).1] at hpj
      exact (Option.some.inj hpj).symm

theorem isIssued (ht : TiedOff slots r i) {j key : Nat} (hj : keyAt slots j = some key) :
    r.IsIssued key := by
  by_cases hji : j = i
  · exact ht.issued key (hji ▸ hj)
  · exact Registry.isIssued_of_positionOf ((ht.away j key hji).mp hj).1

/-- A slot that is replaced, and keeps its key, leaves the rest tied. -/
theorem of_tied {slots' : Array (Slot α)} (ht : Tied slots' r)
    (hkeys : ∀ j, keyAt slots j = keyAt slots' j) (i : Nat) : TiedOff slots r i := by
  refine ⟨?_, ?_, ?_⟩
  · intro j key hji
    rw [hkeys, hkeys, ht]
    refine ⟨fun h => ⟨h, ?_⟩, And.left⟩
    intro hk
    rw [ht, h] at hk
    exact hji (Option.some.inj hk)
  · intro key h
    rw [hkeys]
    exact (ht i key).mpr h
  · intro key h
    rw [hkeys] at h
    exact ht.isIssued h

/-- **A sift ties again.** Following the path of a sift from the excepted position ties
the rearranged slots to the registry. -/
theorem follow (ht : TiedOff slots r i) {s : Sifted α} (hs : s.Rearranges slots)
    (hi : i ∈ s.path) (hlt : ∀ j ∈ s.path, j < s.slots.size) :
    ∃ t, r.follow s.slots s.path = .ok t ∧ t.unplaced = r.unplaced ∧ Tied s.slots t := by
  obtain ⟨σ, hσ, hget⟩ := hs
  have hkey : ∀ j, keyAt s.slots j = keyAt slots (σ j) := fun j => by
    unfold keyAt
    rw [hget]
  have hinj : ∀ j l key, keyAt s.slots j = some key → keyAt s.slots l = some key → j = l := by
    intro j l key hj hl
    rw [hkey] at hj hl
    exact σ.injective (ht.injective hj hl)
  obtain ⟨t, hf, hun, hon, hoff⟩ := Registry.follow_of_isIssued hlt hinj fun j _ key h =>
    ht.isIssued ((hkey j).symm.trans h)
  refine ⟨t, hf, hun, ?_⟩
  intro j key
  by_cases hmem : ∃ l ∈ s.path, keyAt s.slots l = some key
  · obtain ⟨l, hl, hlk⟩ := hmem
    rw [hon l hl key hlk]
    exact ⟨fun hj => by rw [hinj j l key hj hlk], fun h => Option.some.inj h ▸ hlk⟩
  · have hnot : ∀ l ∈ s.path, keyAt s.slots l ≠ some key := fun l hl hlk => hmem ⟨l, hl, hlk⟩
    -- What is not on the path after the sift was not on it before.
    have hbefore : ∀ l ∈ s.path, keyAt slots l ≠ some key := by
      intro l hl hlk
      have hpre : σ.symm l ∈ s.path := by
        by_contra hout
        have hfix := hσ _ hout
        rw [Equiv.apply_symm_apply] at hfix
        exact hout (hfix ▸ hl)
      exact hnot _ hpre (by rw [hkey, Equiv.apply_symm_apply, hlk])
    rw [hoff key hnot]
    by_cases hj : j ∈ s.path
    · refine ⟨fun h => absurd h (hnot j hj), ?_⟩
      intro h
      by_cases hji : j = i
      · exact absurd (ht.here key (hji ▸ h)) (hbefore i hi)
      · exact absurd ((ht.away j key hji).mpr ⟨h, hbefore i hi⟩) (hbefore j hj)
    · have hji : j ≠ i := fun h => hj (h ▸ hi)
      rw [hkey, hσ j hj, ht.away j key hji]
      exact ⟨And.left, fun h => ⟨h, hbefore i hi⟩⟩

end TiedOff

end TrackedHeap
