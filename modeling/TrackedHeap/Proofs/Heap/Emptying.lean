import TrackedHeap.Proofs.Heap.Versions
import TrackedHeap.Proofs.Registry.Recycling

/-!
# TrackedHeap.Proofs.Heap.Emptying

**Emptying** a heap, by clearing it or by popping to the end.

Both ways come to one thing (`Heap.Empties`): all keys are taken back, and then what is held is
released. While it is popped a heap neither reports nor releases anything until its last element is
out, and the registry that is left by then depends on the keys alone. So all that the two ways can
differ in is the version, and the order in which free keys wait (`Heap.Coincides`).
-/

namespace TrackedHeap

variable {α : Type}

namespace Heap

/-- `k` is `h` but for its version and for the order in which free keys wait. -/
structure Coincides (h k : Heap α) : Prop where
  eq_with : k = { h with
    version := k.version
    registry := { h.registry with free := k.registry.free } }
  perm_free : k.registry.free.Perm h.registry.free

namespace Coincides

variable {h k : Heap α}

/-- No handle is judged by the version, nor by the keys that wait. -/
theorem statusOf_eq (ha : h.Coincides k) (x : Handle) :
    k.registry.statusOf x = h.registry.statusOf x := by
  rw [ha.eq_with]
  rfl

theorem position_eq (ha : h.Coincides k) (x : Handle) :
    k.registry.position x = h.registry.position x := by
  simp only [Registry.position, ha.statusOf_eq]

theorem unboundKey_eq (ha : h.Coincides k) (x : Handle) :
    k.registry.unboundKey x = h.registry.unboundKey x := by
  simp only [Registry.unboundKey, ha.statusOf_eq]

theorem with_version (ha : h.Coincides k) (v v' : UInt64) :
    Coincides { h with version := v } { k with version := v' } := by
  refine ⟨?_, ha.perm_free⟩
  rw [ha.eq_with]

/-- What coincides is released alike. -/
theorem releaseEmpty (ha : h.Coincides k) (m : Mint) :
    (h.releaseEmpty m).heap.Coincides (k.releaseEmpty m).heap ∧
      (k.releaseEmpty m).mint = (h.releaseEmpty m).mint ∧
      (k.releaseEmpty m).events = (h.releaseEmpty m).events := by
  obtain ⟨heq, hfree⟩ := ha
  generalize k.version = version at heq
  generalize k.registry.free = free at heq hfree
  subst heq
  simp only [Heap.releaseEmpty, releaseStorage, releaseRegistry, Registry.tracked]
  split <;> dsimp only <;> split
  · exact ⟨⟨rfl, .refl _⟩, rfl, rfl⟩
  · exact ⟨⟨rfl, hfree⟩, rfl, rfl⟩
  · exact ⟨⟨rfl, .refl _⟩, rfl, rfl⟩
  · exact ⟨⟨rfl, hfree⟩, rfl, rfl⟩

end Coincides

theorem Advances.exists_bumps {h h' : Heap α} (ha : h.Advances h') :
    ∃ bumps, h'.version = h.version + UInt64.ofNat bumps ∧ 1 ≤ bumps ∧ bumps ≤ 2 := by
  rcases ha with hv | hv
  · exact ⟨1, hv, Nat.le_refl 1, Nat.le_succ 1⟩
  · exact ⟨2, hv, Nat.le_succ 1, Nat.le_refl 2⟩

/-- `h'` is what is left of `h`, but for the version, when all its keys are taken back and then
what it holds is released, which leaves the mint `m'` and is reported by `events`. -/
def Empties (h : Heap α) (m : Mint) (h' : Heap α) (m' : Mint) (events : List Event) : Prop :=
  ∃ r version released, r.Sound ∧ (∀ key, r.positionOf key = none) ∧
    h.registry.Recycles h.keys r ∧
    released = releaseEmpty { h with slots := #[], registry := r, version := version } m ∧
    h' = { released.heap with version := h'.version } ∧ m' = released.mint ∧
    events = released.events

namespace Empties

variable {h g h' k' : Heap α} {m m' n' : Mint} {events reports : List Event}

theorem slots_eq (hh : h.Empties m h' m' events) : h'.slots = #[] := by
  obtain ⟨r, v, released, -, -, -, rfl, heq, -⟩ := hh
  rw [heq]
  exact slots_releaseEmpty _ m

/-- **Two ways of emptying a heap agree.** -/
theorem coincides (hh : h.Empties m h' m' events) (hk : h.Empties m k' n' reports) :
    h'.Coincides k' ∧ n' = m' ∧ reports = events := by
  obtain ⟨r, v, released, hr, hpos, hrec, hrel, heq, rfl, rfl⟩ := hh
  obtain ⟨s, v', released', hs, hpos', hrec', hrel', heq', rfl, rfl⟩ := hk
  obtain ⟨hsr, hperm⟩ := hrec.unique hrec' hr hs hpos hpos'
  have ha : Coincides { h with slots := #[], registry := r, version := v }
      { h with slots := #[], registry := s, version := v' } :=
    ⟨congrArg (fun t : Registry => ({ h with slots := #[], registry := t, version := v' } : Heap α))
      hsr, hperm⟩
  obtain ⟨hagrees, hmint, hevents⟩ := ha.releaseEmpty m
  rw [← hrel, ← hrel'] at hagrees hmint hevents
  refine ⟨?_, hmint, hevents⟩
  rw [heq, heq']
  exact hagrees.with_version _ _

/-- It makes no difference if the key of one slot was taken back before, the others having moved. -/
theorem of_takesOut {key : Option Nat}
    (hg : g = { h with slots := g.slots, registry := g.registry, version := g.version })
    (hrec : h.registry.Recycles [key] g.registry) (hperm : (key :: g.keys).Perm h.keys)
    (hkey : ∀ k, key = some k → some k ∉ g.keys) (he : g.Empties m h' m' events) :
    h.Empties m h' m' events := by
  obtain ⟨r, v, released, hr, hpos, hrec', hrel, hrest⟩ := he
  refine ⟨r, v, released, hr, hpos, (hrec.cons hrec' hkey).perm hperm, ?_, hrest⟩
  rw [hrel, hg]

end Empties

namespace WellFormed

variable {h : Heap α}

/-- Once the keys of all slots are taken back, no record shows a position. -/
theorem positionOf_eq_none (hw : h.WellFormed) {r : Registry}
    (hwith : h.registry.Withdraws h.keys r) (key : Nat) : r.positionOf key = none := by
  rw [hwith.positionOf_eq]
  split
  · rfl
  · next hk =>
      rw [hw.mem_keys_iff_isSome, Option.not_isSome_iff_eq_none] at hk
      exact hk

/-- A heap without elements knows no position. -/
theorem positionOf_of_empty (hw : h.WellFormed) (he : h.slots = #[]) (key : Nat) :
    h.registry.positionOf key = none := by
  refine Option.eq_none_iff_forall_ne_some.mpr fun i hp => ?_
  have hkey := (hw.tied i key).mpr hp
  simp [keyAt, he] at hkey

/-- **Clearing empties a heap**, and counts once. -/
theorem empties_clear (hw : h.WellFormed) (m : Mint) :
    (h.clear m).answer = .ok () ∧
      h.Empties m (h.clear m).heap (h.clear m).mint (h.clear m).events ∧
      (h.clear m).heap.version = h.version + 1 := by
  obtain ⟨r, hret, hr, hwith⟩ := hw.registry.retireAll hw.keys_nodup
    fun k hk => hw.isIssued_of_mem_keys hk
  have hrec := hw.registry.recycles_of_retireAll hw.keys_nodup
    (fun k hk => hw.isIssued_of_mem_keys hk) hret
  simp only [Heap.clear, hret]
  exact ⟨rfl, ⟨r, h.version, _, hr, hw.positionOf_eq_none hwith, hrec, rfl, rfl, rfl, rfl⟩, rfl⟩

end WellFormed

/-! ### Popping -/

/-- Taking out an element is a part of emptying a heap: it is all that was left to do, or it is
silent, and what empties the rest empties the heap. -/
def EmptiesFurther (h : Heap α) (m : Mint) (c : Change α α) : Prop :=
  c.heap.slots = #[] ∧ h.Empties m c.heap c.mint c.events ∨
    c.heap.slots ≠ #[] ∧ c.mint = m ∧ c.events = [] ∧ ∀ h' m' events,
      c.heap.Empties m h' m' events → h.Empties m h' m' events

variable {h : Heap α} {m : Mint} {r : Registry} {c : Change α α}

/-- Once its key is recycled, taking out the root goes on with emptying the heap. -/
theorem Removes.emptiesFurther {hi : 0 < h.slots.size} (hw : h.WellFormed) (hr : r.Sound)
    (hwith : h.registry.Withdraws [h.slots[0].key] r)
    (hrec : h.registry.Recycles [h.slots[0].key] r) (hc : h.Removes m 0 hi r c) :
    h.EmptiesFurther m c := by
  have hperm := TakesOut.perm_keys ⟨r, hr, hwith, hc⟩
  have hlast : c.heap.slots = #[] → [h.slots[0].key] = h.keys := by
    intro he
    rw [keys, he] at hperm
    exact List.singleton_perm.mp hperm
  cases hc with
  | refilled hs ha =>
      have hg := ha.eq_with
      rw [← ha.slots_eq, ← ha.version_eq] at hg
      have hnd := (hperm.filterMap fun key => key).nodup_iff.mpr hw.keys_nodup
      refine Or.inr ⟨?_, rfl, rfl, fun h' m' events he => .of_takesOut hg
        (hrec.congr ha.unplaced_eq) hperm (Registry.notMem_of_nodup_keys hnd) he⟩
      rw [ha.slots_eq, ← Array.size_pos_iff, Sift.size_settle]
      exact hs
  | last hs hne => exact absurd (Array.size_eq_zero_iff.mp (Nat.eq_zero_of_not_pos hs)) hne
  | emptied hs he =>
      have htouched : h.touched (withoutSlot h.slots 0 hi) r =
          { h with slots := #[], registry := r, version := h.version + 1 } := by
        rw [touched, he]
      have hslots : ((h.touched (withoutSlot h.slots 0 hi) r).releaseEmpty m).heap.slots = #[] :=
        (slots_releaseEmpty _ m).trans he
      rw [hlast hslots] at hwith hrec
      exact Or.inl ⟨hslots, r, h.version + 1, _, hr, hw.positionOf_eq_none hwith, hrec,
        congrArg (releaseEmpty · m) htouched, rfl, rfl, rfl⟩

/-- **Popping empties a heap with its last element**, and until then it is silent. -/
theorem WellFormed.pop_empties (hw : h.WellFormed) (hi : 0 < h.slots.size) (m : Mint) :
    ∃ c, h.pop m = ⟨c.heap, c.mint, c.events, .ok c.answer⟩ ∧ h.TakesOut m 0 hi c ∧
      h.EmptiesFurther m c := by
  have hissued : ∀ k, h.slots[0].key = some k → h.registry.IsIssued k := fun k hk =>
    hw.tied.isIssued ((keyAt_getElem hi).trans hk)
  obtain ⟨r, hret, hr, hwith⟩ := hw.registry.retire? h.slots[0].key hissued
  have hrec := hw.registry.recycles_of_retire? hissued hret
  obtain ⟨c, hrem, hc⟩ := hw.removeAt_of_retire hi m hret hwith
  have hempty : ¬ h.isEmpty = true := fun he => Nat.ne_of_gt hi (of_decide_eq_true he)
  exact ⟨c, by simp only [Heap.pop, hempty, hrem]; rfl, ⟨r, hr, hwith, hc⟩,
    hc.emptiesFurther hw hr hwith hrec⟩

end Heap

end TrackedHeap
