import Mathlib.Data.List.FinRange
import Mathlib.Data.List.Perm.Subperm
import TrackedHeap.Proofs.Registry.Sound

/-!
# TrackedHeap.Proofs.Registry.Growth

**How a registry grows** while its owner stays.

Records are never dropped and their counts never fall. A record is added for one reason only: a
handle was asked for and no key waited. All keys are issued then, unless some have come to the end
of their counts (`Registry.Sound.issued_eq_tracked`), so a registry has as many records as there
were ever handles issued at once.
-/

namespace TrackedHeap

/-- Counting a list is counting the places at which it has what is counted. -/
theorem countP_eq_length_finRange {β : Type} (l : List β) (p : β → Bool) :
    l.countP p = (((List.finRange l.length).filter fun i => p l[i]).map Fin.val).length := by
  conv_lhs => rw [← List.map_getElem_finRange l]
  rw [List.countP_map, List.countP_eq_length_filter, List.length_map]
  rfl

theorem length_le_countP_of_places {β : Type} {l : List β} {p : β → Bool} {places : List Nat}
    (hnd : places.Nodup) (hp : ∀ i ∈ places, ∃ b, l[i]? = some b ∧ p b = true) :
    places.length ≤ l.countP p := by
  rw [countP_eq_length_finRange]
  refine (hnd.subperm ?_).length_le
  intro i hi
  obtain ⟨b, hb, hpb⟩ := hp i hi
  obtain ⟨hlt, rfl⟩ := List.getElem?_eq_some_iff.mp hb
  exact List.mem_map.mpr ⟨⟨i, hlt⟩, List.mem_filter.mpr ⟨List.mem_finRange _, hpb⟩, rfl⟩

namespace Registry

/-- No key has come to the end of its count, so that each one can be issued again. -/
def Unspent (r : Registry) : Prop := ∀ record ∈ r.records, record.generation < lastGeneration

/-- `s` is what `r` has become under the same owner, by one request at most. -/
structure Follows (r s : Registry) : Prop where
  owner_eq : s.owner = r.owner
  /-- Every record is still there, and its count has not fallen. -/
  generation_le : ∀ (key : Nat) (record : Record), r.records[key]? = some record →
    ∃ record' : Record, s.records[key]? = some record' ∧ record.generation ≤ record'.generation
  /-- A record was added only if no key waited, and then to be issued. -/
  tracked_cases : s.tracked = r.tracked ∨
    s.tracked = r.tracked + 1 ∧ s.free = [] ∧ r.free = [] ∧ s.issued = r.issued + 1
  /-- There are no more records than different keys. -/
  tracked_le_keyLimit : r.tracked ≤ keyLimit → s.tracked ≤ keyLimit

/-- How many keys are neither issued nor wait to be issued again: those that were retired at the
end of their counts. -/
def spent (r : Registry) : Nat := r.tracked - (r.issued + r.free.length)

variable {r s t : Registry}

theorem lt_tracked_of_isIssued {key : Nat} (hk : r.IsIssued key) : key < r.tracked := by
  obtain ⟨record, hr, -⟩ := hk
  exact (Array.getElem?_eq_some_iff.mp hr).1

namespace Sound

theorem issued_le_tracked (hs : r.Sound) : r.issued ≤ r.tracked := by
  rw [hs.issued_eq, tracked]
  exact Array.countP_le_size

/-- Every key is issued, waits, or is spent. -/
theorem issued_add_spent (hs : r.Sound) : r.issued + r.spent + r.free.length = r.tracked := by
  have hfree : r.free.length ≤ r.records.toList.countP (fun record => record.status = .vacant) := by
    refine length_le_countP_of_places hs.free_nodup ?_
    intro key hmem
    obtain ⟨record, hr, hv⟩ := hs.vacant_of_mem_free key hmem
    exact ⟨record, by rw [Array.getElem?_toList, hr], decide_eq_true hv⟩
  have hissued := hs.issued_eq
  rw [← Array.countP_toList] at hissued
  simp only [ne_eq] at hissued
  have htracked : r.tracked = r.records.toList.length := rfl
  rw [List.length_eq_countP_add_countP fun record => decide (record.status = .vacant)] at htracked
  simp only [decide_eq_true_eq] at htracked
  rw [spent]
  omega

/-- If no key waits and none is spent, all are issued. -/
theorem issued_eq_tracked (hs : r.Sound) (hfree : r.free = []) (hu : r.Unspent) :
    r.issued = r.tracked := by
  rw [hs.issued_eq, tracked, Array.countP_eq_size]
  intro record hmem
  obtain ⟨key, hr⟩ := Array.getElem?_of_mem hmem
  rw [decide_eq_true_eq]
  intro hv
  rcases hs.mem_free_of_vacant key record hr hv with hwaits | hspent
  · rw [hfree] at hwaits
    cases hwaits
  · exact absurd (hu record hmem) (Nat.not_lt.mpr hspent)

end Sound

theorem Withdraws.tracked_eq {keys : List (Option Nat)} (h : r.Withdraws keys s) :
    s.tracked = r.tracked := by
  have hiff : ∀ key, key < s.tracked ↔ key < r.tracked := by
    intro key
    have hsome := h.isSome_records key
    rw [Bool.eq_iff_iff] at hsome
    simpa [tracked] using hsome
  have hle := hiff s.tracked
  have hge := hiff r.tracked
  omega

namespace Follows

/-- Where the elements are does not matter. -/
theorem congr (h : r.Follows s) (hu : t.unplaced = s.unplaced) : r.Follows t := by
  have htracked : t.tracked = s.tracked := by
    rw [← unplaced_tracked t, hu, unplaced_tracked]
  have hissued : t.issued = s.issued := by
    rw [← unplaced_issued t, hu, unplaced_issued]
  have hfree : t.free = s.free := by
    rw [← unplaced_free t, hu, unplaced_free]
  refine ⟨(owner_congr hu).trans h.owner_eq, ?_,
    by rw [htracked, hissued, hfree]; exact h.tracked_cases,
    by rw [htracked]; exact h.tracked_le_keyLimit⟩
  intro key record hr
  obtain ⟨record', hs, hle⟩ := h.generation_le key record hr
  have hplace := congrArg (fun q : Registry => q.records[key]?.map Record.generation) hu
  simp only [unplaced_records, Option.map_map, hs, Option.map_some] at hplace
  obtain ⟨record'', ht, hgen⟩ := Option.map_eq_some_iff.mp hplace
  exact ⟨record'', ht, Nat.le_trans hle (Nat.le_of_eq hgen.symm)⟩

theorem refl (r : Registry) : r.Follows r :=
  ⟨rfl, fun _ record hr => ⟨record, hr, Nat.le_refl _⟩, Or.inl rfl, id⟩

/-- Taking keys back counts their records up. -/
theorem of_withdraws {keys : List (Option Nat)} (h : r.Withdraws keys s) : r.Follows s := by
  refine ⟨h.owner_eq, ?_, Or.inl h.tracked_eq, fun hle => h.tracked_eq ▸ hle⟩
  intro key record hr
  rw [h.records_eq, hr]
  split
  · refine ⟨record.retired, rfl, ?_⟩
    simp only [Record.retired]
    split <;> omega
  · exact ⟨record, rfl, Nat.le_refl _⟩

/-- Issuing a key adds a record only if no key waits. -/
theorem of_reserve {x : Handle} (h : r.reserve = .ok (x, s)) : r.Follows s := by
  unfold reserve at h
  split at h
  · next key rest hfree =>
      split at h
      · next hlt =>
          cases h
          refine ⟨rfl, ?_, Or.inl (by simp [tracked]), fun hle => by simpa [tracked] using hle⟩
          intro k record hr
          by_cases hk : k = key
          · subst hk
            obtain ⟨-, rfl⟩ := Array.getElem?_eq_some_iff.mp hr
            exact ⟨{ r.records[k] with status := .reserved }, by simp, Nat.le_refl _⟩
          · exact ⟨record, by rwa [Array.getElem?_set_ne hlt (Ne.symm hk)], Nat.le_refl _⟩
      · cases h
  · next hfree =>
      split at h
      · next hlimit =>
          cases h
          have htracked : (r.records.push {}).size = r.tracked + 1 := Array.size_push ..
          refine ⟨rfl, ?_, Or.inr ⟨htracked, hfree, hfree, rfl⟩,
            fun _ => Nat.le_trans (Nat.le_of_eq htracked) hlimit⟩
          intro k record hr
          have hlt := (Array.getElem?_eq_some_iff.mp hr).1
          refine ⟨record, ?_, Nat.le_refl _⟩
          rw [Array.getElem?_push, if_neg (Nat.ne_of_lt hlt), hr]
      · cases h

theorem tracked_le (h : r.Follows s) : r.tracked ≤ s.tracked := by
  rcases h.tracked_cases with heq | ⟨heq, -⟩ <;> omega

/-- Counts do not fall, so what is not spent now was not spent before. -/
theorem unspent (h : r.Follows s) (hu : s.Unspent) : r.Unspent := by
  intro record hmem
  obtain ⟨key, hr⟩ := Array.getElem?_of_mem hmem
  obtain ⟨record', hs, hle⟩ := h.generation_le key record hr
  exact Nat.lt_of_le_of_lt hle (hu record' (Array.mem_of_getElem? hs))

end Follows

end Registry

end TrackedHeap
