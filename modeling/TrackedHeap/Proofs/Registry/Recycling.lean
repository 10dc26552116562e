import TrackedHeap.Proofs.Registry.Sound

/-!
# TrackedHeap.Proofs.Registry.Recycling

**Recycling**: which keys wait once some are taken back.

`Registry.Withdraws` says no more than which keys may wait. Here they are told exactly: those that
waited before, and the ones taken back whose count was not at its end. Positions apart this
determines the registry up to the order of the waiting keys, so it makes no difference in which
order keys are taken back, nor whether elements change their places in between.
-/

namespace TrackedHeap

namespace Record

@[simp] theorem unplaced_retired (record : Record) : record.retired.unplaced = record.retired := rfl

@[simp] theorem retired_unplaced (record : Record) : record.unplaced.retired = record.retired := rfl

/-- A record that shows no position is not changed when positions are left out. -/
theorem unplaced_eq_self {record : Record} (h : record.status.position? = none) :
    record.unplaced = record := by
  obtain ⟨generation, status⟩ := record
  cases status with
  | vacant | reserved => rfl
  | bound i => cases h

end Record

namespace Registry

variable {r s t : Registry} {keys : List (Option Nat)}

/-- The count of a key is not at its end, so the key waits when it is taken back. -/
def Lasts (r : Registry) (key : Nat) : Prop :=
  ∃ record, r.records[key]? = some record ∧ record.generation < lastGeneration

theorem lasts_of_records_eq {key : Nat} (h : s.records[key]? = r.records[key]?) :
    s.Lasts key ↔ r.Lasts key := by
  unfold Lasts
  rw [h]

@[simp] theorem lasts_unplaced (r : Registry) (key : Nat) : r.unplaced.Lasts key ↔ r.Lasts key := by
  simp only [Lasts, unplaced_records, Option.map_eq_some_iff]
  constructor
  · rintro ⟨-, ⟨record, hr, rfl⟩, hlt⟩
    exact ⟨record, hr, hlt⟩
  · rintro ⟨record, hr, hlt⟩
    exact ⟨_, ⟨record, hr, rfl⟩, hlt⟩

/-- Without positions there is nothing to leave out. -/
theorem unplaced_eq_self (h : ∀ key, r.positionOf key = none) : r.unplaced = r := by
  have hrecords : r.records.map Record.unplaced = r.records := by
    refine Array.ext_getElem? fun key => ?_
    rw [Array.getElem?_map]
    cases hr : r.records[key]? with
    | none => rfl
    | some record =>
        have hp := h key
        rw [positionOf, hr] at hp
        exact congrArg some (Record.unplaced_eq_self hp)
  rw [unplaced, hrecords]

theorem Withdraws.unplaced (h : r.Withdraws keys s) : r.unplaced.Withdraws keys s.unplaced where
  owner_eq := h.owner_eq
  records_eq key := by
    rw [unplaced_records, unplaced_records, h.records_eq]
    split
    · simp only [Option.map_map, Function.comp_def, Record.unplaced_retired,
        Record.retired_unplaced]
    · rfl
  mem_free key hk := by
    refine (h.mem_free key hk).imp_right fun ⟨hmem, hlt⟩ => ⟨hmem, fun record hr => ?_⟩
    rw [unplaced_records] at hr
    obtain ⟨record', hr', rfl⟩ := Option.map_eq_some_iff.mp hr
    exact hlt record' hr'

/-- `s` is `r` once the listed keys are taken back, positions apart. -/
structure Recycles (r : Registry) (keys : List (Option Nat)) (s : Registry) : Prop where
  withdraws : r.unplaced.Withdraws keys s.unplaced
  mem_free_iff : ∀ key, key ∈ s.free ↔ key ∈ r.free ∨ some key ∈ keys ∧ r.Lasts key

namespace Recycles

theorem refl (r : Registry) : r.Recycles [] r := ⟨.nil r.unplaced, by simp⟩

/-- Where elements are has nothing to do with it. -/
theorem congr (h : r.Recycles keys s) (ht : t.unplaced = s.unplaced) : r.Recycles keys t := by
  refine ⟨ht ▸ h.withdraws, fun key => ?_⟩
  rw [← unplaced_free t, ht, unplaced_free]
  exact h.mem_free_iff key

/-- Nor has the order in which the keys are listed. -/
theorem perm {keys' : List (Option Nat)} (h : r.Recycles keys s) (hp : keys.Perm keys') :
    r.Recycles keys' s where
  withdraws :=
    { owner_eq := h.withdraws.owner_eq
      records_eq := fun key => by simp only [← hp.mem_iff, h.withdraws.records_eq]
      mem_free := fun key hk => by
        rw [← hp.mem_iff]
        exact h.withdraws.mem_free key hk }
  mem_free_iff key := by rw [h.mem_free_iff, hp.mem_iff]

/-- Keys taken back one after another, none of them twice. -/
theorem cons {key : Option Nat} (hr : r.Recycles [key] s) (hs : s.Recycles keys t)
    (hk : ∀ k, key = some k → some k ∉ keys) : r.Recycles (key :: keys) t := by
  refine ⟨hr.withdraws.cons hs.withdraws hk, fun k => ?_⟩
  rw [hs.mem_free_iff, hr.mem_free_iff, List.mem_singleton, List.mem_cons]
  -- The count of a key that is taken back later is not touched before.
  have hlasts : some k ∈ keys → (s.Lasts k ↔ r.Lasts k) := by
    intro hmem
    have hne : some k ∉ [key] := fun h => hk k (List.mem_singleton.mp h).symm hmem
    rw [← lasts_unplaced s, ← lasts_unplaced r]
    refine lasts_of_records_eq ?_
    rw [hr.withdraws.records_eq, if_neg hne]
  rw [or_assoc, or_and_right, and_congr_right hlasts]

/-- What is left once given keys are taken back is determined up to the order in which keys wait,
if it shows no positions. -/
theorem unique (hs : r.Recycles keys s) (ht : r.Recycles keys t) (hss : s.Sound) (hts : t.Sound)
    (hsp : ∀ key, s.positionOf key = none) (htp : ∀ key, t.positionOf key = none) :
    t = { s with free := t.free } ∧ t.free.Perm s.free := by
  have hrecords : t.records = s.records := by
    refine Array.ext_getElem? fun key => ?_
    rw [← unplaced_eq_self hsp, ← unplaced_eq_self htp, hs.withdraws.records_eq,
      ht.withdraws.records_eq]
  refine ⟨?_, (List.perm_ext_iff_of_nodup hts.free_nodup hss.free_nodup).mpr fun key => ?_⟩
  · have howner : t.owner = s.owner := ht.withdraws.owner_eq.trans hs.withdraws.owner_eq.symm
    have hissued : t.issued = s.issued := by rw [hts.issued_eq, hss.issued_eq, hrecords]
    rcases t with ⟨owner, records, free, issued⟩
    cases howner
    cases hrecords
    cases hissued
    rfl
  · rw [ht.mem_free_iff, hs.mem_free_iff]

end Recycles

/-! ### Taking keys back -/

theorem Sound.recycles_of_retire (hr : r.Sound) {key : Nat} (hk : r.IsIssued key)
    (hret : r.retire key = .ok s) : r.Recycles [some key] s := by
  obtain ⟨s', hret', -, hwith⟩ := hr.retire hk
  cases hret.symm.trans hret'
  refine ⟨hwith.unplaced, fun k => ?_⟩
  simp only [List.mem_singleton, Option.some.injEq]
  unfold Registry.retire at hret
  split at hret
  · next hlt =>
      have hlasts : r.Lasts key ↔ r.records[key].generation < lastGeneration := by
        simp [Lasts, hlt]
      dsimp only at hret
      split at hret
      · cases hret
      · split at hret
        · next hg =>
            cases hret
            rw [List.mem_cons, or_comm]
            refine or_congr_right (iff_self_and.mpr ?_)
            rintro rfl
            exact hlasts.mpr hg
        · next hg =>
            cases hret
            refine (or_iff_left ?_).symm
            rintro ⟨rfl, hl⟩
            exact hg (hlasts.mp hl)
  · cases hret

theorem Sound.recycles_of_retire? (hr : r.Sound) {key : Option Nat}
    (hk : ∀ k, key = some k → r.IsIssued k) (hret : r.retire? key = .ok s) :
    r.Recycles [key] s := by
  cases key with
  | none =>
      cases hret
      exact ⟨.single_none r.unplaced, by simp⟩
  | some k => exact hr.recycles_of_retire (hk k rfl) hret

/-- Keys taken back in a row are taken back in the order of the row, which makes no difference. -/
theorem Sound.recycles_of_retireAll (hr : r.Sound) (hnd : keys.reduceOption.Nodup)
    (hk : ∀ k, some k ∈ keys → r.IsIssued k) (hret : r.retireAll keys = .ok s) :
    r.Recycles keys s := by
  induction keys generalizing r with
  | nil =>
      cases hret
      exact .refl _
  | cons key keys ih =>
      obtain ⟨s', hrs, hss, -, hkey, hnd', hk'⟩ := hr.retire?_head hnd hk
      simp only [Registry.retireAll, hrs] at hret
      exact .cons (hr.recycles_of_retire? (fun k h => hk k (h ▸ List.mem_cons_self ..)) hrs)
        (ih hss hnd' hk' hret) hkey

end Registry

end TrackedHeap
