import Mathlib.Data.List.Nodup
import Mathlib.Data.List.ReduceOption
import TrackedHeap.Registry

/-!
# TrackedHeap.Proofs.Registry.Sound

**Soundness** of a registry: the free keys are vacant and stand on the stack once, and
the counter of issued keys counts the records that are not vacant.

Where the elements are does not matter for any of this. `unplaced` forgets the
positions, and what follows from a registry without its positions is carried over from
one registry to another with the same `unplaced`: binding a key to a position is
invisible here.

Two operations change what is issued. `Grants` says what reserving does, `Withdraws`
what taking keys back does; both name every record, so nothing else has to be said
about them.
-/

namespace TrackedHeap

/-- The position of the element, if there is one. -/
def Status.position? : Status → Option Nat
  | .bound position => some position
  | .vacant | .reserved => none

namespace Record

/-- The record without its position. -/
def unplaced (record : Record) : Record :=
  { record with status := if record.status = .vacant then .vacant else .reserved }

/-- The record once its key is taken back. -/
def retired (record : Record) : Record :=
  ⟨if record.generation < Registry.lastGeneration then record.generation + 1
    else record.generation, .vacant⟩

@[simp] theorem unplaced_generation (record : Record) :
    record.unplaced.generation = record.generation := rfl

@[simp] theorem unplaced_status_eq_vacant (record : Record) :
    record.unplaced.status = .vacant ↔ record.status = .vacant := by
  by_cases h : record.status = .vacant <;> simp [unplaced, h]

@[simp] theorem retired_status (record : Record) : record.retired.status = .vacant := rfl

end Record

namespace Registry

/-- The registry without the positions of the elements. -/
def unplaced (r : Registry) : Registry := { r with records := r.records.map Record.unplaced }

/-- The position of the element that a key names. -/
def positionOf (r : Registry) (key : Nat) : Option Nat :=
  r.records[key]?.bind (·.status.position?)

/-- A key is issued while its record is not vacant. -/
def IsIssued (r : Registry) (key : Nat) : Prop :=
  ∃ record, r.records[key]? = some record ∧ record.status ≠ .vacant

/-- A handle is current while it is what its key is issued as. -/
def Issues (r : Registry) (h : Handle) : Prop :=
  h.owner = r.owner ∧
    ∃ record, r.records[h.key]? = some record ∧ record.generation = h.generation ∧
      record.status ≠ .vacant

/-- The handle that the record of a key stands for. -/
def handleOf? (r : Registry) (key : Nat) : Option Handle := r.records[key]?.map (r.handle key)

/-- The stack of free keys and the counter agree with the records. -/
structure Sound (r : Registry) : Prop where
  /-- No key waits twice. -/
  free_nodup : r.free.Nodup
  /-- Only vacant keys wait. -/
  vacant_of_mem_free : ∀ key ∈ r.free,
    ∃ record, r.records[key]? = some record ∧ record.status = .vacant
  /-- A vacant key waits unless its count is at the end. -/
  mem_free_of_vacant : ∀ key record, r.records[key]? = some record → record.status = .vacant →
    key ∈ r.free ∨ lastGeneration ≤ record.generation
  /-- The counter counts the keys that are not vacant. -/
  issued_eq : r.issued = r.records.countP (fun record => record.status ≠ .vacant)

/-! ### Positions do not matter -/

@[simp] theorem unplaced_owner (r : Registry) : r.unplaced.owner = r.owner := rfl

@[simp] theorem unplaced_free (r : Registry) : r.unplaced.free = r.free := rfl

@[simp] theorem unplaced_issued (r : Registry) : r.unplaced.issued = r.issued := rfl

@[simp] theorem unplaced_tracked (r : Registry) : r.unplaced.tracked = r.tracked := by
  simp [unplaced, tracked]

theorem unplaced_records (r : Registry) (key : Nat) :
    r.unplaced.records[key]? = r.records[key]?.map Record.unplaced := by
  simp [unplaced]

@[simp] theorem isIssued_unplaced (r : Registry) (key : Nat) :
    r.unplaced.IsIssued key ↔ r.IsIssued key := by
  simp only [IsIssued, unplaced_records, Option.map_eq_some_iff]
  constructor
  · intro hissued
    obtain ⟨-, ⟨record, hr, rfl⟩, hv⟩ := hissued
    exact ⟨record, hr, by simpa using hv⟩
  · intro hissued
    obtain ⟨record, hr, hv⟩ := hissued
    exact ⟨_, ⟨record, hr, rfl⟩, by simpa using hv⟩

@[simp] theorem issues_unplaced (r : Registry) (h : Handle) :
    r.unplaced.Issues h ↔ r.Issues h := by
  simp only [Issues, unplaced_records, Option.map_eq_some_iff, unplaced_owner]
  refine and_congr_right fun _ => ⟨?_, ?_⟩
  · intro hissued
    obtain ⟨-, ⟨record, hr, rfl⟩, hg, hv⟩ := hissued
    exact ⟨record, hr, hg, by simpa using hv⟩
  · intro hissued
    obtain ⟨record, hr, hg, hv⟩ := hissued
    exact ⟨_, ⟨record, hr, rfl⟩, hg, by simpa using hv⟩

@[simp] theorem handleOf?_unplaced (r : Registry) (key : Nat) :
    r.unplaced.handleOf? key = r.handleOf? key := by
  simp only [handleOf?, unplaced_records, Option.map_map]
  rfl

theorem sound_unplaced (r : Registry) : r.unplaced.Sound ↔ r.Sound := by
  have hcount : r.unplaced.records.countP (fun record => record.status ≠ .vacant) =
      r.records.countP (fun record => record.status ≠ .vacant) := by
    simp [unplaced, Array.countP_map, Function.comp_def]
  constructor
  · intro h
    refine ⟨h.free_nodup, ?_, ?_, hcount ▸ h.issued_eq⟩
    · intro key hk
      obtain ⟨_, hr, hv⟩ := h.vacant_of_mem_free key hk
      rw [unplaced_records] at hr
      obtain ⟨record, hr', rfl⟩ := Option.map_eq_some_iff.mp hr
      exact ⟨record, hr', by simpa using hv⟩
    · intro key record hr hv
      exact h.mem_free_of_vacant key record.unplaced (by rw [unplaced_records, hr]; rfl)
        (by simpa using hv)
  · intro h
    refine ⟨h.free_nodup, ?_, ?_, hcount ▸ h.issued_eq⟩
    · intro key hk
      obtain ⟨record, hr, hv⟩ := h.vacant_of_mem_free key hk
      exact ⟨record.unplaced, by rw [unplaced_records, hr]; rfl, by simpa using hv⟩
    · intro key record hr hv
      rw [unplaced_records] at hr
      obtain ⟨record, hr', rfl⟩ := Option.map_eq_some_iff.mp hr
      exact h.mem_free_of_vacant key record hr' (by simpa using hv)

section Congr

variable {r s : Registry} (h : s.unplaced = r.unplaced)
include h

theorem owner_congr : s.owner = r.owner := by
  rw [← unplaced_owner s, h, unplaced_owner]

theorem isSome_records_congr (key : Nat) :
    s.records[key]?.isSome = r.records[key]?.isSome := by
  have hrec := congrArg (fun t : Registry => t.records[key]?.isSome) h
  simpa only [unplaced_records, Option.isSome_map] using hrec

theorem isIssued_congr (key : Nat) : s.IsIssued key ↔ r.IsIssued key := by
  rw [← isIssued_unplaced s, h, isIssued_unplaced]

theorem issues_congr (x : Handle) : s.Issues x ↔ r.Issues x := by
  rw [← issues_unplaced s, h, issues_unplaced]

theorem handleOf?_congr (key : Nat) : s.handleOf? key = r.handleOf? key := by
  rw [← handleOf?_unplaced s, h, handleOf?_unplaced]

theorem Sound.congr (hr : r.Sound) : s.Sound := by
  rw [← sound_unplaced, h, sound_unplaced]
  exact hr

end Congr

/-! ### Issued keys -/

/-- How a key is issued depends on the owner and the record alone. -/
theorem handle_congr {r s : Registry} (h : s.owner = r.owner) : s.handle = r.handle := by
  funext key record
  simp [handle, h]

theorem Issues.isIssued {r : Registry} {x : Handle} (h : r.Issues x) : r.IsIssued x.key := by
  obtain ⟨-, record, hr, -, hv⟩ := h
  exact ⟨record, hr, hv⟩

/-- A key is issued as one handle at a time. -/
theorem Issues.eq_of_key_eq {r : Registry} {x y : Handle} (hx : r.Issues x) (hy : r.Issues y)
    (hk : x.key = y.key) : x = y := by
  obtain ⟨hxo, record, hr, hxg, -⟩ := hx
  obtain ⟨hyo, record', hr', hyg, -⟩ := hy
  rw [hk] at hr
  rw [hr] at hr'
  cases hr'
  cases x
  cases y
  simp_all

theorem isIssued_of_positionOf {r : Registry} {key i : Nat} (h : r.positionOf key = some i) :
    r.IsIssued key := by
  obtain ⟨record, hr, hp⟩ := Option.bind_eq_some_iff.mp h
  refine ⟨record, hr, ?_⟩
  intro hv
  rw [hv] at hp
  cases hp

/-- The handle of an issued key is the one it is issued as. -/
theorem issues_of_handleOf? {r : Registry} {key : Nat} {x : Handle} (hk : r.IsIssued key)
    (h : r.handleOf? key = some x) : r.Issues x ∧ x.key = key := by
  obtain ⟨record, hr, hv⟩ := hk
  simp only [handleOf?, hr, Option.map_some, Option.some.injEq] at h
  subst h
  exact ⟨⟨rfl, record, hr, rfl, hv⟩, rfl⟩

theorem Issues.handleOf? {r : Registry} {x : Handle} (h : r.Issues x) :
    r.handleOf? x.key = some x := by
  obtain ⟨ho, record, hr, hg, -⟩ := h
  simp [Registry.handleOf?, hr, handle, ← ho, hg]

/-- A handle that is not current is refused, for the first of three reasons. -/
theorem statusOf_of_not_issues {r : Registry} {x : Handle} (hx : ¬ r.Issues x) :
    r.statusOf x = .error (if x.owner ≠ r.owner then .foreignHandle
      else if r.records[x.key]?.isSome then .staleHandle else .malformedHandle x.key) := by
  unfold statusOf
  by_cases ho : x.owner = r.owner
  · rcases hrec : r.records[x.key]? with _ | ⟨generation, status⟩
    · simp [ho]
    · have hstale : status = .vacant ∨ generation ≠ x.generation := by
        by_contra hn
        rw [not_or, not_not] at hn
        exact hx ⟨ho, _, hrec, hn.2, hn.1⟩
      simp [ho, hstale]
  · simp [ho]

/-- None of these reasons is one for which an issued handle is refused. -/
theorem exists_statusOf_of_not_issues {r : Registry} {x : Handle} (hx : ¬ r.Issues x) :
    ∃ cause, r.statusOf x = .error cause ∧ cause ≠ .unboundHandle ∧ cause ≠ .handleInUse := by
  refine ⟨_, statusOf_of_not_issues hx, ?_⟩
  split
  · simp
  · split <;> simp

namespace Sound

variable {r : Registry}

/-- A registry that has issued nothing. -/
theorem new (owner : Token) : ({ owner := owner } : Registry).Sound :=
  ⟨List.nodup_nil, by simp, by simp, rfl⟩

theorem issued_pos (hs : r.Sound) {key : Nat} (hk : r.IsIssued key) : 0 < r.issued := by
  obtain ⟨record, hr, hv⟩ := hk
  rw [hs.issued_eq, Array.countP_pos_iff]
  exact ⟨record, Array.mem_of_getElem? hr, by simpa using hv⟩

theorem not_isIssued (hs : r.Sound) (h0 : r.issued = 0) (key : Nat) : ¬ r.IsIssued key :=
  fun hk => by
    have := hs.issued_pos hk
    omega

/-- No issued key waits. -/
theorem notMem_free (hs : r.Sound) {key : Nat} (hk : r.IsIssued key) : key ∉ r.free := by
  intro hmem
  obtain ⟨record, hr, hv⟩ := hk
  obtain ⟨record', hr', hv'⟩ := hs.vacant_of_mem_free key hmem
  rw [hr] at hr'
  cases hr'
  exact hv hv'

end Sound

/-! ### Taking keys back -/

/-- `s` is `r` once the listed keys are taken back. -/
structure Withdraws (r : Registry) (keys : List (Option Nat)) (s : Registry) : Prop where
  owner_eq : s.owner = r.owner
  /-- The listed keys are vacant, and everyone else's record is as it was. -/
  records_eq : ∀ key, s.records[key]? =
    if some key ∈ keys then r.records[key]?.map Record.retired else r.records[key]?
  /-- A key that waits did so before, or is a listed one whose count was not at its end. -/
  mem_free : ∀ key ∈ s.free, key ∈ r.free ∨ some key ∈ keys ∧
    ∀ record, r.records[key]? = some record → record.generation < lastGeneration

namespace Withdraws

variable {r s t : Registry} {keys : List (Option Nat)}

theorem nil (r : Registry) : r.Withdraws [] r := ⟨rfl, by simp, fun _ => Or.inl⟩

theorem single_none (r : Registry) : r.Withdraws [none] r := ⟨rfl, by simp, fun _ => Or.inl⟩

/-- Keys taken back one after another, none of them twice. -/
theorem cons {key : Option Nat} (hr : r.Withdraws [key] s) (hs : s.Withdraws keys t)
    (hk : ∀ k, key = some k → some k ∉ keys) : r.Withdraws (key :: keys) t := by
  refine ⟨hs.owner_eq.trans hr.owner_eq, ?_, ?_⟩
  · intro k
    rw [hs.records_eq, hr.records_eq]
    by_cases h : key = some k
    · subst h
      simp [hk k rfl]
    · simp [List.mem_cons, Ne.symm h]
  · intro k hmem
    rcases hs.mem_free k hmem with hmem | ⟨hkeys, hlt⟩
    · rcases hr.mem_free k hmem with hfree | ⟨hkey, hlt⟩
      · exact Or.inl hfree
      · rw [List.mem_singleton] at hkey
        exact Or.inr ⟨hkey ▸ List.mem_cons_self .., hlt⟩
    · have hne : some k ∉ [key] := fun h => hk k (List.mem_singleton.mp h).symm hkeys
      rw [hr.records_eq, if_neg hne] at hlt
      exact Or.inr ⟨List.mem_cons_of_mem _ hkeys, hlt⟩

theorem isIssued_iff (h : r.Withdraws keys s) (key : Nat) :
    s.IsIssued key ↔ r.IsIssued key ∧ some key ∉ keys := by
  unfold IsIssued
  rw [h.records_eq]
  by_cases hk : some key ∈ keys
  · simp only [hk, if_true, Option.map_eq_some_iff, not_true_eq_false, and_false, iff_false]
    intro hissued
    obtain ⟨-, ⟨record, -, rfl⟩, hv⟩ := hissued
    exact hv rfl
  · simp [hk]

theorem issues_iff (h : r.Withdraws keys s) (x : Handle) :
    s.Issues x ↔ r.Issues x ∧ some x.key ∉ keys := by
  unfold Issues
  rw [h.records_eq, h.owner_eq]
  by_cases hk : some x.key ∈ keys
  · simp only [hk, if_true, Option.map_eq_some_iff, not_true_eq_false, and_false, iff_false]
    intro hissued
    obtain ⟨-, -, ⟨record, -, rfl⟩, -, hv⟩ := hissued
    exact hv rfl
  · simp [hk]

theorem handleOf?_eq (h : r.Withdraws keys s) {key : Nat} (hk : some key ∉ keys) :
    s.handleOf? key = r.handleOf? key := by
  unfold handleOf?
  rw [h.records_eq, if_neg hk, handle_congr h.owner_eq]

theorem positionOf_eq (h : r.Withdraws keys s) (key : Nat) :
    s.positionOf key = if some key ∈ keys then none else r.positionOf key := by
  unfold positionOf
  rw [h.records_eq]
  split
  · cases r.records[key]? <;> rfl
  · rfl

theorem isSome_records (h : r.Withdraws keys s) (key : Nat) :
    s.records[key]?.isSome = r.records[key]?.isSome := by
  rw [h.records_eq]
  split <;> simp

end Withdraws

/-- One record less that is not vacant. -/
theorem countP_set_vacant {records : Array Record} {key : Nat} (hk : key < records.size)
    (hv : records[key].status ≠ .vacant) {record : Record} (hr : record.status = .vacant) :
    (records.set key record).countP (fun record => record.status ≠ .vacant) =
      records.countP (fun record => record.status ≠ .vacant) - 1 := by
  rw [Array.countP_set]
  simp [hv, hr]

/-- A record that was not vacant is retired, and its key waits unless its count is at the
end. -/
theorem Sound.of_retired {r s : Registry} (hs : r.Sound) {key : Nat} (hlt : key < r.records.size)
    (hv : r.records[key].status ≠ .vacant)
    (hrec : s.records = r.records.set key r.records[key].retired)
    (hissued : s.issued = r.issued - 1) (hnd : s.free.Nodup)
    (hfree : ∀ k, k ∈ s.free ↔
      k ∈ r.free ∨ k = key ∧ r.records[key].generation < lastGeneration) : s.Sound where
  free_nodup := hnd
  vacant_of_mem_free k hk := by
    by_cases hkey : k = key
    · subst hkey
      exact ⟨r.records[k].retired, by simp [hrec], rfl⟩
    · have hmem : k ∈ r.free := ((hfree k).mp hk).resolve_right fun h => hkey h.1
      obtain ⟨record, hr, hvacant⟩ := hs.vacant_of_mem_free k hmem
      exact ⟨record, by rwa [hrec, Array.getElem?_set_ne hlt (Ne.symm hkey)], hvacant⟩
  mem_free_of_vacant k record hr hvacant := by
    rw [hrec] at hr
    by_cases hkey : k = key
    · subst hkey
      simp only [Array.getElem?_set_self, Option.some.injEq] at hr
      subst hr
      by_cases hg : r.records[k].generation < lastGeneration
      · exact Or.inl ((hfree k).mpr (Or.inr ⟨rfl, hg⟩))
      · simp only [Record.retired, hg, if_false]
        exact Or.inr (Nat.le_of_not_lt hg)
    · rw [Array.getElem?_set_ne hlt (Ne.symm hkey)] at hr
      exact (hs.mem_free_of_vacant k record hr hvacant).imp_left fun hk => (hfree k).mpr (Or.inl hk)
  issued_eq := by rw [hissued, hrec, countP_set_vacant hlt hv rfl, hs.issued_eq]

/-- **Taking back** an issued key succeeds, and keeps a registry sound. -/
theorem Sound.retire {r : Registry} (hs : r.Sound) {key : Nat} (hk : r.IsIssued key) :
    ∃ s, r.retire key = .ok s ∧ s.Sound ∧ r.Withdraws [some key] s := by
  have hpos := hs.issued_pos hk
  have hfree := hs.notMem_free hk
  obtain ⟨record, hr, hv⟩ := hk
  obtain ⟨hlt, rfl⟩ := Array.getElem?_eq_some_iff.mp hr
  have hwith : ∀ k, (r.records.set key r.records[key].retired)[k]? =
      if some k ∈ [some key] then r.records[k]?.map Record.retired else r.records[k]? := by
    intro k
    by_cases h : k = key
    · subst h
      simp [hr]
    · simp [Ne.symm h, h]
  simp only [Registry.retire, hlt, dite_true, Nat.ne_of_gt hpos, if_false]
  by_cases hg : r.records[key].generation < lastGeneration
  · have hrec : (⟨r.records[key].generation + 1, .vacant⟩ : Record) = r.records[key].retired := by
      simp [Record.retired, hg]
    simp only [hg, if_true, hrec]
    refine ⟨_, rfl, hs.of_retired hlt hv rfl rfl ?_ ?_, rfl, hwith, ?_⟩
    · exact List.nodup_cons.mpr ⟨hfree, hs.free_nodup⟩
    · simp [hg, or_comm]
    · intro k hk
      rcases List.mem_cons.mp hk with rfl | hk
      · exact Or.inr ⟨List.mem_singleton_self _, fun record hrec => by cases hr ▸ hrec; exact hg⟩
      · exact Or.inl hk
  · have hrec : (⟨r.records[key].generation, .vacant⟩ : Record) = r.records[key].retired := by
      simp [Record.retired, hg]
    simp only [hg, if_false, hrec]
    exact ⟨_, rfl, hs.of_retired hlt hv rfl rfl hs.free_nodup (by simp [hg]), rfl, hwith,
      fun _ => Or.inl⟩

/-- Taking back the key of an element, if it has one. -/
theorem Sound.retire? {r : Registry} (hs : r.Sound) (key : Option Nat)
    (hk : ∀ k, key = some k → r.IsIssued k) :
    ∃ s, r.retire? key = .ok s ∧ s.Sound ∧ r.Withdraws [key] s := by
  cases key with
  | none => exact ⟨r, rfl, hs, .single_none r⟩
  | some k => exact hs.retire (hk k rfl)

/-- The first of a row of keys is not among the others, if no two slots share a key. -/
theorem notMem_of_nodup_keys {key : Option Nat} {keys : List (Option Nat)}
    (hnd : (key :: keys).reduceOption.Nodup) (k : Nat) (hkey : key = some k) : some k ∉ keys := by
  subst hkey
  rw [List.reduceOption_cons_of_some] at hnd
  exact fun hmem => (List.nodup_cons.mp hnd).1 (List.reduceOption_mem_iff.mpr hmem)

/-- The first of a row of keys is taken back, and the others still can be. -/
theorem Sound.retire?_head {r : Registry} (hs : r.Sound) {key : Option Nat}
    {keys : List (Option Nat)} (hnd : (key :: keys).reduceOption.Nodup)
    (hk : ∀ k, some k ∈ key :: keys → r.IsIssued k) :
    ∃ s, r.retire? key = .ok s ∧ s.Sound ∧ r.Withdraws [key] s ∧
      (∀ k, key = some k → some k ∉ keys) ∧ keys.reduceOption.Nodup ∧
      ∀ k, some k ∈ keys → s.IsIssued k := by
  obtain ⟨s, hrs, hss, hw⟩ := hs.retire? key fun k h => hk k (h ▸ List.mem_cons_self ..)
  have hkey := notMem_of_nodup_keys hnd
  refine ⟨s, hrs, hss, hw, hkey, ?_, ?_⟩
  · cases key with
    | none => simpa using hnd
    | some k => exact (List.nodup_cons.mp (by simpa using hnd)).2
  · intro k hmem
    refine (hw.isIssued_iff k).mpr ⟨hk k (List.mem_cons_of_mem _ hmem), ?_⟩
    intro h
    exact hkey k (List.mem_singleton.mp h).symm hmem

/-- Taking back the keys of all elements, no two of which share a key. -/
theorem Sound.retireAll {r : Registry} (hs : r.Sound) {keys : List (Option Nat)}
    (hnd : keys.reduceOption.Nodup) (hk : ∀ k, some k ∈ keys → r.IsIssued k) :
    ∃ s, r.retireAll keys = .ok s ∧ s.Sound ∧ r.Withdraws keys s := by
  induction keys generalizing r with
  | nil => exact ⟨r, rfl, hs, .nil r⟩
  | cons key keys ih =>
      obtain ⟨s, hrs, hss, hw, hkey, hnd', hk'⟩ := hs.retire?_head hnd hk
      obtain ⟨t, hst, hts, hwt⟩ := ih hss hnd' hk'
      exact ⟨t, by simp [Registry.retireAll, hrs, hst], hts, hw.cons hwt hkey⟩

/-! ### Issuing a key -/

/-- `s` is `r` once the handle `x` is issued. -/
structure Grants (r : Registry) (x : Handle) (s : Registry) : Prop where
  owner_eq : s.owner = r.owner
  handle_owner : x.owner = r.owner
  /-- The key was vacant, or there was no such key. -/
  before : r.records[x.key]? = some ⟨x.generation, .vacant⟩ ∨
    r.records[x.key]? = none ∧ x.generation = 0
  record_eq : s.records[x.key]? = some ⟨x.generation, .reserved⟩
  records_ne : ∀ key, key ≠ x.key → s.records[key]? = r.records[key]?
  /-- The key waited, next in turn, or there was no such key. -/
  free_eq : r.free = x.key :: s.free ∨ r.records[x.key]? = none ∧ s.free = r.free

namespace Grants

variable {r s : Registry} {x : Handle}

theorem not_isIssued (h : r.Grants x s) : ¬ r.IsIssued x.key := by
  intro hissued
  obtain ⟨record, hr, hv⟩ := hissued
  rcases h.before with hb | ⟨hb, -⟩
  · rw [hb] at hr
    cases hr
    exact hv rfl
  · rw [hb] at hr
    cases hr

theorem isIssued_iff (h : r.Grants x s) (key : Nat) :
    s.IsIssued key ↔ key = x.key ∨ r.IsIssued key := by
  by_cases hk : key = x.key
  · subst hk
    exact ⟨fun _ => Or.inl rfl, fun _ => ⟨_, h.record_eq, by simp⟩⟩
  · simp [IsIssued, h.records_ne key hk, hk]

theorem issues_iff (h : r.Grants x s) (y : Handle) : s.Issues y ↔ y = x ∨ r.Issues y := by
  have hx : s.Issues x := ⟨h.handle_owner.trans h.owner_eq.symm, _, h.record_eq, rfl, by simp⟩
  by_cases hk : y.key = x.key
  · refine ⟨fun hy => Or.inl (hy.eq_of_key_eq hx hk), ?_⟩
    intro hcase
    rcases hcase with rfl | hy
    · exact hx
    · exact absurd (hk ▸ hy.isIssued) h.not_isIssued
  · have hne : y ≠ x := fun hyx => hk (hyx ▸ rfl)
    simp [Issues, h.records_ne _ hk, h.owner_eq, hne]

theorem handleOf?_eq (h : r.Grants x s) {key : Nat} (hk : r.IsIssued key) :
    s.handleOf? key = r.handleOf? key := by
  have hne : key ≠ x.key := fun hkx => h.not_isIssued (hkx ▸ hk)
  unfold handleOf?
  rw [h.records_ne key hne, handle_congr h.owner_eq]

theorem positionOf_eq (h : r.Grants x s) (key : Nat) : s.positionOf key = r.positionOf key := by
  unfold positionOf
  by_cases hk : key = x.key
  · rw [hk, h.record_eq]
    rcases h.before with hb | ⟨hb, -⟩ <;> rw [hb] <;> rfl
  · rw [h.records_ne key hk]

theorem isSome_records (h : r.Grants x s) (key : Nat) :
    s.records[key]?.isSome = true ↔ key = x.key ∨ r.records[key]?.isSome = true := by
  by_cases hk : key = x.key
  · subst hk
    simp [h.record_eq]
  · simp [h.records_ne key hk, hk]

end Grants

/-- Issuing the key that waits on top keeps a registry sound. -/
theorem Sound.of_reissued {r : Registry} (hs : r.Sound) {key : Nat} {rest : List Nat}
    (hfree : r.free = key :: rest) (hlt : key < r.records.size)
    (hv : r.records[key].status = .vacant) :
    Sound { r with
      records := r.records.set key { r.records[key] with status := .reserved }
      free := rest
      issued := r.issued + 1 } := by
  have hnd := hs.free_nodup
  rw [hfree] at hnd
  obtain ⟨hkey, hrest⟩ := List.nodup_cons.mp hnd
  refine ⟨hrest, ?_, ?_, ?_⟩
  · intro k hk
    have hne : k ≠ key := fun h => hkey (h ▸ hk)
    obtain ⟨record, hr, hvacant⟩ :=
      hs.vacant_of_mem_free k (by rw [hfree]; exact List.mem_cons_of_mem _ hk)
    exact ⟨record, by rwa [Array.getElem?_set_ne hlt (Ne.symm hne)], hvacant⟩
  · intro k record hr hvacant
    have hne : k ≠ key := by
      intro hkk
      subst hkk
      simp only [Array.getElem?_set_self, Option.some.injEq] at hr
      subst hr
      cases hvacant
    rw [Array.getElem?_set_ne hlt (Ne.symm hne)] at hr
    refine (hs.mem_free_of_vacant k record hr hvacant).imp_left ?_
    intro hmem
    rw [hfree] at hmem
    exact (List.mem_cons.mp hmem).resolve_left hne
  · show r.issued + 1 = _
    rw [Array.countP_set, hs.issued_eq]
    simp [hv]

/-- Issuing a new key, when none waits, keeps a registry sound. -/
theorem Sound.of_extended {r : Registry} (hs : r.Sound) (hfree : r.free = []) :
    Sound { r with records := r.records.push {}, issued := r.issued + 1 } := by
  refine ⟨hs.free_nodup, ?_, ?_, ?_⟩
  · intro k hk
    rw [hfree] at hk
    cases hk
  · intro k record hr hv
    rw [Array.getElem?_push] at hr
    split at hr
    · cases hr
      cases hv
    · exact hs.mem_free_of_vacant k record hr hv
  · show r.issued + 1 = _
    rw [Array.countP_push, hs.issued_eq]
    simp

/-- **Issuing** a key succeeds while there are keys left, and keeps a registry sound. -/
theorem Sound.reserve {r : Registry} (hs : r.Sound) :
    (∃ x s, r.reserve = .ok (x, s) ∧ s.Sound ∧ r.Grants x s) ∨
      r.reserve = .error .keysExhausted ∧ r.free = [] ∧ keyLimit ≤ r.tracked := by
  unfold Registry.reserve
  split
  · next key rest hfree =>
      left
      obtain ⟨record, hr, hv⟩ :=
        hs.vacant_of_mem_free key (by rw [hfree]; exact List.mem_cons_self ..)
      obtain ⟨hlt, rfl⟩ := Array.getElem?_eq_some_iff.mp hr
      simp only [hlt, dite_true]
      refine ⟨_, _, rfl, hs.of_reissued hfree hlt hv, rfl, rfl, Or.inl ?_, ?_, ?_, Or.inl hfree⟩
      · simp [handle, hr, ← hv]
      · simp [handle]
      · intro k hne
        exact Array.getElem?_set_ne hlt (Ne.symm hne)
  · next hfree =>
      split
      · next hlt =>
          left
          refine ⟨_, _, rfl, hs.of_extended hfree, rfl, rfl, Or.inr ⟨?_, rfl⟩, ?_, ?_,
            Or.inr ⟨?_, rfl⟩⟩
          · simp [handle]
          · simp [handle]
          · intro k hne
            rw [Array.getElem?_push, if_neg (by simpa [handle] using hne)]
          · simp [handle]
      · next hge => exact Or.inr ⟨rfl, hfree, Nat.le_of_not_lt hge⟩

end Registry

end TrackedHeap
