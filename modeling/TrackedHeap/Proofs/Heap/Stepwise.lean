import TrackedHeap.Proofs.Heap.WellFormed
import TrackedHeap.Proofs.Sift.Course

/-!
# TrackedHeap.Proofs.Heap.Stepwise

**Sifting step by step**: a heap that tells its registry of every exchange as it makes it.

A heap adopts a sift as a whole: all slots first, then the positions of the whole path. Here it
goes through the sift instead, exchange by exchange. The slot that gives way is noted at once, the
sifted one when it has arrived, and the version counts the sift if anything moved
(`Heap.siftUp`, `Heap.siftDown`).

Both come to the same, and to something that can be said without either: the slots on the path are
shifted by one place, and the positions that the registry knows go with them (`Heap.carried`). The
loops are compared with the sift by induction on it. What carries the induction is that a slot that
gave way is not touched again, so it can be noted early or late.
-/

namespace TrackedHeap

variable {α : Type}

/-! ### Relocation -/

/-- The status of a key whose element went from each position to `f` of it. -/
def Status.relocate (f : Nat → Nat) : Status → Status
  | .vacant => .vacant
  | .reserved => .reserved
  | .bound position => .bound (f position)

/-- The record of such a key. -/
def Record.relocate (f : Nat → Nat) (record : Record) : Record :=
  { record with status := record.status.relocate f }

namespace Record

theorem unplaced_relocate (f : Nat → Nat) (record : Record) :
    (record.relocate f).unplaced = record.unplaced := by
  rcases record with ⟨generation, _ | _ | position⟩ <;> rfl

theorem position?_relocate (f : Nat → Nat) (record : Record) :
    (record.relocate f).status.position? = record.status.position?.map f := by
  rcases record with ⟨generation, _ | _ | position⟩ <;> rfl

/-- A record is known from its position and what it is without it. -/
theorem eq_of_unplaced {a b : Record} (hun : a.unplaced = b.unplaced)
    (hpos : a.status.position? = b.status.position?) : a = b := by
  rcases a with ⟨generation, _ | _ | position⟩ <;>
    rcases b with ⟨generation', _ | _ | position'⟩ <;>
    cases hun <;> cases hpos <;> rfl

end Record

namespace Registry

/-- The registry once the element at each position has gone to `f` of it. -/
def relocate (r : Registry) (f : Nat → Nat) : Registry :=
  { r with records := r.records.map (Record.relocate f) }

@[simp] theorem unplaced_relocate (r : Registry) (f : Nat → Nat) :
    (r.relocate f).unplaced = r.unplaced := by
  simp [relocate, unplaced, Function.comp_def, Record.unplaced_relocate]

@[simp] theorem positionOf_relocate (r : Registry) (f : Nat → Nat) (key : Nat) :
    (r.relocate f).positionOf key = (r.positionOf key).map f := by
  unfold positionOf relocate
  rw [Array.getElem?_map]
  cases r.records[key]? with
  | none => rfl
  | some record => exact record.position?_relocate f

/-- A registry is known from the positions and what it is without them. -/
theorem eq_of_unplaced {r s : Registry} (hun : s.unplaced = r.unplaced)
    (hpos : ∀ key, s.positionOf key = r.positionOf key) : s = r := by
  have hrecords : s.records = r.records := by
    refine Array.ext_getElem? fun key => ?_
    have hrec := congrArg (fun t : Registry => t.records[key]?) hun
    have hkey := hpos key
    simp only [unplaced_records] at hrec
    unfold positionOf at hkey
    cases hs : s.records[key]? with
    | none =>
        rw [hs] at hrec
        exact (Option.map_eq_none_iff.mp hrec.symm).symm
    | some a =>
        rw [hs] at hrec hkey
        obtain ⟨b, hr, hab⟩ := Option.map_eq_some_iff.mp hrec.symm
        rw [hr] at hkey ⊢
        rw [Record.eq_of_unplaced hab.symm hkey]
  have hfree := congrArg Registry.free hun
  have hissued := congrArg Registry.issued hun
  cases s
  cases r
  cases owner_congr hun
  cases hrecords
  cases hfree
  cases hissued
  rfl

theorem relocate_id (r : Registry) : r.relocate id = r :=
  eq_of_unplaced (r.unplaced_relocate id) fun key => by simp

theorem follow_append (r : Registry) (slots : Array (Slot α)) (path path' : List Nat) :
    r.follow slots (path ++ path') = r.follow slots path >>= (·.follow slots path') := by
  induction path generalizing r with
  | nil => rfl
  | cons i path ih =>
      simp only [List.cons_append, follow]
      cases r.place slots i with
      | error fault => rfl
      | ok s => exact ih s

theorem follow_singleton (r : Registry) (slots : Array (Slot α)) (i : Nat) :
    r.follow slots [i] = r.place slots i := by
  rw [follow]
  exact bind_pure (r.place slots i)

/-- Where a slot is depends on that slot alone. -/
theorem place_congr (r : Registry) {slots slots' : Array (Slot α)} {i : Nat}
    (h : slots'[i]? = slots[i]?) : r.place slots' i = r.place slots i := by
  simp only [place, h]

end Registry

/-- **A registry that follows a sift is relocated along its path**, if it was tied to the slots. -/
theorem Tied.follow_eq {slots : Array (Slot α)} {r : Registry} (ht : Tied slots r) {s : Sifted α}
    (hs : s.Cycles slots) {i : Nat} (hi : i ∈ s.path) (hlt : ∀ j ∈ s.path, j < s.slots.size) :
    r.follow s.slots s.path = .ok (r.relocate s.path.formPerm.symm) ∧
      Tied s.slots (r.relocate s.path.formPerm.symm) := by
  obtain ⟨t, hfollow, hun, htied⟩ :=
    (TiedOff.of_tied ht (fun _ => rfl) i).follow hs.rearranges hi hlt
  have hpos : ∀ key, t.positionOf key = (r.relocate s.path.formPerm.symm).positionOf key := by
    intro key
    rw [Registry.positionOf_relocate]
    refine Option.ext fun j => ?_
    have hkey : keyAt s.slots j = keyAt slots (s.path.formPerm j) := by
      rw [keyAt, keyAt, hs j]
    calc t.positionOf key = some j
        ↔ keyAt slots (s.path.formPerm j) = some key := by rw [← htied, hkey]
      _ ↔ r.positionOf key = some (s.path.formPerm j) := ht ..
      _ ↔ (r.positionOf key).map s.path.formPerm.symm = some j := by
        simp only [Option.map_eq_some_iff, Equiv.symm_apply_eq, exists_eq_right]
  have heq : t = r.relocate s.path.formPerm.symm :=
    Registry.eq_of_unplaced (hun.trans (r.unplaced_relocate _).symm) hpos
  exact ⟨heq ▸ hfollow, heq ▸ htied⟩

/-! ### The loops -/

namespace Stepwise

/-- A sift under way. -/
structure Sifting (α : Type) where
  /-- The slots after the exchanges so far. -/
  slots : Array (Slot α)
  /-- The registry, which knows where the slots are that gave way. -/
  registry : Registry
  /-- Where the sifted slot is. -/
  position : Nat

variable (p : Priority α)

/-- Exchanges the slot at `i` with its parent for as long as that ranks strictly behind it. -/
def up (slots : Array (Slot α)) (r : Registry) (i : Nat) (hi : i < slots.size) :
    Except Fault (Sifting α) :=
  if h : 0 < i then
    have hp : parent i < slots.size := Nat.lt_trans (parent_lt h) hi
    if p.exceeds slots[parent i].value slots[i].value then do
      let r ← r.place (slots.swap (parent i) i) i
      up (slots.swap (parent i) i) r (parent i) (by simpa using hp)
    else .ok ⟨slots, r, i⟩
  else .ok ⟨slots, r, i⟩
termination_by i
decreasing_by exact parent_lt h

/-- Exchanges the slot at `i` with the first of those below it for as long as it ranks strictly
behind that. -/
def down (slots : Array (Slot α)) (r : Registry) (i : Nat) (hi : i < slots.size) :
    Except Fault (Sifting α) :=
  if hl : leftChild i < slots.size then
    have hc : Sift.firstChild p slots i hl < slots.size := Sift.firstChild_lt_size hl
    if p.exceeds slots[i].value slots[Sift.firstChild p slots i hl].value then do
      let r ← r.place (slots.swap i (Sift.firstChild p slots i hl)) i
      down (slots.swap i (Sift.firstChild p slots i hl)) r (Sift.firstChild p slots i hl)
        (by simpa using hc)
    else .ok ⟨slots, r, i⟩
  else .ok ⟨slots, r, i⟩
termination_by slots.size - i
decreasing_by
  have := Sift.lt_firstChild (p := p) hl
  simp only [Array.size_swap]
  omega

/-- What a loop comes to that goes through the sift `s`: the slots of it, and a registry that has
followed the path but for the last place, `j`. -/
def noted (s : Sifted α) (before : List Nat) (j : Nat) (r : Registry) : Except Fault (Sifting α) :=
  (r.follow s.slots before).map fun r => ⟨s.slots, r, j⟩

/-- A slot that gave way stays where it is, so noting it at once is noting it in the end. -/
theorem place_bind_noted {slots : Array (Slot α)} {s : Sifted α} (hs : s.Cycles slots) {i : Nat}
    (hi : i ∉ s.path) (r : Registry) (later : List Nat) (j : Nat) :
    r.place slots i >>= noted s later j = noted (s.startingAt i) (i :: later) j r := by
  rw [noted, Sifted.slots_startingAt, Registry.follow,
    r.place_congr (hs.getElem?_of_notMem hi)]
  cases r.place slots i with
  | error fault => rfl
  | ok r => rfl

/-- A path from `i` on that goes further leaves `i` behind. -/
theorem exists_cons_of_startingAt {s : Sifted α} {i c j : Nat} {before : List Nat}
    (hc : c ∈ s.path) (h : (s.startingAt i).path = before ++ [j]) :
    ∃ later, before = i :: later ∧ s.path = later ++ [j] := by
  rw [Sifted.path_startingAt] at h
  cases before with
  | nil =>
      rw [(List.cons.inj h).2] at hc
      cases hc
  | cons b later =>
      obtain ⟨rfl, hpath⟩ := List.cons.inj h
      exact ⟨later, rfl, hpath⟩

/-- A path of one place leaves nothing behind. -/
theorem noted_of_singleton {slots : Array (Slot α)} {i j : Nat} {before : List Nat}
    (h : (Sifted.mk slots [i]).path = before ++ [j]) (r : Registry) :
    noted ⟨slots, [i]⟩ before j r = .ok ⟨slots, r, i⟩ := by
  cases before with
  | nil =>
      cases h
      rfl
  | cons b later => simp at h

/-- **Noting on the way up** comes to the slots of the sift. -/
theorem up_eq {slots : Array (Slot α)} {i : Nat} (hi : i < slots.size) (r : Registry)
    {before : List Nat} {j : Nat} (hpath : (Sift.up p slots i hi).path = before ++ [j]) :
    up p slots r i hi = noted (Sift.up p slots i hi) before j r := by
  fun_induction Sift.up p slots i hi generalizing r before with
  | case1 slots i hi h hp hx ih =>
      obtain ⟨later, rfl, hrest⟩ := exists_cons_of_startingAt (Sift.mem_path_up p _ _ _) hpath
      rw [up, dif_pos h, if_pos hx, ← place_bind_noted (Sift.cycles_up p _ _ _)
        (Sift.notMem_path_up_parent p h _)]
      exact bind_congr fun r => ih r hrest
  | case2 slots i hi h hp hx =>
      rw [up, dif_pos h, if_neg hx, noted_of_singleton hpath]
  | case3 slots i hi h => rw [up, dif_neg h, noted_of_singleton hpath]

/-- **Noting on the way down** does so too. -/
theorem down_eq {slots : Array (Slot α)} {i : Nat} (hi : i < slots.size) (r : Registry)
    {before : List Nat} {j : Nat} (hpath : (Sift.down p slots i hi).path = before ++ [j]) :
    down p slots r i hi = noted (Sift.down p slots i hi) before j r := by
  fun_induction Sift.down p slots i hi generalizing r before with
  | case1 slots i hi hl hc hx ih =>
      obtain ⟨later, rfl, hrest⟩ := exists_cons_of_startingAt (Sift.mem_path_down p _ _ _) hpath
      rw [down, dif_pos hl, if_pos hx, ← place_bind_noted (Sift.cycles_down p _ _ _)
        (Sift.notMem_path_down_of_lt p (Sift.lt_firstChild hl) _)]
      exact bind_congr fun r => ih r hrest
  | case2 slots i hi hl hc hx =>
      rw [down, dif_pos hl, if_neg hx, noted_of_singleton hpath]
  | case3 slots i hi hl => rw [down, dif_neg hl, noted_of_singleton hpath]

end Stepwise

namespace Heap

variable (h : Heap α)

/-- Takes over what a sift that began at `i` has come to. If the slot has left its place, it is
noted where it is now, and the version counts the sift. -/
def arrive (i : Nat) (s : Stepwise.Sifting α) : Except Fault (Heap α × Bool) :=
  if s.position = i then .ok ({ h with slots := s.slots, registry := s.registry }, false)
  else do
    let registry ← s.registry.place s.slots s.position
    pure ({ h with slots := s.slots, registry := registry, version := h.version + 1 }, true)

/-- Sifts the slot at `i` up step by step, and answers whether it has left its place. -/
def siftUp (i : Nat) (hi : i < h.slots.size) : Except Fault (Heap α × Bool) := do
  let s ← Stepwise.up h.priority h.slots h.registry i hi
  h.arrive i s

/-- Sifts the slot at `i` down step by step, and answers whether it has left its place. -/
def siftDown (i : Nat) (hi : i < h.slots.size) : Except Fault (Heap α × Bool) := do
  let s ← Stepwise.down h.priority h.slots h.registry i hi
  h.arrive i s

/-! ### What a sift comes to -/

/-- The heap with the slots of a sift. The positions that the registry knows are shifted along the
path, the version counts the sift if anything moved, and all else is as it was. -/
def carried (s : Sifted α) : Heap α :=
  { h with
    slots := s.slots
    registry := h.registry.relocate s.path.formPerm.symm
    version := h.version + if s.moved then 1 else 0 }

/-- The sift `s` takes the slot at `i` to `j`, and the heap through `outcome` when it is done step
by step. -/
structure Carries (s : Sifted α) (outcome : Except Fault (Heap α × Bool)) (i j : Nat) : Prop where
  moved_iff : s.moved = true ↔ j ≠ i
  /-- The slots on the path are shifted by one place, and the others are where they were. -/
  cycles : s.Cycles h.slots
  /-- The registry knows where the slots are. -/
  tied : Tied (h.carried s).slots (h.carried s).registry
  /-- It knows of other positions exactly for the keys of the slots that have moved. -/
  positionOf_ne_iff : ∀ key,
    (h.carried s).registry.positionOf key ≠ h.registry.positionOf key ↔
      s.moved = true ∧ ∃ k ∈ s.path, keyAt h.slots k = some key
  outcome_eq : outcome = .ok (h.carried s, s.moved)
  /-- Adopting the sift as a whole counts the change before it, and is the same otherwise. -/
  adopt_eq : h.adopt s = .ok { h.carried s with version := (h.carried s).version + 1 }

variable {h} {s : Sifted α} {before : List Nat} {i j : Nat}

/-- A slot has moved if its path ends elsewhere. -/
theorem moved_iff_of_path (hhead : s.path.head? = some i) (hpath : s.path = before ++ [j])
    (hnodup : s.path.Nodup) : s.moved = true ↔ j ≠ i := by
  rw [hpath] at hhead hnodup
  rw [Sifted.moved, decide_eq_true_iff, hpath]
  cases before with
  | nil =>
      cases hhead
      simp
  | cons b later =>
      cases hhead
      have hne : j ≠ i := by
        intro hji
        simp [hji] at hnodup
      simp [hne]

/-- The keys whose positions change when a tied registry is relocated along a path. -/
theorem positionOf_relocate_ne_iff (ht : Tied h.slots h.registry) {path : List Nat}
    (hnodup : path.Nodup) (key : Nat) :
    (h.registry.relocate path.formPerm.symm).positionOf key ≠ h.registry.positionOf key ↔
      1 < path.length ∧ ∃ k ∈ path, keyAt h.slots k = some key := by
  rw [Registry.positionOf_relocate]
  cases hpos : h.registry.positionOf key with
  | none => simp [ht _ key, hpos]
  | some k =>
      have hkey : ∀ l, keyAt h.slots l = some key ↔ k = l := fun l => by
        rw [ht, hpos, Option.some.injEq]
      simp only [hkey, exists_eq_right', Option.map_some, ne_eq, Option.some.injEq,
        Equiv.symm_apply_eq]
      rw [eq_comm]
      by_cases hk : k ∈ path
      · simp only [hk, and_true]
        rw [List.formPerm_apply_mem_eq_self_iff path hnodup k hk, Nat.not_le]
      · simp [hk, List.formPerm_apply_of_notMem hk]

/-- Arriving where the sift began, there is nothing to note. -/
theorem noted_bind_arrive_self (hpath : s.path = [i]) :
    Stepwise.noted s [] i h.registry >>= h.arrive i = .ok (h.carried s, false) := by
  have hm : s.moved = false := by simp [Sifted.moved, hpath]
  have hsame : h.registry.relocate s.path.formPerm.symm = h.registry := by
    rw [hpath, List.formPerm_singleton]
    exact h.registry.relocate_id
  simp [Stepwise.noted, arrive, carried, hm, hsame, bind, Except.bind, Except.map]

/-- Arriving elsewhere, the registry is told of the last place. -/
theorem noted_bind_arrive (hpath : s.path = before ++ [j]) (hji : j ≠ i) (hm : s.moved = true)
    (hfollow : h.registry.follow s.slots s.path =
      .ok (h.registry.relocate s.path.formPerm.symm)) :
    Stepwise.noted s before j h.registry >>= h.arrive i = .ok (h.carried s, true) := by
  rw [hpath, Registry.follow_append, ← hpath] at hfollow
  unfold Stepwise.noted
  cases hb : h.registry.follow s.slots before with
  | error fault =>
      rw [hb] at hfollow
      cases hfollow
  | ok r =>
      rw [hb] at hfollow
      have hplace : r.place s.slots j = .ok (h.registry.relocate s.path.formPerm.symm) :=
        (r.follow_singleton s.slots j).symm.trans hfollow
      simp [arrive, carried, hm, hji, hplace, bind, Except.bind, Except.map, pure, Except.pure]

/-- **A sift carries its slot**, whichever way it goes: a path without repetition along which the
slots were shifted is all that this needs. -/
theorem carries_of_cycles (ht : Tied h.slots h.registry) (hs : s.Cycles h.slots)
    (hhead : s.path.head? = some i) (hpath : s.path = before ++ [j]) (hnodup : s.path.Nodup)
    (hlt : ∀ k ∈ s.path, k < s.slots.size) :
    h.Carries s (Stepwise.noted s before j h.registry >>= h.arrive i) i j := by
  obtain ⟨hfollow, htied⟩ := ht.follow_eq hs (List.mem_of_head? hhead) hlt
  have hmoved := moved_iff_of_path hhead hpath hnodup
  refine ⟨hmoved, hs, htied, fun key => ?_, ?_, ?_⟩
  · rw [Sifted.moved, decide_eq_true_iff]
    exact positionOf_relocate_ne_iff ht hnodup key
  · by_cases hji : j = i
    · subst hji
      have hm : s.moved = false := by simpa using hmoved
      have hbefore : before = [] := by
        rw [Sifted.moved, decide_eq_false_iff_not, hpath, List.length_append] at hm
        exact List.eq_nil_of_length_eq_zero (by simpa using hm)
      rw [hm, hbefore]
      exact noted_bind_arrive_self (by rw [hpath, hbefore, List.nil_append])
    · rw [hmoved.mpr hji]
      exact noted_bind_arrive hpath hji (hmoved.mpr hji) hfollow
  · simp only [adopt, hfollow, carried, bind, Except.bind, pure, Except.pure]
    cases s.moved with
    | false => simp
    | true =>
        have htwo : (2 : UInt64) = 1 + 1 := rfl
        simp [htwo, UInt64.add_assoc]

/-! ### The two sifts -/

/-- **What a sift does.** Let the slots of a heap be tied to its registry; the ranking may be any
function.

* Sifting up carries the slot at `i` along the line above it, past every slot that ranks strictly
  behind it and to below the first that does not.
* Sifting down carries it along the line of the first of the slots below, past every one that it
  ranks strictly behind and to above the first that it does not.

Either way the slots on the path are shifted by one place, with their keys. The registry knows of
other positions exactly for the keys of the slots that have moved, and of the right ones; the
version counts the sift, and the answer is yes, exactly if the slot has left its place. Nothing
else has changed, and adopting the sift as a whole comes to the same. -/
theorem sifts_carry (ht : Tied h.slots h.registry) (hi : i < h.slots.size) :
    (∃ d, Rise h.priority h.slots i d (Sift.up h.priority h.slots i hi) ∧
      (Sift.up h.priority h.slots i hi).path = List.iterate parent i (d + 1) ∧
      h.Carries (Sift.up h.priority h.slots i hi) (h.siftUp i hi) i (parent^[d] i)) ∧
    ∃ j d, Fall h.priority h.slots i j d (Sift.down h.priority h.slots i hi) ∧
      (Sift.down h.priority h.slots i hi).path = (List.iterate parent j (d + 1)).reverse ∧
      h.Carries (Sift.down h.priority h.slots i hi) (h.siftDown i hi) i j := by
  constructor
  · obtain ⟨d, hrise, hline⟩ := Sift.exists_rise_along h.priority h.slots i hi
    refine ⟨d, hrise, hline, ?_⟩
    have hpath := hline.trans (List.iterate_add parent i d 1)
    rw [siftUp, Stepwise.up_eq h.priority hi h.registry hpath]
    exact carries_of_cycles ht (Sift.cycles_up _ _ i hi) (Sift.head?_path_up ..) hpath
      (Sift.nodup_path_up ..) (by simpa using Sift.path_up_lt_size h.priority h.slots i hi)
  · obtain ⟨j, d, hfall, hline⟩ := Sift.exists_fall_along h.priority h.slots i hi
    refine ⟨j, d, hfall, hline, ?_⟩
    have hpath : (Sift.down h.priority h.slots i hi).path =
        (List.iterate parent (parent j) d).reverse ++ [j] := hline.trans List.reverse_cons
    rw [siftDown, Stepwise.down_eq h.priority hi h.registry hpath]
    exact carries_of_cycles ht (Sift.cycles_down _ _ i hi) (Sift.head?_path_down ..) hpath
      (Sift.nodup_path_down ..) (by simpa using Sift.path_down_lt_size h.priority h.slots i hi)

/-- A heap to which this applies, with a ranking that puts every element behind every other: the
last slot rises to the root, and the root sinks to the right. -/
theorem sifts_carry_of_four : ∃ (h : Heap Nat) (h0 : 0 < h.slots.size) (h3 : 3 < h.slots.size),
    Tied h.slots h.registry ∧ h.registry.positionOf 1 = some 3 ∧
    ((Sift.up h.priority h.slots 3 h3).path = [3, 1, 0] ∧
      h.siftUp 3 h3 = .ok (h.carried (Sift.up h.priority h.slots 3 h3), true) ∧
      (h.carried (Sift.up h.priority h.slots 3 h3)).registry.positionOf 1 ≠ some 3) ∧
    (Sift.down h.priority h.slots 0 h0).path = [0, 2] ∧
      h.siftDown 0 h0 = .ok (h.carried (Sift.down h.priority h.slots 0 h0), true) ∧
      (h.carried (Sift.down h.priority h.slots 0 h0)).registry.positionOf 1 = some 3 := by
  obtain ⟨h, h0, h3, ht, hpos, hkey, hup, hdown⟩ : ∃ (h : Heap Nat) (h0 : 0 < h.slots.size)
      (h3 : 3 < h.slots.size), Tied h.slots h.registry ∧ h.registry.positionOf 1 = some 3 ∧
      keyAt h.slots 3 = some 1 ∧ (Sift.up h.priority h.slots 3 h3).path = [3, 1, 0] ∧
      (Sift.down h.priority h.slots 0 h0).path = [0, 2] :=
    ⟨{ id := ⟨1⟩
       priority := .custom fun _ _ => .gt
       policy := {}
       slotSize := .word
       slots := #[⟨5, some 0⟩, ⟨6, none⟩, ⟨7, none⟩, ⟨8, some 1⟩]
       registry := { owner := ⟨2⟩, records := #[⟨0, .bound 0⟩, ⟨4, .bound 3⟩], issued := 2 }
       floor_lt := by decide },
      by decide, by decide, by decide, by decide, by decide, by decide +kernel, by decide +kernel⟩
  obtain ⟨⟨d, -, -, hrises⟩, -⟩ := sifts_carry ht h3
  obtain ⟨-, j, e, -, -, hsinks⟩ := sifts_carry ht h0
  have hrose : (Sift.up h.priority h.slots 3 h3).moved = true := by simp [Sifted.moved, hup]
  have hsank : (Sift.down h.priority h.slots 0 h0).moved = true := by simp [Sifted.moved, hdown]
  refine ⟨h, h0, h3, ht, hpos, ⟨hup, hrose ▸ hrises.outcome_eq, ?_⟩, hdown,
    hsank ▸ hsinks.outcome_eq, ?_⟩
  · rw [← hpos]
    exact (hrises.positionOf_ne_iff 1).mpr ⟨hrose, 3, by simp [hup], hkey⟩
  · rw [← hpos]
    by_contra hne
    obtain ⟨-, k, hk, hat⟩ := (hsinks.positionOf_ne_iff 1).mp hne
    cases ht.injective hat hkey
    simp [hdown] at hk

end Heap

end TrackedHeap
