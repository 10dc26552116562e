import TrackedHeap.Proofs.Bag.Runs
import TrackedHeap.Proofs.Checked.Requests
import TrackedHeap.Proofs.Heap.Tenure
import TrackedHeap.Proofs.World.Capacity

/-!
# TrackedHeap.Proofs.World.Traps

**A run with checks is cut short by the limits of the machine only.**

`Checked.exec` carries a command out with all its checks. On the heaps that a run reaches no check
fails: the cross-references between slots and records are those of a well-formed heap, and all
counts stay below the limits of storage and of keys, far from the ceiling of a word. So a command
comes to the same with checks and without (`Checked.exec_eq`), and what is left of its traps are the
two faults by which a heap says that it is out of storage or out of keys (`World.Exceeds`).
-/

namespace TrackedHeap

variable {α : Type}

/-- Whether a request asks for a handle to be issued. -/
def Op.issues : Op α → Bool
  | reserve | insert _ => true
  | _ => false

namespace Checked

/-- Carries a command out, as `World.exec` does. Commands that neither count nor read an array have
nothing to check. -/
def exec [BEq α] (w : World α) : Command α → Option (Except Trap (Step α (Reply α)))
  | .create policy priority size => some do
      let (h, mint) ← lift (Heap.create policy priority size w.mint)
      pure ⟨{ w.addHeap h with mint := mint }, [], .ok (.number w.heaps.size)⟩
  | .collect priority promised values size => some do
      let policy := ({} : StoragePolicy).withFloor (max promised StoragePolicy.defaultFloor)
      let (h, mint) ← lift (Heap.create policy priority size w.mint)
      let o ← extend h mint values
      pure ⟨{ w.addHeap o.heap with mint := o.mint }, o.events, .ok (.number w.heaps.size)⟩
  | .act heap op => do
      let h ← w.heap? heap
      pure ((run h w.mint op).map fun o =>
        ⟨{ w.setHeap heap (some o.heap) with mint := o.mint }, o.events, o.answer⟩)
  | .drain heap => do
      let h ← w.heap? heap
      pure ((drain h w.mint).map fun o =>
        ⟨{ w.setHeap heap none with mint := o.mint }, o.events, o.answer.map .values⟩)
  | .step cursor heap => do
      let c ← w.cursors[cursor]?
      let h ← w.heap? heap
      pure ((next c h).map fun (shown, c) =>
        ⟨w.setCursor cursor c, [], (shown.map .found).mapError .refused⟩)
  | .stepToEnd cursor heap => do
      let c ← w.cursors[cursor]?
      let h ← w.heap? heap
      pure ((rest c h).map fun (shown, c) =>
        ⟨w.setCursor cursor c, [], (shown.map .values).mapError .refused⟩)
  | .consume heap => (w.exec (.consume heap)).map .ok
  | .openCursor heap => (w.exec (.openCursor heap)).map .ok
  | .copyCursor cursor => (w.exec (.copyCursor cursor)).map .ok
  | .restart cursor heap => (w.exec (.restart cursor heap)).map .ok

end Checked

/-! ### Limits -/

/-- A heap is not made if its floor cannot be allocated, and for no other reason. -/
theorem Heap.le_floor_of_create {policy : StoragePolicy} {priority : Priority α} {size : SlotSize}
    {m : Mint} {cause : Fault} (hc : Heap.create policy priority size m = .error cause) :
    cause = .capacityOverflow ∧ size.limit ≤ policy.floor := by
  unfold Heap.create at hc
  split at hc
  · cases hc
  · next hnot =>
      cases hc
      exact ⟨rfl, Nat.le_of_not_lt hnot⟩

/-- A row of elements is cut off where the heap is full and cannot grow. -/
theorem Op.Effect.atLimit_extend [BEq α] {h : Heap α} {m : Mint} {values : List α}
    {o : Outcome α (Reply α)} (he : (Op.extend values).Effect h m o) {failure : Failure}
    (ha : o.answer = .error failure) :
    failure = .fault .capacityOverflow ∧ o.heap.AtLimit := by
  induction values generalizing h o with
  | nil =>
      cases he
      cases ha
  | cons value rest ih =>
      cases he with
      | extendMore hs ho =>
          obtain ⟨hfull, hl⟩ := ih ho ha
          exact ⟨hfull, hl⟩
      | extendFull hl =>
          cases ha
          exact ⟨rfl, hl⟩

theorem Heap.WellFormed.atLimit_extend [BEq α] {h : Heap α} (hw : h.WellFormed) {m : Mint}
    {values : List α} {failure : Failure} (ha : (h.extend m values).answer = .error failure) :
    failure = .fault .capacityOverflow ∧ (h.extend m values).heap.AtLimit := by
  have hrun : ((Op.extend values).run h m).answer = .error failure := by
    simp only [Op.run, Outcome.map, ha]
    rfl
  exact (Op.effect hw m (.extend values)).atLimit_extend hrun

/-- **A request that is cut off** has come to a limit: the heap it leaves is full and cannot grow,
or the heap had no key left. -/
theorem Op.Effect.limit_of_fault [BEq α] {h : Heap α} (hw : h.WellFormed) {m : Mint} {op : Op α}
    {o : Outcome α (Reply α)} (he : op.Effect h m o) {cause : Fault}
    (ha : o.answer = .error (.fault cause)) :
    cause = .capacityOverflow ∧ op.inserts = true ∧ o.heap.AtLimit ∨
      cause = .keysExhausted ∧ op.issues = true ∧ h.registry.free = [] ∧
        Registry.keyLimit ≤ h.registry.tracked := by
  have hspent : h.registry.reserve = .error .keysExhausted →
      h.registry.free = [] ∧ Registry.keyLimit ≤ h.registry.tracked := by
    intro hres
    rcases hw.registry.reserve with ⟨x, r, hok, -⟩ | ⟨-, hfree, hlimit⟩
    · cases hres.symm.trans hok
    · exact ⟨hfree, hlimit⟩
  cases he with
  | pushFull hl | insertFull hres hr hg hl | insertWithFull hu hl | extendFull hl =>
      cases ha
      exact Or.inl ⟨rfl, rfl, hl⟩
  | extendMore hs ho =>
      obtain ⟨heq, hl⟩ := ho.atLimit_extend ha
      cases heq
      exact Or.inl ⟨rfl, rfl, hl⟩
  | exhausted hres | insertExhausted hres =>
      cases ha
      exact Or.inr ⟨rfl, rfl, hspent hres⟩
  | pushed | extended | reserved | inserted | released | releaseRefused | insertedWith
  | insertWithRefused | popped | popEmpty | removed | removeRefused | removedFirst | noneFirst
  | removedValue | noValue | updated | updateRefused | cleared | trimmed | untrimmed => cases ha

/-! ### One command -/

namespace Checked

theorem extend_of_create {policy : StoragePolicy} {priority : Priority α} {size : SlotSize}
    {m m' : Mint} {h : Heap α} (hc : Heap.create policy priority size m = .ok (h, m'))
    (values : List α) :
    extend h m' values = unlessFault (h.extend m' values).answer (h.extend m' values) :=
  extend_eq (Heap.wellFormed_create hc) (Heap.housed_create hc) m' values

/-- Without a fault there is nothing that cuts it short. -/
theorem unlessFault_mapError {β γ : Type} (answer : Except Refusal β) (x : γ) :
    unlessFault (answer.mapError .refused) x = .ok x := by
  cases answer <;> rfl

/-- **One command** comes to the same with checks and without, and is cut short where its answer is
a fault. -/
theorem exec_eq [BEq α] {w : World α} (hw : ∀ n h, w.heap? n = some h → h.Checkable)
    (command : Command α) :
    exec w command = (w.exec command).map fun s => unlessFault s.answer s := by
  cases command with
  | create policy priority size =>
      simp only [exec, World.exec, World.create]
      cases Heap.create policy priority size w.mint <;> rfl
  | collect priority promised values size =>
      simp only [exec, World.exec]
      rcases w.collect_cases priority promised values size rfl with ⟨cause, hc, heq⟩ |
        ⟨h, m, failure, hc, hans, heq⟩ | ⟨h, m, hc, hans, heq⟩
      · rw [heq, hc]
        rfl
      · obtain ⟨rfl, -⟩ := (Heap.wellFormed_create hc).atLimit_extend hans
        rw [heq, hc]
        simp only [lift_ok, bind, Except.bind, extend_of_create hc, hans]
        rfl
      · rw [heq, hc]
        simp only [lift_ok, bind, Except.bind, extend_of_create hc, hans]
        rfl
  | act n op =>
      simp only [exec, World.exec, World.onHeap]
      cases hn : w.heap? n with
      | none => rfl
      | some h =>
          simp only [bind, Option.bind, run_eq (hw n h hn), map_unlessFault]
          rfl
  | drain n =>
      simp only [exec, World.exec]
      cases hn : w.heap? n with
      | none => rfl
      | some h =>
          obtain ⟨hwell, hh, -⟩ := hw n h hn
          obtain ⟨values, hans, -⟩ := hwell.drain_values w.mint
          simp only [bind, Option.bind, drain_eq hwell hh, pure, Option.map, Except.map, hans]
          rfl
  | consume n | openCursor n =>
      simp only [exec, World.exec]
      cases w.heap? n <;> rfl
  | copyCursor j =>
      simp only [exec, World.exec]
      cases w.cursors[j]? <;> rfl
  | step j n =>
      simp only [exec, World.exec]
      cases w.cursors[j]? with
      | none => rfl
      | some c =>
          cases hn : w.heap? n with
          | none => rfl
          | some h =>
              simp only [bind, Option.bind, next_eq (hw n h hn).housed, pure, Option.map,
                unlessFault_mapError]
              rfl
  | stepToEnd j n =>
      simp only [exec, World.exec]
      cases w.cursors[j]? with
      | none => rfl
      | some c =>
          cases hn : w.heap? n with
          | none => rfl
          | some h =>
              simp only [bind, Option.bind, rest_eq (hw n h hn).housed, pure, Option.map,
                unlessFault_mapError]
              rfl
  | restart j n =>
      simp only [exec, World.exec]
      cases w.cursors[j]? with
      | none => rfl
      | some c => cases w.heap? n <;> rfl

end Checked

namespace World

/-- The limits of the machine at which a command is cut off, in the world `w` and with the step `s`
that is left. -/
inductive Exceeds (w : World α) (s : Step α (Reply α)) : Command α → Fault → Prop
  /-- The floor of the heap to make cannot be allocated. -/
  | floor {policy : StoragePolicy} {priority : Priority α} {size : SlotSize}
      (hl : size.limit ≤ policy.floor) :
      Exceeds w s (.create policy priority size) .capacityOverflow
  /-- As many elements as are promised, or the few that a heap has room for in any case, cannot be
  allocated. -/
  | promise {priority : Priority α} {promised : Nat} {values : List α} {size : SlotSize}
      (hl : size.limit ≤ max promised StoragePolicy.defaultFloor) :
      Exceeds w s (.collect priority promised values size) .capacityOverflow
  /-- The heap that was made became full before all elements were in it, and cannot grow. -/
  | fill {priority : Priority α} {promised : Nat} {values : List α} {size : SlotSize}
      {policy : StoragePolicy} {h : Heap α} {m : Mint}
      (hp : policy = ({} : StoragePolicy).withFloor (max promised StoragePolicy.defaultFloor))
      (hc : Heap.create policy priority size w.mint = .ok (h, m))
      (hl : (h.extend m values).heap.AtLimit) :
      Exceeds w s (.collect priority promised values size) .capacityOverflow
  /-- The heap that elements were added to is full, and cannot grow. -/
  | growth {n : Nat} {op : Op α} {h' : Heap α} (hop : op.inserts = true)
      (hn : s.world.heap? n = some h') (hl : h'.AtLimit) :
      Exceeds w s (.act n op) .capacityOverflow
  /-- All keys there can be have records, and none of them waits. -/
  | keys {n : Nat} {op : Op α} {h : Heap α} (hop : op.issues = true)
      (hn : w.heap? n = some h) (hfree : h.registry.free = [])
      (hl : Registry.keyLimit ≤ h.registry.tracked) : Exceeds w s (.act n op) .keysExhausted

variable [BEq α]

/-- **A command that is cut off** has come to a limit. -/
theorem exceeds_of_fault {w : World α} (hw : w.WellFormed) {command : Command α}
    {s : Step α (Reply α)} (hx : w.exec command = some s) {cause : Fault}
    (ha : s.answer = .error (.fault cause)) : w.Exceeds s command cause := by
  cases command with
  | create policy priority size =>
      cases hx
      unfold World.create at ha ⊢
      split at ha
      · cases ha
      · next fault hc =>
          cases ha
          obtain ⟨rfl, hl⟩ := Heap.le_floor_of_create hc
          exact .floor hl
  | collect priority promised values size =>
      cases hx
      rcases w.collect_cases priority promised values size rfl with ⟨fault, hc, heq⟩ |
        ⟨h, m, failure, hc, hans, heq⟩ | ⟨h, m, hc, hans, heq⟩
      · rw [heq] at ha
        cases ha
        obtain ⟨rfl, hl⟩ := Heap.le_floor_of_create hc
        exact .promise hl
      · obtain ⟨rfl, hl⟩ := (Heap.wellFormed_create hc).atLimit_extend hans
        rw [heq] at ha
        cases ha
        exact .fill rfl hc hl
      · rw [heq] at ha
        cases ha
  | act n op =>
      obtain ⟨h, hn, hs⟩ := exec_act_eq_some.mp hx
      have hans : (op.run h w.mint).answer = .error (.fault cause) := by rw [← ha, hs]
      rcases (Op.effect (hw n h hn) w.mint op).limit_of_fault (hw n h hn) hans with
        ⟨rfl, hop, hl⟩ | ⟨rfl, hop, hfree, hl⟩
      · obtain ⟨s', hx', -, -, hn'⟩ := exists_exec_act hn op
        cases hx.symm.trans hx'
        exact .growth hop hn' hl
      · exact .keys hop hn hfree hl
  | consume n | openCursor n =>
      obtain ⟨h, hn, hs⟩ := Option.bind_eq_some_iff.mp hx
      cases hs
      cases ha
  | drain n =>
      obtain ⟨h, hn, hs⟩ := Option.bind_eq_some_iff.mp hx
      cases hs
      obtain ⟨values, hans, -⟩ := (hw n h hn).drain_values w.mint
      simp only [hans] at ha
      cases ha
  | copyCursor j =>
      obtain ⟨c, hj, rfl⟩ := exec_copyCursor_eq_some.mp hx
      cases ha
  | step j n =>
      obtain ⟨c, h, hj, hn, rfl⟩ := exec_step_eq_some.mp hx
      cases hshown : (c.next h).1 <;> rw [hshown] at ha <;> cases ha
  | stepToEnd j n =>
      obtain ⟨c, h, hj, hn, rfl⟩ := exec_stepToEnd_eq_some.mp hx
      cases hshown : (c.rest h).1 <;> rw [hshown] at ha <;> cases ha
  | restart j n =>
      obtain ⟨c, h, hj, hn, rfl⟩ := exec_restart_eq_some.mp hx
      cases ha

/-! ### Whole runs -/

theorem checkable_of_run {commands : List (Command α)} {w : World α}
    (hrun : World.run {} commands = some w) {n : Nat} {h : Heap α} (hn : w.heap? n = some h) :
    h.Checkable := by
  have hkeys := heap_request_induct (P := fun h => h.registry.tracked ≤ Registry.keyLimit)
    (fun _ _ _ _ _ _ hc => by
      rw [(Heap.create_eq_ok hc).2.1]
      exact Nat.zero_le _)
    (fun h m op o _ hle he => by
      cases he.tenures with
      | continues hf _ _ => exact hf.tracked_le_keyLimit hle
      | ends _ _ hr _ _ _ =>
          rw [hr]
          exact Nat.zero_le _)
    hrun hn
  exact ⟨hkeys.1, housed_of_run hrun hn, hkeys.2⟩

/-- **Only the limits of the machine cut a run short.** For any ranking, any policies, any sizes of
slots and any handles, in a world that a run reaches,

* every command comes to the same with all its checks as without them, where an answer that is a
  fault is the trap;
* the only traps are that slots of more bytes than can be allocated at once are asked for, when a
  heap is made or a full one grows, and that the keys are exhausted;
* no heap has as many slots, which are never more than `2 ^ 60`, and what is read from it or copied
  out of it, with any handle and to any place of any target, passes all checks. -/
theorem only_limits_trap {commands : List (Command α)} {w : World α}
    (hrun : World.run {} commands = some w) :
    (∀ command, Checked.exec w command =
      (w.exec command).map fun s => Checked.unlessFault s.answer s) ∧
    (∀ command trap, Checked.exec w command = some (.error trap) →
      ∃ s cause, w.exec command = some s ∧ trap = .fault cause ∧ w.Exceeds s command cause) ∧
    ∀ n h, w.heap? n = some h →
      h.size ≤ h.capacity ∧ h.capacity < h.slotSize.limit ∧ h.slotSize.limit ≤ SlotSize.maxLimit ∧
      (∀ x, ∃ answer, Checked.get h x = .ok answer ∧ h.get x = answer.mapError .refused) ∧
      (∀ target offset, Checked.copyTo h target offset = .ok (h.copyTo target offset)) ∧
      ∀ (β : Type) (convert : α → Option β) (target : List β) (offset : Nat),
        Checked.copyConverted h convert target offset =
          .ok (h.copyConverted convert target offset) := by
  have hw : ∀ n h, w.heap? n = some h → h.Checkable := fun n h hn => checkable_of_run hrun hn
  refine ⟨Checked.exec_eq hw, ?_, ?_⟩
  · intro command trap htrap
    rw [Checked.exec_eq hw] at htrap
    obtain ⟨s, hx, hs⟩ := Option.map_eq_some_iff.mp htrap
    obtain ⟨cause, ha, rfl⟩ := Checked.unlessFault_eq_error hs
    exact ⟨s, cause, hx, rfl, exceeds_of_fault (fun n h hn => heap_wellFormed hrun hn) hx ha⟩
  · intro n h hn
    obtain ⟨hwell, hh, -⟩ := hw n h hn
    exact ⟨hh.size_le, hh.capacity_lt, h.slotSize.limit_le, Checked.get_eq hwell,
      Checked.copyTo_eq h, fun _ => Checked.copyConverted_eq h⟩

/-- Slots of sixteen bytes come to their limit before `2 ^ 60`: storage for half as many is refused,
and no heap is made. -/
theorem trap_below_maxLimit :
    Checked.exec ({} : World Nat)
      (.create { floor := 0x800000000000000 } .natural .word) =
        some (.error (.fault .capacityOverflow)) ∧
    0x800000000000000 < SlotSize.maxLimit :=
  ⟨rfl, by decide⟩

/-- A run to which this applies: an update and a made-up handle pass all checks, and a heap of
`2 ^ 60` slots is not made. -/
theorem only_limits_trap_of_two : ∃ (w : World Nat) (h : Heap Nat)
    (s₁ s₂ s₃ : Step Nat (Reply Nat)),
    World.run {} [.create { floor := 1, minGrowth := 0, shrinkFactor := 0, trimThreshold := 0 }
      .natural, .act 0 (.insert 5), .act 0 (.push 3)] = some w ∧ w.heap? 0 = some h ∧
    Checked.exec w (.act 0 (.update ⟨⟨2⟩, 0, 0⟩ 1)) = some (.ok s₁) ∧
      s₁.answer = .ok (.value 5) ∧
    Checked.exec w (.act 0 (.remove ⟨⟨2⟩, 7, 0⟩)) = some (.ok s₂) ∧
      s₂.answer = .error (.refused (.malformedHandle 7)) ∧
    Checked.copyTo h [0, 0, 0] 1 = .ok ⟨[0, 3, 5], .ok ()⟩ ∧
    Checked.exec w (.create { floor := 0x1000000000000000 } .natural) =
      some (.error (.fault .capacityOverflow)) ∧
      w.Exceeds s₃ (.create { floor := 0x1000000000000000 } .natural) .capacityOverflow := by
  have hcheck : ((World.run ({} : World Nat)
      [.create { floor := 1, minGrowth := 0, shrinkFactor := 0, trimThreshold := 0 } .natural,
        .act 0 (.insert 5), .act 0 (.push 3)]).any fun w => (w.heap? 0).any fun h =>
      ((w.exec (.act 0 (.update ⟨⟨2⟩, 0, 0⟩ 1))).any fun s => s.answer = .ok (.value 5)) &&
      ((w.exec (.act 0 (.remove ⟨⟨2⟩, 7, 0⟩))).any fun s =>
        s.answer = .error (.refused (.malformedHandle 7))) &&
      h.values = [3, 5]) = true := by decide +kernel
  simp only [Option.any_eq_true, Bool.and_eq_true, decide_eq_true_eq] at hcheck
  obtain ⟨w, hrun, h, hn, ⟨⟨s₁, hx₁, ha₁⟩, s₂, hx₂, ha₂⟩, hvalues⟩ := hcheck
  obtain ⟨hexec, htrap, hreads⟩ := only_limits_trap hrun
  obtain ⟨-, -, -, -, hcopy, -⟩ := hreads 0 h hn
  have hlimit : Checked.exec w (.create { floor := 0x1000000000000000 } .natural) =
      some (.error (.fault .capacityOverflow)) := by
    rw [hexec]
    rfl
  obtain ⟨s₃, cause, -, hcause, hexceeds⟩ := htrap _ _ hlimit
  cases hcause
  refine ⟨w, h, s₁, s₂, s₃, hrun, hn, ?_, ha₁, ?_, ha₂, ?_, hlimit, hexceeds⟩
  · rw [hexec, hx₁, Option.map_some, ha₁, Checked.unlessFault_ok]
  · rw [hexec, hx₂, Option.map_some, ha₂, Checked.unlessFault_refused]
  · have hsize : h.size = 2 := by rw [← h.length_values, hvalues]; rfl
    rw [hcopy, Heap.copyTo, hsize, hvalues]
    rfl

end World

end TrackedHeap
