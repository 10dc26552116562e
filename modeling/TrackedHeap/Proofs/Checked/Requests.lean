import TrackedHeap.Proofs.Checked.Heap
import TrackedHeap.Proofs.Heap.Copying

/-!
# TrackedHeap.Proofs.Checked.Requests

**Requests, and what is only read, run with checks.**

A request that is run with checks comes to what it comes to without them, and where that is a
fault it is cut short by this fault and by nothing else (`Checked.run_eq`). What is read from a
heap, copied out of it, or shown by a cursor is not cut short at all. The heap has to be well formed
and within its bounds, which all heaps of a run are; the request may carry any handle.
-/

namespace TrackedHeap

variable {α β : Type}

namespace Checked

open StoragePolicy (wordMax)
open SlotSize (maxLimit)

/-! ### Requests -/

/-- A change as the outcome of a request. -/
def outcome (reply : β → Reply α) (c : Change α β) : Outcome α (Reply α) :=
  ⟨c.heap, c.mint, c.events, .ok (reply c.answer)⟩

/-- Adds elements, as `Heap.extend` does. -/
def extend (h : Heap α) (mint : Mint) : List α → Except Trap (Outcome α Unit)
  | [] => pure (.done h mint ())
  | value :: rest => do
      let c ← append h mint ⟨value, none⟩
      let last ← extend c.heap c.mint rest
      pure { last with events := c.events ++ last.events }

/-- Drops all elements, as `Heap.clear` does. -/
def clear (h : Heap α) (mint : Mint) : Except Trap (Change α Unit) := do
  let registry ← lift (h.registry.retireAll h.keys)
  let released ← releaseEmpty { h with slots := #[], registry := registry } mint
  pure { released with heap := { released.heap with version := h.version + 1 } }

/-- Takes out up to `count` elements, as `Heap.popMany` does. -/
def popMany (h : Heap α) (mint : Mint) :
    Nat → Except Trap (Outcome α (List α × Option Refusal))
  | 0 => pure (.done h mint ([], none))
  | count + 1 =>
      if h.isEmpty then pure (.done h mint ([], some .empty))
      else do
        let c ← removeAt h mint 0
        let last ← popMany c.heap c.mint count
        let row := last.map fun (values, ended) => (c.answer :: values, ended)
        pure { row with events := c.events ++ row.events }

/-- Takes out all elements, as `Heap.drain` does, into storage that is allocated before. An element
alone takes no more of it than its slot. -/
def drain (h : Heap α) (mint : Mint) : Except Trap (Outcome α (List α)) := do
  allocate h.slotSize h.size
  let row ← popMany h mint h.size
  pure (row.map Prod.fst)

/-- Carries a request out, as `Op.run` does. -/
def run [BEq α] (h : Heap α) (mint : Mint) : Op α → Except Trap (Outcome α (Reply α))
  | .push value => (append h mint ⟨value, none⟩).map (outcome fun _ => .done)
  | .insert value => do
      let (handle, registry) ← reserve h.registry
      let c ← append { h with registry := registry } mint ⟨value, some handle.key⟩
      pure (outcome (fun _ => .handle handle) c)
  | .extend values => (extend h mint values).map (·.map fun _ => .done)
  | .reserve => do
      let (handle, registry) ← reserve h.registry
      pure (.done { h with registry := registry } mint (.handle handle))
  | .release handle =>
      match h.registry.unboundKey handle with
      | .error cause => pure (.failed h mint (.refused cause))
      | .ok key => do
          let registry ← lift (h.registry.retire key)
          pure (.done { h with registry := registry } mint .done)
  | .insertWith handle value =>
      match h.registry.unboundKey handle with
      | .error cause => pure (.failed h mint (.refused cause))
      | .ok key => (append h mint ⟨value, some key⟩).map (outcome fun _ => .done)
  | .pop =>
      if h.isEmpty then pure (.failed h mint (.refused .empty))
      else (removeAt h mint 0).map (outcome .value)
  | .remove handle =>
      match h.registry.position handle with
      | .error cause => pure (.failed h mint (.refused cause))
      | .ok i => (removeAt h mint i).map (outcome .value)
  | .removeValue value =>
      match h.indexOf? (· == value) with
      | none => pure (.done h mint (.flag false))
      | some i => (removeAt h mint i).map (outcome fun _ => .flag true)
  | .removeFirst holds =>
      match h.indexOf? holds with
      | none => pure (.done h mint (.found none))
      | some i => (removeAt h mint i).map (outcome fun removed => .found (some removed))
  | .update handle value =>
      match h.registry.position handle with
      | .error cause => pure (.failed h mint (.refused cause))
      | .ok i => (replaceAt h mint i value).map (outcome .value)
  | .clear => (clear h mint).map (outcome fun _ => .done)
  | .trim => pure ((h.trim mint).map fun _ => .done)

theorem map_unlessFault {γ δ : Type} (answer : Except Failure β) (x : γ) (f : γ → δ) :
    (unlessFault answer x).map f = unlessFault answer (f x) := by
  rcases answer with (_ | _) | _ <;> rfl

/-- A change that goes through is an outcome, and one that is cut off is cut short. -/
theorem map_outcome (h : Heap α) (mint : Mint) (x : Except Fault (Change α β))
    (reply : β → Reply α) : (lift x).map (outcome reply) =
      unlessFault ((Outcome.ofChange h mint x).map reply).answer
        ((Outcome.ofChange h mint x).map reply) := by
  cases x <;> rfl

variable {h : Heap α}

theorem clear_eq [BEq α] (h : Heap α) (mint : Mint) :
    (clear h mint).map (outcome fun _ => .done) =
      unlessFault (Op.clear.run h mint).answer (Op.clear.run h mint) := by
  simp only [clear, Op.run, Heap.clear, bind, Except.bind]
  cases h.registry.retireAll h.keys with
  | error cause => rfl
  | ok registry =>
      have hreleased := releaseEmpty_eq
        (h := ({ h with slots := #[], registry := registry } : Heap α)) rfl mint
      simp only [lift_ok, hreleased]
      rfl

theorem extend_eq (hw : h.WellFormed) (hh : h.Housed) (mint : Mint) (values : List α) :
    extend h mint values =
      unlessFault (h.extend mint values).answer (h.extend mint values) := by
  induction values generalizing h with
  | nil => rfl
  | cons value rest ih =>
      rw [extend, append_eq hh, Heap.extend, Heap.push]
      rcases hw.append ⟨value, none⟩ (by simp) mint with ⟨h', events, hs, happ⟩ | ⟨-, happ⟩
      · rw [happ]
        have hrest := ih (hs.wellFormed hw) ((hs.admits hh).housed hh)
        simp only [lift_ok, bind, Except.bind, hrest]
        exact map_unlessFault ..
      · rw [happ]
        rfl

/-- **A request** comes to the same with checks and without, and is cut short where its answer is a
fault. A handle it carries is judged before anything is read, so it may be any. -/
theorem run_eq [BEq α] (hc : h.Checkable) (mint : Mint) (op : Op α) :
    run h mint op = unlessFault (op.run h mint).answer (op.run h mint) := by
  obtain ⟨hw, hh, hlimit⟩ := hc
  cases op with
  | push value =>
      rw [run, append_eq hh]
      exact map_outcome h mint _ _
  | insert value =>
      simp only [run, Op.run, Heap.insert, Heap.reserve, reserve_eq hw.registry hlimit]
      cases h.registry.reserve with
      | error cause => rfl
      | ok granted =>
          simp only [lift_ok, bind, Except.bind, append_eq (hh.with_registry granted.2),
            Outcome.done, Outcome.andThen]
          cases Heap.append { h with registry := granted.2 } mint _ <;> rfl
  | extend values =>
      rw [run, extend_eq hw hh, map_unlessFault]
      simp only [Op.run, Outcome.map]
      rcases (h.extend mint values).answer with (_ | _) | _ <;> rfl
  | reserve =>
      simp only [run, Op.run, Heap.reserve, reserve_eq hw.registry hlimit]
      cases h.registry.reserve <;> rfl
  | release handle =>
      simp only [run, Op.run, Heap.release]
      cases h.registry.unboundKey handle with
      | error cause => rfl
      | ok key =>
          dsimp only
          cases h.registry.retire key <;> rfl
  | insertWith handle value =>
      simp only [run, Op.run, Heap.insertWith]
      cases h.registry.unboundKey handle with
      | error cause => rfl
      | ok key =>
          simp only [append_eq hh]
          exact map_outcome h mint _ _
  | pop =>
      simp only [run, Op.run, Heap.pop]
      split
      · rfl
      · next hne =>
          rw [removeAt_eq hh mint (Heap.size_pos_of_not_isEmpty hne)]
          exact map_outcome h mint _ _
  | remove handle =>
      simp only [run, Op.run, Heap.remove]
      cases hp : h.registry.position handle with
      | error cause => rfl
      | ok i =>
          simp only [removeAt_eq hh mint (hw.lt_size_of_position hp)]
          exact map_outcome h mint _ _
  | removeValue value =>
      simp only [run, Op.run, Heap.removeValue, Heap.removeFirst]
      cases hf : h.indexOf? (· == value) with
      | none => rfl
      | some i =>
          simp only [removeAt_eq hh mint (Heap.lt_size_of_indexOf? hf)]
          cases h.removeAt mint i <;> rfl
  | removeFirst holds =>
      simp only [run, Op.run, Heap.removeFirst]
      cases hf : h.indexOf? holds with
      | none => rfl
      | some i =>
          simp only [removeAt_eq hh mint (Heap.lt_size_of_indexOf? hf)]
          cases h.removeAt mint i <;> rfl
  | update handle value =>
      simp only [run, Op.run, Heap.update]
      cases hp : h.registry.position handle with
      | error cause => rfl
      | ok i =>
          simp only [replaceAt_eq hh mint (hw.lt_size_of_position hp)]
          exact map_outcome h mint _ _
  | clear => exact clear_eq h mint
  | trim =>
      simp only [run, Op.run, Heap.trim]
      split <;> rfl

/-- A heap that is drained has an element for every pop. -/
theorem popMany_eq (hw : h.WellFormed) (hh : h.Housed) (mint : Mint) (count : Nat) :
    popMany h mint count = .ok (h.popMany mint count) := by
  induction count generalizing h mint with
  | zero => rfl
  | succ count ih =>
      rw [popMany, Heap.popMany]
      by_cases he : h.isEmpty = true
      · have hempty : h.slots = #[] := Heap.size_eq_zero_iff.mp (of_decide_eq_true he)
        simp only [he, if_true, Heap.WellFormed.pop_of_empty hempty]
        rfl
      · have hpos := Heap.size_pos_of_not_isEmpty he
        obtain ⟨c, hrem, ht⟩ := hw.removeAt hpos mint
        have hthinner : h.Rehouses c.heap .pop := ht.rehouses rfl
        have hrest := ih (ht.wellFormed hw) (hthinner.housed hh) c.mint
        have hpop : h.pop mint = ⟨c.heap, c.mint, c.events, .ok c.answer⟩ := by
          simp only [Heap.pop, he, hrem]
          rfl
        simp only [he, removeAt_eq hh mint hpos, hrem, hpop, hrest, lift_ok, bind, Except.bind,
          Outcome.andThen]
        rfl

theorem drain_eq (hw : h.WellFormed) (hh : h.Housed) (mint : Mint) :
    drain h mint = .ok (h.drain mint) := by
  have hsize : h.size < h.slotSize.limit := Nat.lt_of_le_of_lt hh.size_le hh.capacity_lt
  rw [drain, allocate_eq hsize, popMany_eq hw hh]
  rfl

/-! ### What is read -/

/-- The element that a handle names, as `Heap.get` has it. -/
def get (h : Heap α) (handle : Handle) : Except Trap (Except Refusal α) :=
  match h.registry.position handle with
  | .error cause => pure (.error cause)
  | .ok i => do
      let slot ← read h.slots i
      pure (.ok slot.value)

/-- Whether there is room in a target, as `Heap.checkTarget` says. -/
def checkTarget (needed length offset : Nat) : Except Trap (Except Refusal Unit) :=
  if length < offset then pure (.error (.offsetOutOfRange offset length))
  else do
    let available ← sub length offset
    if available < needed then pure (.error (.insufficientSpace needed available))
    else pure (.ok ())

/-- Writes values over the part of `target` from `offset` on, for as long as there are both values
and places. -/
def overwrite (target values : List β) (offset : Nat) : Except Trap (List β) :=
  if offset ≤ target.length then
    let part := target.drop offset
    .ok (target.take offset ++ values.take part.length ++ part.drop values.length)
  else .error (.outOfBounds offset target.length)

/-- Writes the elements into `target`, as `Heap.copyTo` does. -/
def copyTo (h : Heap α) (target : List α) (offset : Nat) : Except Trap (Copied α) := do
  match ← checkTarget h.size target.length offset with
  | .error cause => pure ⟨target, .error cause⟩
  | .ok () => pure ⟨← overwrite target h.values offset, .ok ()⟩

/-- Writes the converted elements into `target`, as `Heap.copyConverted` does. -/
def copyConverted (h : Heap α) (convert : α → Option β) (target : List β) (offset : Nat) :
    Except Trap (Copied β) := do
  match ← checkTarget h.size target.length offset with
  | .error cause => pure ⟨target, .error cause⟩
  | .ok () =>
      match Heap.convertFrom convert 0 h.values with
      | .error cause => pure ⟨target, .error cause⟩
      | .ok converted => pure ⟨← overwrite target converted offset, .ok ()⟩

/-- A handle that names an element names the position of a slot. -/
theorem get_eq (hw : h.WellFormed) (handle : Handle) :
    ∃ answer, get h handle = .ok answer ∧ h.get handle = answer.mapError .refused := by
  unfold get Heap.get
  cases hp : h.registry.position handle with
  | error cause => exact ⟨_, rfl, rfl⟩
  | ok i =>
      have hi := hw.lt_size_of_position hp
      refine ⟨.ok h.slots[i].value, ?_, ?_⟩
      · simp only [read_eq hi]
        rfl
      · simp only [Array.getElem?_eq_getElem hi]
        rfl

theorem checkTarget_eq (needed length offset : Nat) :
    checkTarget needed length offset = .ok (Heap.checkTarget needed length offset) := by
  unfold checkTarget Heap.checkTarget
  split
  · rfl
  · next hle =>
      simp only [sub_eq (Nat.le_of_not_lt hle), bind, Except.bind]
      split <;> rfl

/-- Where there is room, all values are written. -/
theorem overwrite_eq {target values : List β} {offset : Nat}
    (hroom : offset + values.length ≤ target.length) :
    overwrite target values offset = .ok (Heap.overwrite target values offset) := by
  have hpart : values.length ≤ (target.drop offset).length := by
    rw [List.length_drop]
    omega
  rw [overwrite, if_pos (by omega), Heap.overwrite]
  simp only [List.take_of_length_le hpart, List.drop_drop]

theorem copyTo_eq (h : Heap α) (target : List α) (offset : Nat) :
    copyTo h target offset = .ok (h.copyTo target offset) := by
  simp only [copyTo, checkTarget_eq, bind, Except.bind, Heap.copyTo]
  rw [← h.length_values]
  rcases Heap.checkTarget_cases h.values.length target.length offset with
    ⟨-, hc⟩ | ⟨-, -, hc⟩ | ⟨hroom, hc⟩
  · rw [hc]
    rfl
  · rw [hc]
    rfl
  · rw [hc]
    simp only [overwrite_eq hroom]
    rfl

/-- There is a converted value for each value, so what fits in number fits in place. -/
theorem copyConverted_eq (h : Heap α) (convert : α → Option β) (target : List β) (offset : Nat) :
    copyConverted h convert target offset = .ok (h.copyConverted convert target offset) := by
  simp only [copyConverted, checkTarget_eq, bind, Except.bind, Heap.copyConverted]
  rw [← h.length_values]
  rcases Heap.checkTarget_cases h.values.length target.length offset with
    ⟨-, hc⟩ | ⟨-, -, hc⟩ | ⟨hroom, hc⟩
  · rw [hc]
    rfl
  · rw [hc]
    rfl
  · rw [hc]
    rcases Heap.convertFrom_cases convert 0 h.values with ⟨converted, hok, hmap⟩ | ⟨i, herror, -⟩
    · have hlen : converted.length = h.values.length := by
        simpa using (congrArg List.length hmap).symm
      simp only [hok, overwrite_eq (hlen ▸ hroom)]
      rfl
    · simp only [herror]
      rfl

/-! ### Cursors -/

/-- Shows the next element, as `Cursor.next` does. -/
def next (c : Cursor) (h : Heap α) : Except Trap (Except Refusal (Option α) × Cursor) :=
  if h.id ≠ c.heap then pure (.error .foreignHandle, c)
  else if h.version ≠ c.version then pure (.error .concurrentModification, c)
  else
    match h.slots[c.position]? with
    | some slot => do
        let position ← add c.position 1
        pure (.ok (some slot.value), { c with position := position })
    | none => pure (.ok none, c)

/-- A cursor that shows an element stands before the end of an array that fits into a word. -/
theorem next_eq (hh : h.Housed) (c : Cursor) : next c h = .ok (c.next h) := by
  unfold next Cursor.next
  split
  · rfl
  · split
    · rfl
    · cases hslot : h.slots[c.position]? with
      | none => rfl
      | some slot =>
          have hlt := (Array.getElem?_eq_some_iff.mp hslot).1
          have hword : c.position + 1 ≤ wordMax := by
            have hsize := hh.size_lt
            simp only [maxLimit, wordMax] at *
            omega
          simp only [add_eq hword]
          rfl

theorem position_of_next {c d : Cursor} {h : Heap α} {value : α}
    (hn : next c h = .ok (.ok (some value), d)) :
    c.position < h.size ∧ d.position = c.position + 1 := by
  unfold next add at hn
  split at hn
  · cases hn
  · split at hn
    · cases hn
    · split at hn
      · next hslot =>
          obtain ⟨hlt, -⟩ := Array.getElem?_eq_some_iff.mp hslot
          split at hn
          · cases hn
            exact ⟨hlt, rfl⟩
          · cases hn
      · cases hn

/-- Shows all elements up to the end, as `Cursor.rest` does. -/
def rest (c : Cursor) (h : Heap α) : Except Trap (Except Refusal (List α) × Cursor) :=
  match _ : next c h with
  | .error trap => .error trap
  | .ok (.ok (some value), d) => do
      let (shown, last) ← rest d h
      pure (shown.map (value :: ·), last)
  | .ok (.ok none, d) => .ok (.ok [], d)
  | .ok (.error cause, d) => .ok (.error cause, d)
termination_by h.size - c.position
decreasing_by
  have := position_of_next ‹next c h = _›
  omega

/-- What a cursor does that is moved to the end. -/
theorem rest_eq_bind (c : Cursor) (h : Heap α) : rest c h = (do
    match ← next c h with
    | (.ok (some value), d) =>
        let (shown, last) ← rest d h
        pure (shown.map (value :: ·), last)
    | (.ok none, d) => pure (.ok [], d)
    | (.error cause, d) => pure (.error cause, d)) := by
  rw [rest]
  split
  all_goals
    next heq =>
      rw [heq]
      rfl

theorem rest_eq (hh : h.Housed) (c : Cursor) : rest c h = .ok (c.rest h) := by
  fun_induction Cursor.rest c h with
  | case1 c value d hn ih =>
      rw [rest_eq_bind, next_eq hh, hn]
      simp only [bind, Except.bind, ih]
      rfl
  | case2 c d hn =>
      rw [rest_eq_bind, next_eq hh, hn]
      rfl
  | case3 c cause d hn =>
      rw [rest_eq_bind, next_eq hh, hn]
      rfl

end Checked

end TrackedHeap
