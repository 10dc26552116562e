import TrackedHeap.Proofs.Sift.Retrace
import TrackedHeap.Proofs.World.Order

/-!
# TrackedHeap.Proofs.World.Rescheduling

**Rescheduling**: which way an updated element goes, and what it passes.

A settling sift tries to go up, and goes down if it did not; it never asks how the new element
ranks beside the old one. In an ordered heap this comes to the same. What a slot passes on its way
up the old element did not rank before, and what it passes on its way down the old element did not
rank behind. So an update moves one slot in the direction in which it was changed, past slots that
rank strictly on the other side of it, and an update that changes no rank moves nothing.
-/

namespace TrackedHeap

variable {α : Type}

/-- What becomes of the slots when the one at `i`, whose element is `value` now, is settled at `j`,
by how `value` ranks beside the element before it: nothing is moved, or the slot rises past slots
that `value` ranks before, or it sinks past slots that `value` ranks behind. -/
def Resettled (p : Priority α) (value : α) (before after : Array (Slot α)) (i j : Nat) :
    Ordering → Prop
  | .eq => j = i ∧ after = before
  | .lt => ∃ d, parent^[d] i = j ∧ Raised before after i d ∧ ∀ k < d, ∃ passed,
      before[parent^[k + 1] i]? = some passed ∧ p.compare value passed.value = .lt
  | .gt => ∃ d, parent^[d] j = i ∧ Raised after before j d ∧ ∀ k < d, ∃ passed,
      before[parent^[k] j]? = some passed ∧ p.compare value passed.value = .gt

section Slots

variable {p : Priority α} {slots : Array (Slot α)} {i j : Nat}

theorem InOrder.exists_of_not (h : ¬ InOrder p slots i j) :
    ∃ a b, slots[i]? = some a ∧ slots[j]? = some b ∧ p.compare a.value b.value = .gt := by
  unfold InOrder at h
  push Not at h
  exact h

/-- A slot may stay where it is whichever way it was changed. -/
theorem Resettled.refl (p : Priority α) (value : α) (slots : Array (Slot α)) (i : Nat)
    (o : Ordering) : Resettled p value slots slots i i o := by
  cases o with
  | eq => exact ⟨rfl, rfl⟩
  | lt => exact ⟨0, rfl, .refl slots i, nofun⟩
  | gt => exact ⟨0, rfl, .refl slots i, nofun⟩

variable (hp : p.Lawful) (ho : Ordered p slots) (hi : i < slots.size) {value : α} {key : Option Nat}
include hp ho

/-- A slot with a new element rises only if the new one ranks before the old one. -/
theorem resettled_of_rise {d : Nat} {s : Sifted α}
    (hs : Rise p (slots.set i ⟨value, key⟩) i (d + 1) s) :
    Resettled p value (slots.set i ⟨value, key⟩) s.slots i (parent^[d + 1] i)
      (p.compare value slots[i].value) := by
  have : Std.TransCmp p.compare := hp
  have hpassed : ∀ k < d + 1, ∃ passed,
      (slots.set i ⟨value, key⟩)[parent^[k + 1] i]? = some passed ∧
        p.compare value passed.value = .lt := by
    intro k hk
    obtain ⟨a, b, ha, hb, hgt⟩ := InOrder.exists_of_not (hs.passes k hk)
    rw [Array.getElem?_set_self] at hb
    cases hb
    exact ⟨a, ha, Std.OrientedCmp.gt_iff_lt.mp hgt⟩
  have h0 : 0 < i := hs.raised.pos 0 (Nat.succ_pos d)
  have hlt : p.compare value slots[i].value = .lt := by
    obtain ⟨a, ha, hcmp⟩ := hpassed 0 (Nat.succ_pos d)
    rw [Function.iterate_one, Array.getElem?_set_ne hi (Nat.ne_of_gt (parent_lt h0))] at ha
    have hle := ho i h0 a slots[i] ha (Array.getElem?_eq_getElem hi)
    exact Std.TransCmp.lt_of_lt_of_isLE hcmp (Ordering.isLE_iff_ne_gt.mpr hle)
  rw [hlt]
  exact ⟨d + 1, rfl, hs.raised, hpassed⟩

/-- A slot with a new element sinks only if the new one ranks behind the old one. -/
theorem resettled_of_fall {d : Nat} {s : Sifted α}
    (hs : Fall p (slots.set i ⟨value, key⟩) i j (d + 1) s) :
    Resettled p value (slots.set i ⟨value, key⟩) s.slots i j
      (p.compare value slots[i].value) := by
  have : Std.TransCmp p.compare := hp
  have hpassed : ∀ k < d + 1, ∃ passed, (slots.set i ⟨value, key⟩)[parent^[k] j]? = some passed ∧
      p.compare value passed.value = .gt := by
    intro k hk
    obtain ⟨a, b, ha, hb, hgt⟩ := InOrder.exists_of_not (hs.passes k hk)
    rw [Array.getElem?_set_self] at ha
    cases ha
    exact ⟨b, hb, hgt⟩
  have hgt : p.compare value slots[i].value = .gt := by
    obtain ⟨b, hb, hcmp⟩ := hpassed d (Nat.lt_succ_self d)
    have h0 : 0 < parent^[d] j := hs.raised.pos d (Nat.lt_succ_self d)
    have hpc : parent (parent^[d] j) = i := by
      rw [← Function.iterate_succ_apply' parent]
      exact hs.start_eq
    rw [Array.getElem?_set_ne hi (Nat.ne_of_lt (hpc ▸ parent_lt h0))] at hb
    have hle := ho _ h0 slots[i] b (by rw [hpc, Array.getElem?_eq_getElem hi]) hb
    rw [Std.OrientedCmp.gt_iff_lt]
    exact Std.TransCmp.lt_of_isLE_of_lt (Ordering.isLE_iff_ne_gt.mpr hle)
      (Std.OrientedCmp.gt_iff_lt.mp hcmp)
  rw [hgt]
  exact ⟨d + 1, hs.start_eq, hs.raised, hpassed⟩

/-- **A new element is settled in one direction**, the one in which it was changed. -/
theorem Sift.exists_resettled (value : α) (key : Option Nat) :
    ∃ j, (settle p (slots.set i ⟨value, key⟩) i (by simpa using hi)).slots[j]? = some ⟨value, key⟩ ∧
      Resettled p value (slots.set i ⟨value, key⟩)
        (settle p (slots.set i ⟨value, key⟩) i (by simpa using hi)).slots i j
        (p.compare value slots[i].value) := by
  have hthere : (slots.set i ⟨value, key⟩)[i]? = some ⟨value, key⟩ := Array.getElem?_set_self hi
  rcases settle_cases p (slots.set i ⟨value, key⟩) i (by simpa using hi) with
    ⟨d, hs⟩ | ⟨-, j, d, hs⟩
  · exact ⟨_, hs.raised.carried.trans hthere, resettled_of_rise hp ho hi hs⟩
  · refine ⟨j, hs.raised.carried.symm.trans (by rw [hs.start_eq, hthere]), ?_⟩
    cases d with
    | zero =>
        cases hs.start_eq
        rw [← hs.raised.eq_of_zero]
        exact .refl ..
    | succ d => exact resettled_of_fall hp ho hi hs

end Slots

namespace World

variable [BEq α]

/-- **Rescheduling goes one way.** In a heap that a run reaches, with a lawful ranking, an update
answers with the element it replaces and keeps all keys. If the new element ranks beside the old
one, no slot moves. If it ranks before it, its slot rises along the line above, and what it passes
comes down one level on that line; if it ranks behind it, its slot sinks along a line, and what it
passes goes up one level. Every other slot stays, and none that is passed ranks beside the new
element. -/
theorem update_one_way {commands : List (Command α)} {w : World α}
    (hrun : World.run {} commands = some w) {n : Nat} {h : Heap α} (hn : w.heap? n = some h)
    (hp : h.priority.Lawful) {x : Handle} {i : Nat} (hx : h.registry.position x = .ok i)
    (value : α) :
    ∃ hi : i < h.slots.size, ∃ s h' j, w.exec (.act n (.update x value)) = some s ∧
      s.answer = .ok (.value h.slots[i].value) ∧ s.world.heap? n = some h' ∧
      h'.size = h.size ∧ h'.keys.Perm h.keys ∧ h'.registry.position x = .ok j ∧
      Resettled h.priority value (h.slots.set i ⟨value, h.slots[i].key⟩) h'.slots i j
        (h.priority.compare value h.slots[i].value) := by
  have hw := heap_wellFormed hrun hn
  obtain ⟨hi, h', hr, hupd⟩ := hw.update_eq hx w.mint value
  obtain ⟨s, hx', hans, -, hn'⟩ := exists_exec_act hn (.update x value)
  have hrun' : (Op.update x value).run h w.mint =
      ⟨h', w.mint, [], .ok (.value h.slots[i].value)⟩ := by
    simp only [Op.run, hupd]
    rfl
  rw [hrun'] at hans hn'
  obtain ⟨j, hj, hsettled⟩ :=
    Sift.exists_resettled hp (ordered_of_run hrun hn hp) hi value h.slots[i].key
  rw [← hr.slots_eq] at hj hsettled
  refine ⟨hi, s, h', j, hx', hans, hn', ?_, hr.perm_keys, hr.position_eq hw hx hj, hsettled⟩
  rw [← h'.length_keys, hr.perm_keys.length_eq, h.length_keys]

/-- A run to which this applies, with elements that rank by their halves: the root does not move
when it becomes `1`, and sinks when it becomes `3`. -/
theorem update_one_way_of_three : ∃ (w : World (Fin 4)) (h : Heap (Fin 4)) (x : Handle),
    World.run {} [.create {} (.custom fun a b => compare (a.val / 2) (b.val / 2)),
      .act 0 (.insert 0), .act 0 (.push 2), .act 0 (.push 1)] = some w ∧ w.heap? 0 = some h ∧
    h.priority.Lawful ∧ h.registry.position x = .ok 0 ∧ ∃ h0 : 0 < h.slots.size,
      (∃ s h', w.exec (.act 0 (.update x 1)) = some s ∧ s.world.heap? 0 = some h' ∧
        h'.slots = h.slots.set 0 ⟨1, h.slots[0].key⟩) ∧
      ∃ s h' j d, w.exec (.act 0 (.update x 3)) = some s ∧ s.world.heap? 0 = some h' ∧
        parent^[d] j = 0 ∧ Raised h'.slots (h.slots.set 0 ⟨3, h.slots[0].key⟩) j d := by
  obtain ⟨w, h, hrun, hn, hcheck⟩ := exists_of_any_run (α := Fin 4)
    [.create {} (.custom fun a b => compare (a.val / 2) (b.val / 2)), .act 0 (.insert 0),
      .act 0 (.push 2), .act 0 (.push 1)] 0
    (fun h => decide (((∀ a b, h.priority.compare a b = (h.priority.compare b a).swap) ∧
      (∀ a b c, (h.priority.compare a b).isLE → (h.priority.compare b c).isLE →
        (h.priority.compare a c).isLE)) ∧
      h.registry.position ⟨⟨2⟩, 0, 0⟩ = .ok 0 ∧ h.values = [0, 2, 1] ∧
      h.priority.compare 1 0 = .eq ∧ h.priority.compare 3 0 = .gt))
    (by decide +kernel)
  obtain ⟨⟨hswap, htrans⟩, hpos, hvalues, heq, hgt⟩ := of_decide_eq_true hcheck
  have hp : h.priority.Lawful :=
    { eq_swap := fun {a b} => hswap a b
      isLE_trans := fun {a b c} => htrans a b c }
  obtain ⟨h0, s, h', j, hx, -, hn', -, -, -, hstay⟩ := update_one_way hrun hn hp hpos 1
  obtain ⟨_, s', h'', j', hx', -, hn'', -, -, -, hsink⟩ := update_one_way hrun hn hp hpos 3
  have hroot : h.slots[0].value = 0 := by
    have hfirst := congrArg (·[0]?) hvalues
    simpa [Heap.values, h0] using hfirst
  rw [hroot, heq] at hstay
  rw [hroot, hgt] at hsink
  obtain ⟨d, hline, hraised, -⟩ := hsink
  exact ⟨w, h, _, hrun, hn, hp, hpos, h0, ⟨s, h', hx, hn', hstay.2⟩, s', h'', j', d, hx', hn'',
    hline, hraised⟩

end World

end TrackedHeap
