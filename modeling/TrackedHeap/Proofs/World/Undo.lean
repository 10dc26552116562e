import TrackedHeap.Proofs.Sift.Retrace
import TrackedHeap.Proofs.World.Order

/-!
# TrackedHeap.Proofs.World.Undo

**Undoing** an insertion by a removal, and an update by the update back.

The first request leaves the slots as they were but for one line, along which the slot concerned
was carried. For an update this is where the second request starts from. A removal puts the last
slot into the gap, and that slot came down to the end of the line from its parent's place, so what
is left to settle was carried up along the rest of the line. Either way the second request retraces
the first (`Sift.slots_settle_of_raised`, `Sift.slots_settle_of_lowered`).
-/

namespace TrackedHeap

variable {α : Type}

/-! ### The slots -/

section Slots

variable {slots after : Array (Slot α)} {slot : Slot α} {d : Nat}

theorem getElem?_push_of_ne (slot : Slot α) {j : Nat} (hj : j ≠ slots.size) :
    (slots.push slot)[j]? = slots[j]? := by
  rw [Array.getElem?_push, if_neg hj]

theorem withoutSlot_push (slots : Array (Slot α)) (slot : Slot α) :
    Heap.withoutSlot (slots.push slot) slots.size (Heap.size_lt_size_push ..) = slots := by
  refine Array.ext_getElem? fun j => ?_
  rw [Heap.getElem?_withoutSlot, Array.size_push, Nat.add_sub_cancel]
  split
  · next hj => rw [if_neg (Nat.ne_of_lt hj), getElem?_push_of_ne slot (Nat.ne_of_lt hj)]
  · next hj => rw [Array.getElem?_eq_none (Nat.le_of_not_lt hj)]

/-- Where a slot that was added and has risen is taken out, the last one fills the gap. It came down
from its parent's place, so it has been carried up along the rest of the line. -/
theorem raised_withoutSlot (hr : Raised (slots.push slot) after slots.size (d + 1))
    (hsize : after.size = slots.size + 1) (hq : parent^[d + 1] slots.size < after.size) :
    Raised slots (Heap.withoutSlot after (parent^[d + 1] slots.size) hq) (parent slots.size) d := by
  have hline : ∀ k ≤ d, parent^[k + 1] slots.size < slots.size := fun k hk =>
    iterate_parent_lt (a := 0) hr.pos (Nat.succ_pos k) (by omega)
  have hget := Heap.getElem?_withoutSlot hq
  rw [hsize, Nat.add_sub_cancel] at hget
  refine ⟨fun k hk => hr.pos (k + 1) (by omega), ?_, fun k hk => ?_, fun j hj => ?_⟩
  · rw [← Function.iterate_succ_apply, hget, if_pos (hline d (Nat.le_refl d)), if_pos rfl]
    exact (hr.passed 0 (Nat.succ_pos d)).trans
      (getElem?_push_of_ne slot (Nat.ne_of_lt (hline 0 (Nat.zero_le d))))
  · have hne : parent^[k + 1] slots.size ≠ parent^[d + 1] slots.size :=
      Nat.ne_of_gt (iterate_parent_lt hr.pos (by omega) (Nat.le_refl _))
    rw [← Function.iterate_succ_apply, ← Function.iterate_succ_apply, hget,
      if_pos (hline k (by omega)), if_neg hne]
    exact (hr.passed (k + 1) (by omega)).trans
      (getElem?_push_of_ne slot (Nat.ne_of_lt (hline (k + 1) hk)))
  · rw [hget]
    split
    · next hlt =>
        have hne : j ≠ parent^[d + 1] slots.size := hj d (Nat.le_refl d)
        rw [if_neg hne, ← getElem?_push_of_ne slot (Nat.ne_of_lt hlt)]
        refine hr.aside j fun k hk => ?_
        cases k with
        | zero => exact Nat.ne_of_lt hlt
        | succ k => exact hj k (by omega)
    · next hge => rw [Array.getElem?_eq_none (Nat.le_of_not_lt hge)]

/-- A slot that was added and has risen is taken out again. -/
theorem slotsWithout_of_raised_push {p : Priority α} (hp : p.Lawful) (ho : Ordered p slots)
    (hu : Untied p slots) (hr : Raised (slots.push slot) after slots.size d)
    (hsize : after.size = slots.size + 1) (hq : parent^[d] slots.size < after.size) :
    Heap.slotsWithout p after (parent^[d] slots.size) hq = slots := by
  unfold Heap.slotsWithout
  cases d with
  | zero =>
      cases hr.eq_of_zero
      rw [dif_neg (by simp)]
      exact withoutSlot_push slots slot
  | succ d =>
      have h0 : 0 < slots.size := hr.pos 0 (Nat.succ_pos d)
      have hgap : (Heap.withoutSlot after (parent^[d + 1] slots.size) hq).size = slots.size := by
        simp [hsize]
      have htop : parent^[d + 1] slots.size <
          (Heap.withoutSlot after (parent^[d + 1] slots.size) hq).size := by
        rw [hgap]
        exact iterate_parent_lt (a := 0) hr.pos (Nat.succ_pos d) (Nat.le_refl _)
      rw [dif_pos htop]
      exact Sift.slots_settle_of_raised hp ho hu (parent_lt h0) (raised_withoutSlot hr hsize hq)
        hgap _

end Slots

/-- A line stays one when its slot is exchanged for another, at both ends. -/
theorem Raised.set {a b : Array (Slot α)} {i d : Nat} (hr : Raised a b i d) (hi : i < a.size)
    (hq : parent^[d] i < b.size) (slot : Slot α) :
    Raised (a.set i slot) (b.set (parent^[d] i) slot) i d := by
  have hbelow : ∀ k < d, parent^[k] i ≠ parent^[d] i := fun k hk =>
    Nat.ne_of_gt (iterate_parent_lt hr.pos hk (Nat.le_refl d))
  have habove : ∀ k < d, parent^[k + 1] i ≠ i := fun k hk =>
    Nat.ne_of_lt (iterate_parent_lt (a := 0) hr.pos (Nat.succ_pos k) hk)
  refine ⟨hr.pos, ?_, fun k hk => ?_, fun j hj => ?_⟩
  · rw [Array.getElem?_set_self, Array.getElem?_set_self]
  · rw [Array.getElem?_set_ne hq (hbelow k hk).symm, Array.getElem?_set_ne hi (habove k hk).symm]
    exact hr.passed k hk
  · rw [Array.getElem?_set_ne hq (hj d (Nat.le_refl d)).symm,
      Array.getElem?_set_ne hi (hj 0 (Nat.zero_le d)).symm]
    exact hr.aside j hj

/-- A settling sift carries its slot up or down along a line. -/
theorem Sift.exists_line (p : Priority α) (slots : Array (Slot α)) {i : Nat} (hi : i < slots.size) :
    (∃ d, Raised slots (Sift.settle p slots i hi).slots i d) ∨
      ∃ j d, parent^[d] j = i ∧ Raised (Sift.settle p slots i hi).slots slots j d := by
  rcases Sift.settle_cases p slots i hi with ⟨d, hs⟩ | ⟨-, j, d, hs⟩
  · exact Or.inl ⟨d + 1, hs.raised⟩
  · exact Or.inr ⟨j, d, hs.start_eq, hs.raised⟩

/-- A slot that was exchanged for another and settled is exchanged back and settled. -/
theorem Sift.slots_settle_set_back {p : Priority α} (hp : p.Lawful) {slots : Array (Slot α)}
    (ho : Ordered p slots) (hu : Untied p slots) {i : Nat} (hi : i < slots.size) (slot : Slot α)
    {settled : Array (Slot α)}
    (hs : settled = (Sift.settle p (slots.set i slot) i (by simpa using hi)).slots) :
    ∃ q, settled[q]? = some slot ∧ ∀ hq : q < settled.size,
      (Sift.settle p (settled.set q slots[i]) q (by simpa using hq)).slots = slots := by
  have hsize : settled.size = slots.size := by simp [hs]
  have hset : ((slots.set i slot).set i slots[i] (by simpa using hi)) = slots := by simp
  have hthere : (slots.set i slot)[i]? = some slot := Array.getElem?_set_self hi
  rcases Sift.exists_line p (slots.set i slot) (i := i) (by simpa using hi) with
    ⟨d, hr⟩ | ⟨j, d, hji, hr⟩
  · rw [← hs] at hr
    refine ⟨parent^[d] i, hr.carried.trans hthere, fun hq => ?_⟩
    have hback := hr.set (by simpa using hi) hq slots[i]
    rw [hset] at hback
    exact slots_settle_of_raised hp ho hu hi hback (by simpa using hsize) _
  · rw [← hs] at hr
    have hj : settled[j]? = some slot := by rw [← hr.carried, hji, hthere]
    refine ⟨j, hj, fun hq => ?_⟩
    have hback := hr.set hq (by simpa [hji] using hi) slots[i]
    simp only [hji, hset] at hback
    exact slots_settle_of_lowered hp ho hu _ (by simpa using hsize) hback

/-! ### The heap -/

namespace Heap

variable {h h' : Heap α}

/-- A heap shows the element of a handle at the position of the handle. -/
theorem WellFormed.get_eq_ok (hw : h.WellFormed) {x : Handle} {value : α}
    (hx : h.get x = .ok value) :
    ∃ i, ∃ hi : i < h.slots.size, h.registry.position x = .ok i ∧ h.slots[i].value = value := by
  unfold Heap.get at hx
  cases hpos : h.registry.position x with
  | error cause => simp [hpos] at hx
  | ok i =>
      have hi := hw.lt_size_of_position hpos
      simp only [hpos, Array.getElem?_eq_getElem hi, Except.ok.injEq] at hx
      exact ⟨i, hi, rfl, hx⟩

/-- Where the slots are the same and the same handles are issued, each is at the same position. -/
theorem WellFormed.position_congr (hw : h.WellFormed) (hw' : h'.WellFormed)
    (hs : h'.slots = h.slots) (hx : ∀ y, h'.registry.Issues y ↔ h.registry.Issues y) (y : Handle)
    (i : Nat) : h'.registry.position y = .ok i ↔ h.registry.position y = .ok i := by
  rw [hw'.position_eq_ok_iff, hw.position_eq_ok_iff, hx, hs]

theorem Stores.exists_raised {slot : Slot α} {events : List Event}
    (hs : h.Stores slot events h') : ∃ d, Raised (h.slots.push slot) h'.slots h.slots.size d := by
  obtain ⟨d, hrise⟩ :=
    Sift.exists_rise h.priority (h.slots.push slot) h.slots.size (size_lt_size_push ..)
  exact ⟨d, hs.slots_eq ▸ hrise.raised⟩

/-- What is taken out again leaves the heap with the slots and the handles it had before. -/
theorem TakesOut.position_eq_ok_iff {h₀ : Heap α} (hw₀ : h₀.WellFormed) (hw : h.WellFormed)
    {x : Handle} (hx : ¬ h₀.registry.IsIssued x.key)
    (hissues : ∀ y, h.registry.Issues y ↔ y = x ∨ h₀.registry.Issues y) {m : Mint} {i : Nat}
    {hi : i < h.slots.size} (hkey : h.slots[i].key = some x.key) {c : Change α α}
    (ht : h.TakesOut m i hi c) (hslots : c.heap.slots = h₀.slots) :
    (∃ cause, c.heap.registry.statusOf x = .error cause) ∧
      ∀ y j, c.heap.registry.position y = .ok j ↔ h₀.registry.position y = .ok j := by
  obtain ⟨h₁, hd, -, hren⟩ := ht.drops hw
  have hback : ∀ y, c.heap.registry.Issues y ↔ h₀.registry.Issues y := by
    intro y
    rw [hren.issues_iff hd.wellFormed.registry, hd.issues_iff, hissues]
    simp only [List.map_cons, List.map_nil, List.mem_singleton, hkey, Option.some.injEq]
    constructor
    · rintro ⟨rfl | hy, hne⟩
      · exact absurd rfl hne
      · exact hy
    · exact fun hy => ⟨Or.inr hy, fun hkey => hx (hkey ▸ hy.isIssued)⟩
  refine ⟨?_, hw₀.position_congr (ht.wellFormed hw) hslots hback⟩
  obtain ⟨cause, hs, -⟩ :=
    Registry.exists_statusOf_of_not_issues fun hy => hx ((hback x).mp hy).isIssued
  exact ⟨cause, hs⟩

section Undo

variable (hw : h.WellFormed) (hp : h.priority.Lawful) (ho : Ordered h.priority h.slots)
  (hu : Untied h.priority h.slots)
include hw hp ho hu

/-- **An insertion undone**: the slots and the positions of handles are those from before. -/
theorem WellFormed.remove_insert [BEq α] {m m' : Mint} {value : α} {x : Handle}
    {events : List Event}
    (hins : (Op.insert value).Effect h m ⟨h', m', events, .ok (.handle x)⟩)
    {o : Outcome α (Reply α)} (hrem : (Op.remove x).Effect h' m' o) :
    o.answer = .ok (.value value) ∧ o.heap.slots = h.slots ∧
      (∃ cause, o.heap.registry.statusOf x = .error cause) ∧
      ∀ y i, o.heap.registry.position y = .ok i ↔ h.registry.position y = .ok i := by
  cases hins with
  | inserted hres hr hg hs =>
      have hw' : h'.WellFormed := hs.wellFormed (hw.of_grants hr hg)
      have hprio : h'.priority = h.priority := hs.priority_eq
      have hissues : ∀ y, h'.registry.Issues y ↔ y = x ∨ h.registry.Issues y := fun y => by
        rw [Registry.issues_congr hs.unplaced_eq, hg.issues_iff]
      -- The new slot has risen to here, so this is where the handle leads.
      obtain ⟨d, hrise⟩ := hs.exists_raised
      have hslot : h'.slots[parent^[d] h.slots.size]? = some ⟨value, some x.key⟩ :=
        hrise.carried.trans (by simp)
      have hpos : h'.registry.position x = .ok (parent^[d] h.slots.size) := by
        rw [hw'.position_eq_ok_iff, hissues]
        exact ⟨Or.inl rfl, by simp [keyAt, hslot]⟩
      have hsize : h'.slots.size = h.slots.size + 1 := by simp [hs.slots_eq]
      cases hrem with
      | removeRefused hx =>
          rw [hpos] at hx
          cases hx
      | @removed _ _ _ i hi c hx ht =>
          cases hpos.symm.trans hx
          have hthere : h'.slots[parent^[d] h.slots.size] = ⟨value, some x.key⟩ := by
            rw [Array.getElem?_eq_getElem hi] at hslot
            exact Option.some.inj hslot
          have hslots : c.heap.slots = h.slots := by
            rw [ht.slots_eq, hprio]
            exact slotsWithout_of_raised_push hp ho hu hrise hsize hi
          exact ⟨by rw [ht.answer_eq, hthere], hslots,
            ht.position_eq_ok_iff hw hw' hg.not_isIssued hissues (by rw [hthere]) hslots⟩

/-- **An update undone**: the slots are those from before. -/
theorem WellFormed.update_update (m : Mint) {x : Handle} {old : α} (value : α)
    (hx : h.get x = .ok old) :
    (h.update m x value).answer = .ok old ∧
      ((h.update m x value).heap.update (h.update m x value).mint x old).answer = .ok value ∧
      ((h.update m x value).heap.update (h.update m x value).mint x old).heap.slots = h.slots := by
  obtain ⟨i, hi, hpos, rfl⟩ := hw.get_eq_ok hx
  obtain ⟨_, h', hr, hupd⟩ := hw.update_eq hpos m value
  rw [hupd]
  have hw' : h'.WellFormed := hr.wellFormed hw.registry
  -- The slot comes to rest at some place, and goes back from there.
  obtain ⟨q, hslot, hback⟩ := Sift.slots_settle_set_back hp ho hu hi _ hr.slots_eq
  have hpos' : h'.registry.position x = .ok q := hr.position_eq hw hpos hslot
  obtain ⟨hq, hslot⟩ := Array.getElem?_eq_some_iff.mp hslot
  obtain ⟨_, h'', hr', hupd'⟩ := hw'.update_eq hpos' m h.slots[i].value
  simp only [hupd']
  refine ⟨trivial, by rw [hslot], ?_⟩
  have hslots := hr'.slots_eq
  simp only [hslot, hr.priority_eq] at hslots
  rw [hslots]
  exact hback hq

end Undo

end Heap

namespace World

variable [BEq α]

/-- **Undo**: in a heap that a run reaches, with a lawful ranking and no two elements of equal
rank, an insertion is undone by removing what was inserted, whatever its rank, and an update is
undone by updating back. The slots are the same afterwards, with their keys and in their order. A
handle whose insertion was undone is dead, and every other one is where it was. -/
theorem undo {commands : List (Command α)} {w : World α} (hrun : World.run {} commands = some w)
    {n : Nat} {h : Heap α} (hn : w.heap? n = some h) (hp : h.priority.Lawful)
    (hu : Untied h.priority h.slots) :
    (∀ value s x, w.exec (.act n (.insert value)) = some s → s.answer = .ok (.handle x) →
      ∃ s' h', s.world.exec (.act n (.remove x)) = some s' ∧ s'.answer = .ok (.value value) ∧
        s'.world.heap? n = some h' ∧ h'.slots = h.slots ∧
        (∃ cause, h'.registry.statusOf x = .error cause) ∧
        ∀ y i, h'.registry.position y = .ok i ↔ h.registry.position y = .ok i) ∧
    ∀ x old value, h.get x = .ok old →
      ∃ s s' h', w.exec (.act n (.update x value)) = some s ∧ s.answer = .ok (.value old) ∧
        s.world.exec (.act n (.update x old)) = some s' ∧ s'.answer = .ok (.value value) ∧
        s'.world.heap? n = some h' ∧ h'.slots = h.slots := by
  have hw := heap_wellFormed hrun hn
  have ho := ordered_of_run hrun hn hp
  refine ⟨fun value s x hx hans => ?_, fun x old value hget => ?_⟩
  · obtain ⟨s₀, hx₀, hans₀, hm, hn₁⟩ := exists_exec_act hn (.insert value)
    cases hx.symm.trans hx₀
    have hins := Op.effect hw w.mint (.insert value)
    generalize (Op.insert value).run h w.mint = o at hins hans₀ hm hn₁
    obtain ⟨h', m', events, answer⟩ := o
    cases hans₀.symm.trans hans
    have hrun₁ : World.run {} (commands ++ [.act n (.insert value)]) = some s.world := by
      rw [run_append, hrun]
      exact run_cons_eq_some.mpr ⟨s, hx, rfl⟩
    have hw' : h'.WellFormed := heap_wellFormed hrun₁ hn₁
    obtain ⟨s', hx', hans', -, hn'⟩ := exists_exec_act hn₁ (.remove x)
    have hrem := hw.remove_insert hp ho hu hins (Op.effect hw' m' (.remove x))
    rw [hm] at hans' hn'
    exact ⟨s', _, hx', hans'.trans hrem.1, hn', hrem.2⟩
  · obtain ⟨s, hx, hans, hm, hn₁⟩ := exists_exec_act hn (.update x value)
    obtain ⟨s', hx', hans', -, hn'⟩ := exists_exec_act hn₁ (.update x old)
    obtain ⟨hold, hback, hslots⟩ := hw.update_update hp ho hu w.mint value hget
    rw [hm] at hans' hn'
    refine ⟨s, s', _, hx, hans.trans ?_, hx', hans'.trans ?_, hn', hslots⟩
    · simp [Op.run, Outcome.map, hold, Except.map]
    · simp [Op.run, Outcome.map, hback, Except.map]

/-- A run to which this applies. The element inserted is as good as the root, and stops below it;
the element updated goes from the root to the bottom. Each is brought back. -/
theorem undo_of_three : ∃ (w : World (Fin 4)) (h : Heap (Fin 4)),
    World.run {} [.create {} .natural, .act 0 (.push 2), .act 0 (.insert 0), .act 0 (.push 1)] =
      some w ∧ w.heap? 0 = some h ∧ h.priority.Lawful ∧ Untied h.priority h.slots ∧
    (∃ s x, w.exec (.act 0 (.insert 0)) = some s ∧ s.answer = .ok (.handle x) ∧
      ∃ s' h', s.world.exec (.act 0 (.remove x)) = some s' ∧ s'.answer = .ok (.value 0) ∧
        s'.world.heap? 0 = some h' ∧ h'.slots = h.slots) ∧
    ∃ x s s' h', w.exec (.act 0 (.update x 3)) = some s ∧ s.answer = .ok (.value 0) ∧
      s.world.exec (.act 0 (.update x 0)) = some s' ∧ s'.answer = .ok (.value 3) ∧
      s'.world.heap? 0 = some h' ∧ h'.slots = h.slots := by
  have hcheck : ((World.run {} [.create {} .natural, .act 0 (.push 2), .act 0 (.insert 0),
      .act 0 (.push 1)]).any fun w => (w.heap? 0).any fun h =>
        decide (∀ a b : Fin 4, h.priority.compare a b = (h.priority.compare b a).swap) &&
        decide (∀ a b c : Fin 4, (h.priority.compare a b).isLE → (h.priority.compare b c).isLE →
          (h.priority.compare a c).isLE) &&
        decide (∀ i, ∀ hi : i < h.slots.size, ∀ j, ∀ hj : j < h.slots.size,
          h.priority.compare h.slots[i].value h.slots[j].value = .eq → i = j) &&
        h.get ⟨⟨2⟩, 0, 0⟩ = .ok 0 &&
        (w.exec (.act 0 (.insert 0))).any fun s => s.answer = .ok (.handle ⟨⟨2⟩, 1, 0⟩)) = true := by
    decide +kernel
  simp only [Option.any_eq_true, Bool.and_eq_true, decide_eq_true_eq] at hcheck
  obtain ⟨w, hrun, h, hn, ⟨⟨⟨hswap, htrans⟩, hties⟩, hget⟩, s, hx, hans⟩ := hcheck
  have hp : h.priority.Lawful :=
    { eq_swap := fun {a b} => hswap a b
      isLE_trans := fun {a b c} => htrans a b c }
  have hu : Untied h.priority h.slots := by
    intro i j a b ha hb hcmp
    obtain ⟨hi, rfl⟩ := Array.getElem?_eq_some_iff.mp ha
    obtain ⟨hj, rfl⟩ := Array.getElem?_eq_some_iff.mp hb
    exact hties i hi j hj hcmp
  obtain ⟨hinsert, hupdate⟩ := undo hrun hn hp hu
  obtain ⟨s', h', hx', hans', hn', hslots, -⟩ := hinsert 0 s _ hx hans
  exact ⟨w, h, hrun, hn, hp, hu, ⟨s, _, hx, hans, s', h', hx', hans', hn', hslots⟩,
    _, hupdate _ 0 3 hget⟩

end World

end TrackedHeap
