import TrackedHeap.Proofs.Sift.Order
import TrackedHeap.Proofs.World.Runs

/-!
# TrackedHeap.Proofs.World.Order

**Heap order** in every run: under a lawful ranking no slot ranks behind one below it,
so the root ranks before or beside every element, and `pop` takes out what `peek` shows.

A move leaves the slots as they are, changes one of them and settles it, or takes one
away from the end. In each case the array the sift starts from agrees with an ordered
array away from one position, which is all that `Disturbed` asks for.
-/

namespace TrackedHeap

variable {α : Type}

/-! ### Arrays that agree with an ordered one -/

section Agree

variable {p : Priority α} {slots slots' : Array (Slot α)} {i : Nat}

/-- Pairs of slots that are also pairs of an array in order are in order. -/
theorem InOrder.of_agree {j k : Nat} (h : InOrder p slots j k)
    (hj : ∀ a, slots'[j]? = some a → slots[j]? = some a)
    (hk : ∀ a, slots'[k]? = some a → slots[k]? = some a) : InOrder p slots' j k :=
  fun a b ha hb => h a b (hj a ha) (hk b hb)

theorem Ordered.of_agree (ho : Ordered p slots)
    (hagree : ∀ (j : Nat) a, slots'[j]? = some a → slots[j]? = some a) : Ordered p slots' :=
  fun j hj => (ho j hj).of_agree (hagree (parent j)) (hagree j)

/-- An array that agrees with an ordered one away from `i` is disturbed at `i` at most. -/
theorem Ordered.disturbed (hp : p.Lawful) (ho : Ordered p slots)
    (hagree : ∀ j a, j ≠ i → slots'[j]? = some a → slots[j]? = some a) :
    Disturbed p slots' i := by
  refine ⟨?_, ?_⟩
  · intro j hj hji hpj
    exact (ho j hj).of_agree (fun a => hagree (parent j) a hpj) (fun a => hagree j a hji)
  · intro hi j hj hpj
    have hlt := parent_lt hi
    have hjlt := parent_lt hj
    intro a b ha hb
    have ha' := hagree _ a (by omega) ha
    have hb' := hagree _ b (by omega) hb
    -- The old slot at `i` stood between the two.
    have hsize : i < slots.size := by
      have := (Array.getElem?_eq_some_iff.mp hb').1
      omega
    have hbelow : InOrder p slots i j := hpj ▸ ho j hj
    exact (ho i hi).trans hp hsize hbelow a b ha' hb'

/-- A slot behind the last one can only have to go up. -/
theorem Ordered.liftable_push (hp : p.Lawful) (ho : Ordered p slots) (slot : Slot α) :
    Liftable p (slots.push slot) slots.size := by
  refine ⟨ho.disturbed hp ?_, fun j hj hpj => .of_size_le ?_⟩
  · intro j a hj ha
    rwa [Array.getElem?_push, if_neg hj] at ha
  · have := parent_lt hj
    simp only [Array.size_push]
    omega

theorem Ordered.disturbed_set (hp : p.Lawful) (ho : Ordered p slots) (hi : i < slots.size)
    (slot : Slot α) : Disturbed p (slots.set i slot hi) i :=
  ho.disturbed hp fun j a hj ha => by rwa [Array.getElem?_set_ne hi (Ne.symm hj)] at ha

/-- What is left when a slot was taken out and the gap filled and settled is ordered. -/
theorem Ordered.slotsWithout (hp : p.Lawful) (ho : Ordered p slots) (hi : i < slots.size) :
    Ordered p (Heap.slotsWithout p slots i hi) := by
  have hagree : ∀ j a, j ≠ i → (Heap.withoutSlot slots i hi)[j]? = some a → slots[j]? = some a := by
    intro j a hj ha
    rw [Heap.getElem?_withoutSlot] at ha
    rw [if_neg hj] at ha
    split at ha
    · exact ha
    · cases ha
  unfold Heap.slotsWithout
  split
  · exact Sift.ordered_settle hp (ho.disturbed hp hagree)
  · next hs =>
      refine ho.of_agree fun j a ha => hagree j a (fun hj => hs ?_) ha
      exact hj ▸ (Array.getElem?_eq_some_iff.mp ha).1

end Agree

/-! ### Every move keeps the order -/

namespace Heap

theorem Move.ordered {h h' : Heap α} {e : List HandleEvent} (hm : h.Move e h')
    (hp : h.priority.Lawful) (ho : Ordered h.priority h.slots) :
    Ordered h'.priority h'.slots := by
  rw [hm.priority_eq]
  cases hm with
  | issue hr hg => exact ho
  | withdraw hr hx hk hwith => exact ho
  | store hs =>
      rw [hs.slots_eq]
      exact Sift.ordered_up hp (ho.liftable_push hp _)
  | replace hr =>
      rw [hr.slots_eq]
      exact Sift.ordered_settle hp (ho.disturbed_set hp _ _)
  | takeOut hd hs =>
      rw [hs]
      exact ho.slotsWithout hp _
  | clear hd =>
      rw [hd.slots_eq_empty]
      exact fun j _ => .of_size_le (by simp)
  | resize capacity => exact ho

/-- The root of an ordered heap is a first element: `peek` shows it, and `pop` takes it out. -/
theorem WellFormed.exists_first {h : Heap α} (hw : h.WellFormed) (hp : h.priority.Lawful)
    (ho : Ordered h.priority h.slots) (hne : h.slots ≠ #[]) :
    ∃ first, h.peek = .ok first ∧
      (∀ value ∈ h.values, h.priority.compare first value ≠ .gt) ∧
      ∀ m, (h.pop m).answer = .ok first ∧ (first :: (h.pop m).heap.values).Perm h.values := by
  have h0 : 0 < h.slots.size := Array.size_pos_iff.mpr hne
  refine ⟨h.slots[0].value, ?_, ?_, ?_⟩
  · simp [peek, h0]
  · intro value hv
    obtain ⟨slot, hs, rfl⟩ := List.mem_map.mp hv
    obtain ⟨j, hj⟩ := List.getElem?_of_mem hs
    exact ho.root hp j _ _ (Array.getElem?_eq_getElem h0) (by simpa using hj)
  · intro m
    obtain ⟨c, hpop, ht⟩ := hw.pop_eq h0 m
    have hperm := ht.perm_slots.map (·.value)
    rw [List.map_cons, ← ht.answer_eq] at hperm
    rw [hpop, ← ht.answer_eq]
    exact ⟨rfl, hperm⟩

end Heap

namespace World

variable [BEq α]

/-- Every heap that a run reaches is ordered, if its ranking is lawful. -/
theorem ordered_of_run {commands : List (Command α)} {w : World α}
    (hrun : World.run {} commands = some w) {n : Nat} {h : Heap α} (hn : w.heap? n = some h) :
    h.priority.Lawful → Ordered h.priority h.slots := by
  refine (heap_induct (P := fun h => h.priority.Lawful → Ordered h.priority h.slots)
    ?_ ?_ ?_ hrun hn).2
  · intro policy priority size m h m' hc _
    rw [(Heap.create_eq_ok hc).1]
    exact fun j _ => .of_size_le (by simp)
  · intro h e h' _ ho hm hp
    rw [hm.priority_eq] at hp
    exact hm.ordered hp (ho hp)
  · intro h m h' m' _ ho hren hp
    rw [hren.priority_eq] at hp
    rw [hren.priority_eq, hren.slots_eq]
    exact ho hp

/-- **Heap order**: whatever a run does, with live, dead, foreign or made-up handles, a heap
with a lawful ranking is ordered afterwards. So `peek` shows an element that ranks behind no
other, and `pop` takes out that one. -/
theorem heap_ordered {commands : List (Command α)} {w : World α}
    (hrun : World.run {} commands = some w) {n : Nat} {h : Heap α} (hn : w.heap? n = some h)
    (hp : h.priority.Lawful) :
    (∀ i, 0 < i → ∀ hi : i < h.slots.size,
      h.priority.compare h.slots[(i - 1) / 2].value h.slots[i].value ≠ .gt) ∧
    (h.slots ≠ #[] → ∃ first, h.peek = .ok first ∧
      (∀ value ∈ h.values, h.priority.compare first value ≠ .gt) ∧
      ∀ m, (h.pop m).answer = .ok first ∧ (first :: (h.pop m).heap.values).Perm h.values) := by
  have ho := ordered_of_run hrun hn hp
  refine ⟨?_, (heap_wellFormed hrun hn).exists_first hp ho⟩
  intro i hi0 hi
  exact ho i hi0 _ _ (Array.getElem?_eq_getElem _) (Array.getElem?_eq_getElem hi)

/-- A run to which this applies: the element inserted last but one rises to the root. -/
theorem heap_ordered_of_three : ∃ (w : World (Fin 3)) (h : Heap (Fin 3)),
    World.run {} [.create {} .natural, .act 0 (.push 2), .act 0 (.insert 0), .act 0 (.push 1)] =
      some w ∧ w.heap? 0 = some h ∧ h.priority.Lawful ∧ h.values = [0, 2, 1] ∧
    (∀ i, 0 < i → ∀ hi : i < h.slots.size,
      h.priority.compare h.slots[(i - 1) / 2].value h.slots[i].value ≠ .gt) ∧
    ∃ first, h.peek = .ok first ∧ ∀ value ∈ h.values, h.priority.compare first value ≠ .gt := by
  obtain ⟨w, h, hrun, hn, hcheck⟩ := exists_of_any_run (α := Fin 3)
    [.create {} .natural, .act 0 (.push 2), .act 0 (.insert 0), .act 0 (.push 1)] 0
    (fun h => decide (h.values = [0, 2, 1] ∧
      (∀ a b, h.priority.compare a b = (h.priority.compare b a).swap) ∧
      ∀ a b c, (h.priority.compare a b).isLE → (h.priority.compare b c).isLE →
        (h.priority.compare a c).isLE))
    (by decide +kernel)
  obtain ⟨hvalues, hswap, htrans⟩ := of_decide_eq_true hcheck
  have hp : h.priority.Lawful :=
    { eq_swap := fun {a b} => hswap a b
      isLE_trans := fun {a b c} => htrans a b c }
  have hne : h.slots ≠ #[] := by
    intro he
    simp [Heap.values, he] at hvalues
  obtain ⟨hpairs, hfirst⟩ := heap_ordered hrun hn hp
  obtain ⟨first, hpeek, hle, -⟩ := hfirst hne
  exact ⟨w, h, hrun, hn, hp, hvalues, hpairs, first, hpeek, hle⟩

end World

end TrackedHeap
