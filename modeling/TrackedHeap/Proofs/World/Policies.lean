import TrackedHeap.Lock
import TrackedHeap.Proofs.Bag.Runs
import TrackedHeap.Proofs.Heap.Alike
import TrackedHeap.Proofs.World.Capacity
import TrackedHeap.Proofs.World.Walks

/-!
# TrackedHeap.Proofs.World.Policies

**Storage policies are not seen in the contents.** The same commands, carried out twice with
different policies and from the same mint, are answered alike and lead to worlds that differ in
the storage of the heaps alone, unless one of the two runs finds no room.

One command keeps two worlds alike (`World.Alike`), which is `Op.run_alike` for the heap that is
asked and nothing at all for the others; the runs are compared by induction over the commands.
-/

namespace TrackedHeap

variable {α : Type}

/-! ### Reading -/

namespace Heap

/-- Two heaps of which the same is read, also by cursors and by copying. -/
structure ReadsAlike (h k : Heap α) : Prop where
  values_eq : k.values = h.values
  keys_eq : k.keys = h.keys
  owner_eq : k.owner = h.owner
  issued_eq : k.issued = h.issued
  lock_eq : k.lock = h.lock
  peek_eq : k.peek = h.peek
  get_eq : ∀ x, k.get x = h.get x
  containsHandle_eq : ∀ x, k.containsHandle x = h.containsHandle x
  indexOf?_eq : ∀ holds, k.indexOf? holds = h.indexOf? holds
  copyTo_eq : ∀ target offset, k.copyTo target offset = h.copyTo target offset
  copyConverted_eq : ∀ (β : Type) (convert : α → Option β) target offset,
    k.copyConverted convert target offset = h.copyConverted convert target offset
  start_eq : Cursor.start k = Cursor.start h
  next_eq : ∀ c : Cursor, c.next k = c.next h
  rest_eq : ∀ c : Cursor, c.rest k = c.rest h

variable {h k : Heap α}

theorem Alike.next_eq (ha : h.Alike k) (c : Cursor) : c.next k = c.next h := by
  unfold Cursor.next
  rw [ha.id_eq, ha.version_eq, ha.slots_eq]

theorem Alike.rest_eq (ha : h.Alike k) (c : Cursor) : c.rest k = c.rest h := by
  fun_induction c.rest h with
  | case1 c value d hn ih =>
      rw [Cursor.rest_of_next_some ((ha.next_eq c).trans hn), ih]
  | case2 c d hn => exact Cursor.rest_of_next_none ((ha.next_eq c).trans hn)
  | case3 c cause d hn => exact Cursor.rest_of_next_error ((ha.next_eq c).trans hn)

theorem Alike.readsAlike (ha : h.Alike k) : h.ReadsAlike k := by
  have hnext := ha.next_eq
  have hrest := ha.rest_eq
  obtain ⟨policy, size, capacity, hfloor, rfl⟩ := ha.exists_with
  exact ⟨rfl, rfl, rfl, rfl, rfl, rfl, fun _ => rfl, fun _ => rfl, fun _ => rfl, fun _ _ => rfl,
    fun _ _ _ _ => rfl, rfl, hnext, hrest⟩

/-! ### Making -/

theorem alike_create (policy policy' : StoragePolicy) (priority : Priority α) (size : SlotSize)
    (m : Mint) :
    AlikeUnlessFull (fun x y => x.1.Alike y.1 ∧ y.2 = x.2) (Heap.create policy priority size m)
      (Heap.create policy' priority size m) := by
  unfold Heap.create
  split <;> split
  · exact .done ⟨⟨rfl, rfl, rfl, rfl, rfl⟩, rfl⟩
  · exact .fullRight _
  · exact .fullLeft _
  · exact .fullLeft _

theorem policy_of_create {policy : StoragePolicy} {priority : Priority α} {size : SlotSize}
    {m m' : Mint} {h : Heap α} (hc : Heap.create policy priority size m = .ok (h, m')) :
    h.policy = policy := by
  unfold Heap.create at hc
  split at hc
  · cases hc
    rfl
  · cases hc

end Heap

/-- Two commands that are the same but for the policy of a new heap, or for what was promised of
the elements it is made of. -/
inductive Command.Alike : Command α → Command α → Prop
  | create (policy policy' : StoragePolicy) (priority : Priority α) (size : SlotSize) :
      Alike (.create policy priority size) (.create policy' priority size)
  | collect (priority : Priority α) (promised promised' : Nat) (values : List α) (size : SlotSize) :
      Alike (.collect priority promised values size) (.collect priority promised' values size)
  | same (command : Command α) : Alike command command

/-- Two worlds with the same mint and the same cursors, whose heaps differ in their storage. -/
structure World.Alike (w v : World α) : Prop where
  mint_eq : v.mint = w.mint
  cursors_eq : v.cursors = w.cursors
  size_eq : v.heaps.size = w.heaps.size
  heaps : ∀ n, Option.Rel Heap.Alike (w.heap? n) (v.heap? n)

/-- Two steps that are answered alike and lead to alike worlds, unless one of them found no
room. -/
def Step.AlikeUnlessFull (s t : Step α (Reply α)) : Prop :=
  IsFull s.answer ∨ IsFull t.answer ∨ t.answer = s.answer ∧ s.world.Alike t.world

namespace World

variable {w v : World α}

namespace Alike

theorem refl (w : World α) : w.Alike w := by
  refine ⟨rfl, rfl, rfl, fun n => ?_⟩
  cases w.heap? n with
  | none => exact .none
  | some h => exact .some (.refl h)

theorem exists_heap? (ha : w.Alike v) {n : Nat} {h : Heap α} (hn : w.heap? n = some h) :
    ∃ k, v.heap? n = some k ∧ h.Alike k :=
  exists_of_rel (ha.heaps n) hn

/-- Alike heaps in the place of one number. -/
theorem setHeap (ha : w.Alike v) {n : Nat} (hn : n < w.heaps.size) {x y : Option (Heap α)}
    (hxy : Option.Rel Heap.Alike x y) (m : Mint) :
    Alike { w.setHeap n x with mint := m } { v.setHeap n y with mint := m } := by
  refine ⟨rfl, ha.cursors_eq, ?_, ?_⟩
  · show (v.heaps.setIfInBounds n y).size = (w.heaps.setIfInBounds n x).size
    rw [Array.size_setIfInBounds, Array.size_setIfInBounds, ha.size_eq]
  · intro k
    have hleft : World.heap? { w.setHeap n x with mint := m } k = _ := heap?_of_set rfl hn k
    have hright : World.heap? { v.setHeap n y with mint := m } k = _ :=
      heap?_of_set rfl (ha.size_eq ▸ hn) k
    rw [hleft, hright]
    split
    · exact hxy
    · exact ha.heaps k

theorem addHeap (ha : w.Alike v) {h k : Heap α} (hk : h.Alike k) (m : Mint) :
    Alike { w.addHeap h with mint := m } { v.addHeap k with mint := m } := by
  refine ⟨rfl, ha.cursors_eq, ?_, ?_⟩
  · show (v.heaps.push (some k)).size = (w.heaps.push (some h)).size
    rw [Array.size_push, Array.size_push, ha.size_eq]
  · intro i
    have hleft : World.heap? { w.addHeap h with mint := m } i = _ := heap?_of_push rfl i
    have hright : World.heap? { v.addHeap k with mint := m } i = _ := heap?_of_push rfl i
    rw [hleft, hright, ha.size_eq]
    split
    · exact .some hk
    · exact ha.heaps i

theorem setCursors (ha : w.Alike v) (cursors : Array Cursor) :
    Alike { w with cursors := cursors } { v with cursors := cursors } :=
  ⟨ha.mint_eq, rfl, ha.size_eq, ha.heaps⟩

end Alike

/-! ### One command -/

theorem alike_create (ha : w.Alike v) (policy policy' : StoragePolicy) (priority : Priority α)
    (size : SlotSize) :
    (w.create policy priority size).AlikeUnlessFull (v.create policy' priority size) := by
  have hmade := Heap.alike_create policy policy' priority size w.mint
  unfold World.create
  rw [ha.mint_eq]
  generalize Heap.create policy priority size w.mint = x at hmade ⊢
  generalize Heap.create policy' priority size w.mint = y at hmade ⊢
  cases hmade with
  | fullLeft y => exact Or.inl rfl
  | fullRight x => exact Or.inr (Or.inl rfl)
  | cutOff fault => exact Or.inr (Or.inr ⟨rfl, ha⟩)
  | @done made made' h =>
      obtain ⟨h, m₀⟩ := made
      obtain ⟨k, m⟩ := made'
      obtain ⟨hk, rfl⟩ := h
      exact Or.inr (Or.inr ⟨by rw [ha.size_eq], ha.addHeap hk m⟩)

/-- What was promised decides the policy, and so neither the elements nor the tokens. -/
theorem alike_collect (ha : w.Alike v) (priority : Priority α) (promised promised' : Nat)
    (values : List α) (size : SlotSize) :
    (w.collect priority promised values size).AlikeUnlessFull
      (v.collect priority promised' values size) := by
  unfold World.collect
  dsimp only
  rw [ha.mint_eq]
  generalize ({} : StoragePolicy).withFloor (max promised _) = policy
  generalize ({} : StoragePolicy).withFloor (max promised' _) = policy'
  have hmade := Heap.alike_create policy policy' priority size w.mint
  generalize Heap.create policy priority size w.mint = x at hmade ⊢
  generalize Heap.create policy' priority size w.mint = y at hmade ⊢
  cases hmade with
  | fullLeft y => exact Or.inl rfl
  | fullRight x => exact Or.inr (Or.inl rfl)
  | cutOff fault => exact Or.inr (Or.inr ⟨rfl, ha⟩)
  | @done made made' h =>
      obtain ⟨h, m₀⟩ := made
      obtain ⟨k, m⟩ := made'
      obtain ⟨hk, rfl⟩ := h
      dsimp only
      rcases Heap.alike_extend hk m values with hl | hr | hfilled
      · exact Or.inl (by rw [show (h.extend m values).answer = _ from hl]; rfl)
      · exact Or.inr (Or.inl (by rw [show (k.extend m values).answer = _ from hr]; rfl))
      · rw [hfilled.answer_eq, hfilled.mint_eq]
        cases (h.extend m values).answer with
        | ok _ => exact Or.inr (Or.inr ⟨by rw [ha.size_eq], ha.addHeap hfilled.heap _⟩)
        | error failure =>
            exact Or.inr (Or.inr ⟨rfl, rfl, ha.cursors_eq, ha.size_eq, ha.heaps⟩)

variable [BEq α]

/-- **Alike commands in alike worlds** are both carried out or neither, and make alike steps. -/
theorem exec_alike (ha : w.Alike v) {command command' : Command α}
    (hc : command.Alike command') {s : Step α (Reply α)} (hx : w.exec command = some s) :
    ∃ t, v.exec command' = some t ∧ s.AlikeUnlessFull t := by
  cases hc with
  | create policy policy' priority size =>
      cases hx
      exact ⟨_, rfl, alike_create ha policy policy' priority size⟩
  | collect priority promised promised' values size =>
      cases hx
      exact ⟨_, rfl, alike_collect ha priority promised promised' values size⟩
  | same =>
      cases command with
      | create policy priority size =>
          cases hx
          exact ⟨_, rfl, alike_create ha policy policy priority size⟩
      | collect priority promised values size =>
          cases hx
          exact ⟨_, rfl, alike_collect ha priority promised promised values size⟩
      | act n op =>
          obtain ⟨h, hn, rfl⟩ := exec_act_eq_some.mp hx
          obtain ⟨k, hn', hk⟩ := ha.exists_heap? hn
          refine ⟨_, exec_act_eq_some.mpr ⟨k, hn', rfl⟩, ?_⟩
          rw [ha.mint_eq]
          rcases Op.run_alike hk w.mint op with hl | hr | ho
          · exact Or.inl hl
          · exact Or.inr (Or.inl hr)
          · rw [ho.mint_eq, ho.answer_eq]
            exact Or.inr (Or.inr ⟨rfl, ha.setHeap (lt_size_of_heap? hn) (.some ho.heap) _⟩)
      | consume n =>
          obtain ⟨h, hn, hs⟩ := Option.bind_eq_some_iff.mp hx
          cases hs
          obtain ⟨k, hn', hk⟩ := ha.exists_heap? hn
          refine ⟨_, Option.bind_eq_some_iff.mpr ⟨k, hn', rfl⟩, Or.inr (Or.inr ⟨?_, ?_⟩)⟩
          · dsimp only
            rw [hk.readsAlike.values_eq]
          · have hset := ha.setHeap (lt_size_of_heap? hn) .none w.mint
            exact ⟨ha.mint_eq, hset.cursors_eq, hset.size_eq, hset.heaps⟩
      | drain n =>
          obtain ⟨h, hn, hs⟩ := Option.bind_eq_some_iff.mp hx
          cases hs
          obtain ⟨k, hn', hk⟩ := ha.exists_heap? hn
          refine ⟨_, Option.bind_eq_some_iff.mpr ⟨k, hn', rfl⟩, ?_⟩
          rw [ha.mint_eq]
          rcases Heap.alike_drain hk w.mint with hl | hr | ho
          · exact Or.inl (by rw [show (h.drain w.mint).answer = _ from hl]; rfl)
          · exact Or.inr (Or.inl (by rw [show (k.drain w.mint).answer = _ from hr]; rfl))
          · rw [ho.mint_eq, ho.answer_eq]
            exact Or.inr (Or.inr ⟨rfl, ha.setHeap (lt_size_of_heap? hn) .none _⟩)
      | openCursor n =>
          obtain ⟨h, hn, rfl⟩ := exec_openCursor_eq_some.mp hx
          obtain ⟨k, hn', hk⟩ := ha.exists_heap? hn
          refine ⟨_, exec_openCursor_eq_some.mpr ⟨k, hn', rfl⟩, Or.inr (Or.inr ?_)⟩
          rw [ha.cursors_eq, hk.readsAlike.start_eq]
          exact ⟨rfl, ha.setCursors _⟩
      | copyCursor j =>
          obtain ⟨c, hj, rfl⟩ := exec_copyCursor_eq_some.mp hx
          refine ⟨_, exec_copyCursor_eq_some.mpr ⟨c, ha.cursors_eq ▸ hj, rfl⟩, Or.inr (Or.inr ?_)⟩
          rw [ha.cursors_eq]
          exact ⟨rfl, ha.setCursors _⟩
      | step j n =>
          obtain ⟨c, h, hj, hn, rfl⟩ := exec_step_eq_some.mp hx
          obtain ⟨k, hn', hk⟩ := ha.exists_heap? hn
          refine ⟨_, exec_step_eq_some.mpr ⟨c, k, ha.cursors_eq ▸ hj, hn', rfl⟩,
            Or.inr (Or.inr ?_)⟩
          unfold setCursor
          rw [ha.cursors_eq, hk.next_eq]
          exact ⟨rfl, ha.setCursors _⟩
      | stepToEnd j n =>
          obtain ⟨c, h, hj, hn, rfl⟩ := exec_stepToEnd_eq_some.mp hx
          obtain ⟨k, hn', hk⟩ := ha.exists_heap? hn
          refine ⟨_, exec_stepToEnd_eq_some.mpr ⟨c, k, ha.cursors_eq ▸ hj, hn', rfl⟩,
            Or.inr (Or.inr ?_)⟩
          unfold setCursor
          rw [ha.cursors_eq, hk.rest_eq]
          exact ⟨rfl, ha.setCursors _⟩
      | restart j n =>
          obtain ⟨c, h, hj, hn, rfl⟩ := exec_restart_eq_some.mp hx
          obtain ⟨k, hn', hk⟩ := ha.exists_heap? hn
          refine ⟨_, exec_restart_eq_some.mpr ⟨c, k, ha.cursors_eq ▸ hj, hn', rfl⟩,
            Or.inr (Or.inr ?_)⟩
          unfold setCursor
          rw [ha.cursors_eq, hk.readsAlike.start_eq]
          exact ⟨rfl, ha.setCursors _⟩

/-! ### Whole runs -/

/-- Alike commands are answered alike, and after each of them alike worlds are still alike. -/
theorem run_alike (ha : w.Alike v) {commands commands' : List (Command α)}
    (hc : List.Forall₂ Command.Alike commands commands') {w' : World α}
    (hrun : w.run commands = some w') (hroom : ∀ a ∈ w.answers commands, ¬ IsFull a)
    (hroom' : ∀ a ∈ v.answers commands', ¬ IsFull a) :
    v.answers commands' = w.answers commands ∧ ∀ i, ∃ wᵢ vᵢ, w.run (commands.take i) = some wᵢ ∧
      v.run (commands'.take i) = some vᵢ ∧ wᵢ.Alike vᵢ := by
  induction hc generalizing w v with
  | nil => exact ⟨rfl, fun i => ⟨w, v, by rw [List.take_nil, run_nil],
      by rw [List.take_nil, run_nil], ha⟩⟩
  | @cons command command' commands commands' hcommand _ ih =>
      obtain ⟨s, hx, hrest⟩ := run_cons_eq_some.mp hrun
      obtain ⟨t, hx', hst⟩ := exec_alike ha hcommand hx
      simp only [answers, hx, hx', List.forall_mem_cons] at hroom hroom' ⊢
      obtain ⟨hanswer, hworld⟩ := (hst.resolve_left hroom.1).resolve_left hroom'.1
      obtain ⟨hanswers, hprefix⟩ := ih hworld hrest hroom.2 hroom'.2
      refine ⟨by rw [hanswer, hanswers], ?_⟩
      intro i
      cases i with
      | zero => exact ⟨w, v, rfl, rfl, ha⟩
      | succ i =>
          obtain ⟨wᵢ, vᵢ, hwᵢ, hvᵢ, hᵢ⟩ := hprefix i
          exact ⟨wᵢ, vᵢ, run_cons_eq_some.mpr ⟨s, hx, hwᵢ⟩, run_cons_eq_some.mpr ⟨t, hx', hvᵢ⟩, hᵢ⟩

/-- A heap made of given elements has the policy that says nothing but the floor. -/
theorem policy_of_collect {priority : Priority α} {promised : Nat} {values : List α}
    {size : SlotSize} {h : Heap α}
    (hn : (w.collect priority promised values size).world.heap? w.heaps.size = some h) :
    h.policy = ({} : StoragePolicy).withFloor (max promised StoragePolicy.defaultFloor) := by
  have hnone : w.heap? w.heaps.size = none := by simp [heap?]
  rcases w.collect_cases priority promised values size rfl with ⟨fault, -, heq⟩ |
    ⟨g, m, failure, -, -, heq⟩ | ⟨g, m, hc, -, heq⟩
  · rw [heq] at hn
    cases hnone.symm.trans hn
  · rw [heq] at hn
    cases hnone.symm.trans hn
  · rw [heq, heap?_of_push rfl, if_pos rfl] at hn
    cases hn
    have hh := Heap.housed_create hc
    have he := Op.effect (Heap.wellFormed_create hc) m (.extend values)
    exact ((he.rehouses hh).policy_eq hh).trans (Heap.policy_of_create hc)

/-- **Policies decide about storage alone.** Two rows of commands that differ in the policies of
the heaps they make, whatever these are, and in what they were promised of the elements of a heap,
are carried out from alike worlds, and no command of either finds no room. Then all commands are
answered alike, and after each of them the two worlds have the same mint and the same cursors, and
heaps with the same identities, slots, registries and versions, of which the same is read. What a
new heap was promised decides its floor and its capacity alone. -/
theorem policies_unseen (ha : w.Alike v) {commands commands' : List (Command α)}
    (hc : List.Forall₂ Command.Alike commands commands') {w' : World α}
    (hrun : w.run commands = some w') (hroom : ∀ a ∈ w.answers commands, ¬ IsFull a)
    (hroom' : ∀ a ∈ v.answers commands', ¬ IsFull a) :
    v.answers commands' = w.answers commands ∧
    (∀ i, ∃ wᵢ vᵢ, w.run (commands.take i) = some wᵢ ∧ v.run (commands'.take i) = some vᵢ ∧
      wᵢ.Alike vᵢ ∧ ∀ n h, wᵢ.heap? n = some h → ∃ k, vᵢ.heap? n = some k ∧ h.Alike k ∧
        h.ReadsAlike k) ∧
    ∀ priority promised promised' values size,
      ¬ IsFull (w'.collect priority promised values size).answer →
      ¬ IsFull (w'.collect priority promised' values size).answer →
      (w'.collect priority promised' values size).answer =
        (w'.collect priority promised values size).answer ∧
      (w'.collect priority promised values size).world.Alike
        (w'.collect priority promised' values size).world ∧
      ∀ h k, (w'.collect priority promised values size).world.heap? w'.heaps.size = some h →
        (w'.collect priority promised' values size).world.heap? w'.heaps.size = some k →
        h.Alike k ∧ k.policy = { h.policy with floor := k.floor } := by
  obtain ⟨hanswers, hprefix⟩ := run_alike ha hc hrun hroom hroom'
  refine ⟨hanswers, ?_, ?_⟩
  · intro i
    obtain ⟨wᵢ, vᵢ, hwᵢ, hvᵢ, hᵢ⟩ := hprefix i
    refine ⟨wᵢ, vᵢ, hwᵢ, hvᵢ, hᵢ, ?_⟩
    intro n h hn
    obtain ⟨k, hn', hk⟩ := hᵢ.exists_heap? hn
    exact ⟨k, hn', hk, hk.readsAlike⟩
  · intro priority promised promised' values size hroom hroom'
    obtain ⟨hanswer, hworld⟩ :=
      ((alike_collect (Alike.refl w') priority promised promised' values size).resolve_left
        hroom).resolve_left hroom'
    refine ⟨hanswer, hworld, ?_⟩
    intro h k hn hn'
    obtain ⟨k', hk', hhk⟩ := hworld.exists_heap? hn
    cases hk'.symm.trans hn'
    refine ⟨hhk, ?_⟩
    rw [Heap.floor, policy_of_collect hn, policy_of_collect hn']
    rfl

/-- Two runs to which this applies, the second under a policy of zeros and a threshold that is not
a number. -/
theorem policies_unseen_of_two : ∃ (w v : World Nat) (h k : Heap Nat),
    World.run {} [.create {} .natural, .act 0 (.insert 5), .openCursor 0, .act 0 (.push 6),
      .step 0 0] = some w ∧ w.heap? 0 = some h ∧ h.capacity = 4 ∧
    World.run {} [.create { floor := 0, minGrowth := 0, shrinkFactor := 0, trimThreshold := 0 / 0 }
      .natural, .act 0 (.insert 5), .openCursor 0, .act 0 (.push 6), .step 0 0] = some v ∧
    v.heap? 0 = some k ∧ k.capacity = 2 ∧ h.Alike k ∧ h.ReadsAlike k := by
  obtain ⟨w, h, hrun, hn, hcapacity⟩ := exists_of_any_run (α := Nat)
    [.create {} .natural, .act 0 (.insert 5), .openCursor 0, .act 0 (.push 6), .step 0 0] 0
    (fun h => decide (h.capacity = 4)) (by decide +kernel)
  obtain ⟨v, k, hrun', hn', hcapacity'⟩ := exists_of_any_run (α := Nat)
    [.create { floor := 0, minGrowth := 0, shrinkFactor := 0, trimThreshold := 0 / 0 } .natural,
      .act 0 (.insert 5), .openCursor 0, .act 0 (.push 6), .step 0 0] 0
    (fun k => decide (k.capacity = 2)) (by decide +kernel)
  have hroom : ∀ a ∈ World.answers ({} : World Nat) [.create {} .natural, .act 0 (.insert 5),
      .openCursor 0, .act 0 (.push 6), .step 0 0], a ≠ .error (.fault .capacityOverflow) := by
    decide +kernel
  have hroom' : ∀ a ∈ World.answers ({} : World Nat)
      [.create { floor := 0, minGrowth := 0, shrinkFactor := 0, trimThreshold := 0 / 0 } .natural,
        .act 0 (.insert 5), .openCursor 0, .act 0 (.push 6), .step 0 0],
      a ≠ .error (.fault .capacityOverflow) := by
    decide +kernel
  obtain ⟨-, hprefix, -⟩ := policies_unseen (Alike.refl {})
    (.cons (.create ..) (.cons (.same _) (.cons (.same _) (.cons (.same _)
      (.cons (.same _) .nil))))) hrun hroom hroom'
  obtain ⟨w', v', hw', hv', -, hheaps⟩ := hprefix 5
  cases hw'.symm.trans hrun
  cases hv'.symm.trans hrun'
  obtain ⟨k', hk', halike, hreads⟩ := hheaps 0 h hn
  cases hk'.symm.trans hn'
  exact ⟨w, v, h, k, hrun, hn, of_decide_eq_true hcapacity, hrun', hn',
    of_decide_eq_true hcapacity', halike, hreads⟩

end World

end TrackedHeap
