import TrackedHeap.Proofs.Bag.Refinement
import TrackedHeap.Proofs.World.Runs

/-!
# TrackedHeap.Proofs.Bag.Runs

**Worlds refine bags**: a run of a world is a run of the bags of its heaps, with the same
answers. Nothing is asked of the rankings.

What a bag leaves open is told of the heap itself: which entry `pop` deletes is shown by
`peek` before, and reading under a handle gives the element of its entry.
-/

namespace TrackedHeap

variable {α : Type}

namespace Heap

/-! ### Making and using up -/

theorem create_eq_error {policy : StoragePolicy} {priority : Priority α} {size : SlotSize}
    {m : Mint} {fault : Fault} (hc : Heap.create policy priority size m = .error fault) :
    fault = .capacityOverflow := by
  unfold Heap.create at hc
  split at hc <;> cases hc
  rfl

theorem bag_of_create {policy : StoragePolicy} {priority : Priority α} {size : SlotSize}
    {m m' : Mint} {h : Heap α} (hc : Heap.create policy priority size m = .ok (h, m')) :
    h.bag = {} := by
  obtain ⟨hs, hr, -, -⟩ := create_eq_ok hc
  refine Bag.ext (by simp [bag, hs]) (Set.eq_empty_iff_forall_notMem.mpr ?_)
  intro x hx
  have hissues := ((wellFormed_create hc).mem_reserved.mp hx).1
  rw [hr] at hissues
  simp [Registry.Issues] at hissues

/-- The elements of the entries are those of the heap. -/
theorem map_fst_entries (h : Heap α) : h.bag.entries.map Prod.fst = ↑h.values := by
  simp only [bag, Multiset.map_coe, List.map_map]
  rfl

/-- Popping as often as there are elements takes them all out. -/
theorem WellFormed.popMany_values {h : Heap α} (hw : h.WellFormed) (m : Mint) {count : Nat}
    (hcount : h.size ≤ count) : ∃ values ended,
      (h.popMany m count).answer = .ok (values, ended) ∧ values.Perm h.values := by
  induction count generalizing h m with
  | zero =>
      have hnil : h.values = [] := List.length_eq_zero_iff.mp (by simpa using hcount)
      exact ⟨[], none, rfl, hnil ▸ .nil⟩
  | succ count ih =>
      by_cases he : h.slots = #[]
      · exact ⟨[], some .empty, by simp [popMany, pop_of_empty he, Outcome.failed],
          by simp [Heap.values, he]⟩
      · obtain ⟨c, hpop, ht⟩ := hw.pop_eq (Array.size_pos_iff.mpr he) m
        have hperm := ht.perm_slots.map (·.value)
        rw [List.map_cons, ← ht.answer_eq] at hperm
        have hsize : c.heap.size ≤ count := by
          have hlen := hperm.length_eq
          simp only [List.length_cons, List.length_map, Array.length_toList] at hlen
          simp only [size] at hcount ⊢
          omega
        obtain ⟨values, ended, hans, hvalues⟩ := ih (ht.wellFormed hw) c.mint hsize
        refine ⟨c.answer :: values, ended, ?_, (hvalues.cons _).trans hperm⟩
        simp [popMany, hpop, Outcome.andThen, Outcome.map, hans, Except.map]

theorem WellFormed.drain_values {h : Heap α} (hw : h.WellFormed) (m : Mint) :
    ∃ values, (h.drain m).answer = .ok values ∧ values.Perm h.values := by
  obtain ⟨values, ended, hans, hvalues⟩ := hw.popMany_values m (Nat.le_refl _)
  exact ⟨values, by simp [drain, Outcome.map, hans, Except.map], hvalues⟩

/-! ### Reading -/

/-- What can be read from a heap is what its bag says. -/
structure Shows (h : Heap α) : Prop where
  values_eq : h.bag.entries.map Prod.fst = ↑h.values
  /-- A handle reads the element of its entry, and any other handle reads nothing. -/
  get_iff : ∀ x value, h.get x = .ok value ↔ h.bag.Names x value
  /-- No handle names two elements. -/
  handles_nodup : (h.bag.entries.filterMap Prod.snd).Nodup
  /-- A reserved handle names none. -/
  not_names_of_reserved : ∀ x ∈ h.bag.reserved, ∀ value, ¬ h.bag.Names x value
  /-- What `pop` answers is what `peek` shows. -/
  pop_eq_peek : ∀ m, (h.pop m).answer = h.peek.mapError .refused

theorem WellFormed.get_eq_ok_iff {h : Heap α} (hw : h.WellFormed) {x : Handle} {value : α} :
    h.get x = .ok value ↔ h.bag.Names x value := by
  rw [hw.names_iff]
  constructor
  · intro hget
    cases hp : h.registry.position x with
    | error cause => simp [get, hp] at hget
    | ok i =>
        have hi := hw.lt_size_of_position hp
        simp only [get, hp, Array.getElem?_eq_getElem hi, Except.ok.injEq] at hget
        refine ⟨(hw.position_eq_ok_iff.mp hp).1, ?_⟩
        rw [← hget, ← hw.key_of_position hp hi]
        exact Array.getElem_mem hi
  · intro hnames
    obtain ⟨hx, hs⟩ := hnames
    obtain ⟨i, hi⟩ := Array.getElem?_of_mem hs
    have hp : h.registry.position x = .ok i :=
      hw.position_eq_ok_iff.mpr ⟨hx, keyAt_eq_some_iff.mpr ⟨value, hi⟩⟩
    simp [get, hp, hi]

theorem WellFormed.shows {h : Heap α} (hw : h.WellFormed) : h.Shows where
  values_eq := h.map_fst_entries
  get_iff _ _ := hw.get_eq_ok_iff
  handles_nodup := hw.handles_nodup
  not_names_of_reserved x hx value hn :=
    (hw.mem_reserved.mp hx).2 (hw.exists_names_iff.mp ⟨value, hn⟩).2
  pop_eq_peek m := by
    by_cases he : h.slots = #[]
    · simp [pop_of_empty he, Outcome.failed, peek, he, Except.mapError]
    · have h0 : 0 < h.slots.size := Array.size_pos_iff.mpr he
      obtain ⟨c, hpop, ht⟩ := hw.pop_eq h0 m
      simp [hpop, ht.answer_eq, peek, h0, Except.mapError]

end Heap

namespace World

/-! ### Commands are steps of the bags -/

/-- The bags of the heaps of a world. -/
def bags (w : World α) : Bags α := w.heaps.map (·.map Heap.bag)

/-- The answers to commands, in order. -/
def answers [BEq α] (w : World α) : List (Command α) → List (Except Failure (Reply α))
  | [] => []
  | command :: rest =>
      match w.exec command with
      | none => []
      | some s => s.answer :: s.world.answers rest

theorem bags_getElem? {w : World α} {n : Nat} {h : Heap α} (hn : w.heap? n = some h) :
    w.bags[n]? = some (some h.bag) := by
  simp [bags, heap?_eq_some_iff.mp hn]

theorem bags_empty : ({} : World α).bags = #[] := by simp [bags]

@[simp] theorem size_bags (w : World α) : w.bags.size = w.heaps.size := by simp [bags]

theorem bags_setHeap (w : World α) (n : Nat) (x : Option (Heap α)) :
    (w.setHeap n x).bags = w.bags.setIfInBounds n (x.map Heap.bag) := by
  simp [bags, setHeap, Array.map_setIfInBounds]

theorem bags_addHeap (w : World α) (h : Heap α) :
    (w.addHeap h).bags = w.bags.push (some h.bag) := by
  simp [bags, addHeap]

variable [BEq α]

theorem bag_step_create (w : World α) (policy : StoragePolicy) (priority : Priority α)
    (size : SlotSize) :
    w.bags.Step (.create policy priority size) (w.create policy priority size).answer
      (w.create policy priority size).world.bags := by
  unfold World.create
  split
  · next h m hc =>
      show w.bags.Step _ (.ok (.number w.heaps.size)) (w.addHeap h).bags
      rw [bags_addHeap, Heap.bag_of_create hc, ← size_bags]
      exact .created
  · next fault hc =>
      rw [Heap.create_eq_error hc]
      exact .createFull

theorem bag_step_collect (w : World α) (priority : Priority α) (promised : Nat)
    (values : List α) (size : SlotSize) :
    w.bags.Step (.collect priority promised values size)
      (w.collect priority promised values size).answer
      (w.collect priority promised values size).world.bags := by
  unfold World.collect
  dsimp only
  split
  · next h m hc =>
      have hw := Heap.wellFormed_create hc
      have hstep := (Op.effect hw m (.extend values)).bag_step hw
      rw [Heap.bag_of_create hc] at hstep
      simp only [Op.run, Outcome.map] at hstep
      split
      · next hans =>
          rw [hans] at hstep
          show w.bags.Step _ (.ok (.number w.heaps.size)) (w.addHeap _).bags
          rw [bags_addHeap, hstep.extend_ok, ← size_bags]
          exact .collected
      · next failure hans =>
          rw [hans] at hstep
          rw [hstep.extend_error]
          exact .collectFull
  · next fault hc =>
      rw [Heap.create_eq_error hc]
      exact .collectFull

/-- **Commands are steps**: what a command comes to in a world, the bags can come to. -/
theorem bag_step {w : World α} (hw : w.WellFormed) {command : Command α}
    {s : Step α (Reply α)} (hx : w.exec command = some s) :
    w.bags.Step command s.answer s.world.bags := by
  cases command with
  | create policy priority size =>
      cases hx
      exact w.bag_step_create policy priority size
  | collect priority promised values size =>
      cases hx
      exact w.bag_step_collect priority promised values size
  | act n op =>
      obtain ⟨h, hn, hs⟩ := Option.bind_eq_some_iff.mp hx
      cases hs
      have hstep := (Op.effect (hw n h hn) w.mint op).bag_step (hw n h hn)
      show w.bags.Step _ _ (w.setHeap n (some (op.run h w.mint).heap)).bags
      rw [bags_setHeap]
      exact .acted (bags_getElem? hn) hstep
  | consume n =>
      obtain ⟨h, hn, hs⟩ := Option.bind_eq_some_iff.mp hx
      cases hs
      rw [bags_setHeap]
      exact .consumed (bags_getElem? hn) h.map_fst_entries
  | drain n =>
      obtain ⟨h, hn, hs⟩ := Option.bind_eq_some_iff.mp hx
      cases hs
      obtain ⟨values, hans, hperm⟩ := (hw n h hn).drain_values w.mint
      show w.bags.Step _ ((h.drain w.mint).answer.map .values) (w.setHeap n none).bags
      rw [bags_setHeap, hans]
      exact .drained (bags_getElem? hn)
        (h.map_fst_entries.trans (Multiset.coe_eq_coe.mpr hperm.symm))
  | openCursor n =>
      obtain ⟨h, hn, hs⟩ := Option.bind_eq_some_iff.mp hx
      cases hs
      exact .looked rfl
  | copyCursor cursor =>
      obtain ⟨c, hn, hs⟩ := Option.bind_eq_some_iff.mp hx
      cases hs
      exact .looked rfl
  | step cursor n | stepToEnd cursor n | restart cursor n =>
      obtain ⟨c, hcur, hx⟩ := Option.bind_eq_some_iff.mp hx
      obtain ⟨h, hn, hs⟩ := Option.bind_eq_some_iff.mp hx
      cases hs
      exact .looked rfl

theorem bags_run {w w' : World α} (hw : w.WellFormed) {commands : List (Command α)}
    (hrun : w.run commands = some w') :
    Bags.Run w.bags commands (w.answers commands) w'.bags := by
  induction commands generalizing w with
  | nil =>
      cases hrun
      exact .nil
  | cons command commands ih =>
      obtain ⟨s, hx, hrest⟩ := run_cons_eq_some.mp hrun
      simp only [answers, hx]
      exact .cons (bag_step hw hx) (ih ((turn_of_exec hw hx).wellFormed hw) hrest)

/-- **Worlds refine bags.** Whatever the rankings say and whatever handles are used, a run of a
world is a run of the bags of its heaps with the same answers; and what is read from a heap
then is what its bag says, `peek` showing the element that `pop` takes out. -/
theorem refines_bags {commands : List (Command α)} {w : World α}
    (hrun : World.run {} commands = some w) :
    Bags.Run #[] commands (World.answers {} commands) w.bags ∧
    ∀ n h, w.heap? n = some h → h.Shows :=
  ⟨bags_empty ▸ bags_run wellFormed_empty hrun, fun _ _ hn => (heap_wellFormed hrun hn).shows⟩

/-- A run to which this applies, with a ranking that takes all elements for equal. -/
theorem refines_bags_of_five : ∃ (w : World Nat) (h : Heap Nat),
    World.run {} [.create {} (.custom fun _ _ => .eq), .act 0 (.insert 5), .act 0 (.push 6),
      .act 0 (.update ⟨⟨2⟩, 0, 0⟩ 7), .act 0 (.remove ⟨⟨2⟩, 0, 0⟩)] = some w ∧
    w.heap? 0 = some h ∧
    Bags.Run #[] [.create {} (.custom fun _ _ => .eq), .act 0 (.insert 5), .act 0 (.push 6),
      .act 0 (.update ⟨⟨2⟩, 0, 0⟩ 7), .act 0 (.remove ⟨⟨2⟩, 0, 0⟩)]
      [.ok (.number 0), .ok (.handle ⟨⟨2⟩, 0, 0⟩), .ok .done, .ok (.value 5), .ok (.value 7)]
      w.bags ∧
    h.values = [6] ∧ h.Shows := by
  obtain ⟨w, h, hrun, hn, hcheck⟩ := exists_of_any_run (α := Nat)
    [.create {} (.custom fun _ _ => .eq), .act 0 (.insert 5), .act 0 (.push 6),
      .act 0 (.update ⟨⟨2⟩, 0, 0⟩ 7), .act 0 (.remove ⟨⟨2⟩, 0, 0⟩)] 0
    (fun h => decide (h.values = [6])) (by decide +kernel)
  have hanswers : World.answers ({} : World Nat) [.create {} (.custom fun _ _ => .eq),
      .act 0 (.insert 5), .act 0 (.push 6), .act 0 (.update ⟨⟨2⟩, 0, 0⟩ 7),
      .act 0 (.remove ⟨⟨2⟩, 0, 0⟩)] = [.ok (.number 0), .ok (.handle ⟨⟨2⟩, 0, 0⟩), .ok .done,
        .ok (.value 5), .ok (.value 7)] := by decide +kernel
  obtain ⟨hbags, hshows⟩ := refines_bags hrun
  exact ⟨w, h, hrun, hn, hanswers ▸ hbags, of_decide_eq_true hcheck, hshows 0 h hn⟩

end World

end TrackedHeap
