import TrackedHeap.Proofs.Bag.Runs
import TrackedHeap.Proofs.Heap.Emptying
import TrackedHeap.Proofs.World.Account

/-!
# TrackedHeap.Proofs.World.Emptying

**Clearing agrees with popping to the end**: whatever the ranking, the two leave the same world but
for the version of the heap and the order in which its free keys wait.

One pop takes back one key and leaves a heap that is still to be emptied; the row of pops is an
induction on that, in which the last pop, which releases what is held, is the base.
-/

namespace TrackedHeap

namespace World

variable {α : Type} [BEq α] {w : World α} {n : Nat} {h : Heap α}

theorem events_of_exec_act (hn : w.heap? n = some h) {op : Op α} {s : Step α (Reply α)}
    (hx : w.exec (.act n op) = some s) : s.events = (op.run h w.mint).events := by
  obtain ⟨h₀, hn₀, rfl⟩ := exec_act_eq_some.mp hx
  cases hn.symm.trans hn₀
  rfl

/-- A request at the head of a row is carried out, answered and reported of. -/
theorem exists_act_head (hn : w.heap? n = some h) (op : Op α) :
    ∃ w₁ : World α, w₁.mint = (op.run h w.mint).mint ∧ w₁.heap? n = some (op.run h w.mint).heap ∧
      ∀ later, w.run (.act n op :: later) = w₁.run later ∧
        w.answers (.act n op :: later) = (op.run h w.mint).answer :: w₁.answers later ∧
        w.account n (.act n op :: later) = (op.run h w.mint).events ++ w₁.account n later := by
  obtain ⟨s, hx, hans, hm, hn₁⟩ := exists_exec_act hn op
  refine ⟨s.world, hm, hn₁, fun later => ⟨?_, ?_, ?_⟩⟩
  · simp only [run, hx]
    rfl
  · simp only [answers, hx, hans]
  · simp only [account, hx, Command.reports, if_pos, events_of_exec_act hn hx]

/-- A pop at the head of a row of commands has taken `c` out of the heap `h`, and the row goes on in
the world `w₁`. -/
structure PopsFirst (w : World α) (n : Nat) (h : Heap α) (w₁ : World α) (c : Change α α) : Prop where
  takesOut : ∃ hi, h.TakesOut w.mint 0 hi c
  mint_eq : w₁.mint = c.mint
  heap?_eq : w₁.heap? n = some c.heap
  further : h.EmptiesFurther w.mint c
  run_eq : ∀ later, w.run (.act n .pop :: later) = w₁.run later
  answers_eq : ∀ later,
    w.answers (.act n .pop :: later) = .ok (.value c.answer) :: w₁.answers later
  account_eq : ∀ later, w.account n (.act n .pop :: later) = c.events ++ w₁.account n later

theorem exists_popsFirst (hn : w.heap? n = some h) (hw : h.WellFormed) (hne : h.slots ≠ #[]) :
    ∃ w₁ c, w.PopsFirst n h w₁ c := by
  have hi : 0 < h.slots.size := Array.size_pos_iff.mpr hne
  obtain ⟨c, hpop, ht, hfurther⟩ := hw.pop_empties hi w.mint
  obtain ⟨w₁, hm, hn₁, hrow⟩ := exists_act_head hn .pop
  have hpop' : Op.pop.run h w.mint = ⟨c.heap, c.mint, c.events, .ok (.value c.answer)⟩ := by
    simp only [Op.run, hpop]
    rfl
  rw [hpop'] at hm hn₁ hrow
  exact ⟨w₁, c, ⟨hi, ht⟩, hm, hn₁, hfurther, fun later => (hrow later).1,
    fun later => (hrow later).2.1, fun later => (hrow later).2.2⟩

/-- A row of commands that began with the heap `h` has popped all its elements, has been told then
that it is empty, and has left `k`. -/
structure PopsToEnd (w : World α) (n : Nat) (h : Heap α) (row : List (Command α)) (w' : World α)
    (k : Heap α) : Prop where
  run_eq : w.run row = some w'
  answers_eq : ∃ xs : List α, xs.length = h.size ∧
    w.answers row = xs.map (fun x => .ok (.value x)) ++ [.error (.refused .empty)]
  heap?_eq : w'.heap? n = some k
  empties : h.Empties w.mint k w'.mint (w.account n row)
  /-- Each pop that went through counts once or twice. -/
  version_eq : ∃ bumps, k.version = h.version + UInt64.ofNat bumps ∧ h.size ≤ bumps ∧
    bumps ≤ 2 * h.size

namespace PopsFirst

variable {w₁ w' : World α} {c : Change α α} {k : Heap α} {row : List (Command α)}

theorem size_eq (hf : w.PopsFirst n h w₁ c) : h.size = c.heap.size + 1 := by
  obtain ⟨hi, ht⟩ := hf.takesOut
  simpa [Heap.size] using ht.perm_slots.length_eq.symm

/-- If that was the last element, the next pop finds none. -/
theorem last (hf : w.PopsFirst n h w₁ c) (he : c.heap.slots = #[]) :
    ∃ w', w.PopsToEnd n h [.act n .pop, .act n .pop] w' c.heap := by
  obtain ⟨hi, ht⟩ := hf.takesOut
  have hsize : h.size = 1 := by rw [hf.size_eq, Heap.size, he]; rfl
  have hempties : h.Empties w.mint c.heap c.mint c.events :=
    hf.further.elim (·.2) fun hmore => absurd he hmore.1
  have hpop : Op.pop.run c.heap w₁.mint = .failed c.heap w₁.mint (.refused .empty) := by
    simp only [Op.run, Heap.WellFormed.pop_of_empty he]
    rfl
  obtain ⟨w₂, hm, hn, hrow⟩ := exists_act_head hf.heap?_eq .pop
  rw [hpop] at hm hn hrow
  obtain ⟨hrun, hans, hacc⟩ := hrow []
  refine ⟨w₂, (hf.run_eq _).trans hrun, ⟨[c.answer], hsize.symm, ?_⟩, hn, ?_, ?_⟩
  · rw [hf.answers_eq, hans]
    rfl
  · rw [hf.account_eq, hacc, show w₂.mint = c.mint from hm.trans hf.mint_eq]
    exact (List.append_nil c.events).symm ▸ hempties
  · rw [hsize]
    exact ht.advances.exists_bumps

/-- If there are more elements, the pops that empty the rest empty the heap. -/
theorem cons (hf : w.PopsFirst n h w₁ c) (hne : c.heap.slots ≠ #[])
    (hpops : w₁.PopsToEnd n c.heap row w' k) : w.PopsToEnd n h (.act n .pop :: row) w' k := by
  obtain ⟨hi, ht⟩ := hf.takesOut
  obtain ⟨-, hmint, hevents, hback⟩ := hf.further.resolve_left fun hend => hne hend.1
  obtain ⟨xs, hlen, hans⟩ := hpops.answers_eq
  obtain ⟨bump, hversion, hge, hle⟩ := ht.advances.exists_bumps
  obtain ⟨bumps, hversion', hge', hle'⟩ := hpops.version_eq
  have hsize := hf.size_eq
  refine ⟨(hf.run_eq row).trans hpops.run_eq, ⟨c.answer :: xs, ?_, ?_⟩, hpops.heap?_eq, ?_,
    bump + bumps, ?_, by omega, by omega⟩
  · rw [List.length_cons, hlen, hsize]
  · rw [hf.answers_eq, hans]
    rfl
  · have hempties := hpops.empties
    rw [hf.mint_eq, hmint] at hempties
    rw [hf.account_eq, hevents, List.nil_append]
    exact hback _ _ _ hempties
  · rw [hversion', hversion, UInt64.ofNat_add, UInt64.add_assoc]

end PopsFirst

/-- **Popping to the end empties a heap.** -/
theorem exists_popsToEnd (hn : w.heap? n = some h) (hw : h.WellFormed) (hne : h.slots ≠ #[]) :
    ∃ w' k, w.PopsToEnd n h (List.replicate (h.size + 1) (.act n .pop)) w' k := by
  generalize hsize : h.size = count
  induction count generalizing w h with
  | zero => exact absurd (Array.size_eq_zero_iff.mp hsize) hne
  | succ count ih =>
      obtain ⟨w₁, c, hf⟩ := exists_popsFirst hn hw hne
      obtain ⟨hi, ht⟩ := hf.takesOut
      have hcount : c.heap.size = count := by
        have := hf.size_eq
        omega
      by_cases he : c.heap.slots = #[]
      · obtain rfl : count = 0 := by rw [← hcount, Heap.size, he]; rfl
        obtain ⟨w', hpops⟩ := hf.last he
        exact ⟨w', c.heap, hpops⟩
      · obtain ⟨w', k, hpops⟩ := ih hf.heap?_eq (ht.wellFormed hw) he hcount
        exact ⟨w', k, hf.cons he hpops⟩

/-- **Clearing agrees with popping to the end**, from a heap with elements that a run reaches,
whatever its ranking. Both leave no slots and the same mint, make the same reports, and leave heaps
that differ at most in their versions and in the order in which free keys wait. So both know no
position, and judge every handle alike, whether it was bound, reserved, dead or made up. -/
theorem clear_agrees_with_pops {commands : List (Command α)} (hrun : World.run {} commands = some w)
    (hn : w.heap? n = some h) (hne : h.slots ≠ #[]) :
    ∃ s k w' k', w.exec (.act n .clear) = some s ∧ s.answer = .ok .done ∧
      s.world.heap? n = some k ∧
      w.run (List.replicate (h.size + 1) (.act n .pop)) = some w' ∧ w'.heap? n = some k' ∧
      (∃ xs : List α, xs.length = h.size ∧
        w.answers (List.replicate (h.size + 1) (.act n .pop)) =
          xs.map (fun x => .ok (.value x)) ++ [.error (.refused .empty)]) ∧
      k.slots = #[] ∧ k.Coincides k' ∧ w'.mint = s.world.mint ∧
      w.account n (List.replicate (h.size + 1) (.act n .pop)) = s.events ∧
      (∀ key, k.registry.positionOf key = none) ∧
      (∀ x, k'.registry.statusOf x = k.registry.statusOf x ∧
        k'.registry.position x = k.registry.position x ∧
        k'.registry.unboundKey x = k.registry.unboundKey x) ∧
      k.version = h.version + 1 ∧
      ∃ bumps, k'.version = h.version + UInt64.ofNat bumps ∧ h.size ≤ bumps ∧
        bumps ≤ 2 * h.size := by
  have hw := heap_wellFormed hrun hn
  obtain ⟨hans, hempties, hversion⟩ := hw.empties_clear w.mint
  obtain ⟨w', k', hpops⟩ := exists_popsToEnd hn hw hne
  obtain ⟨hagrees, hmint, hevents⟩ := hempties.coincides hpops.empties
  obtain ⟨s, hx, hans', hm, hk⟩ := exists_exec_act hn .clear
  have hevents' : s.events = (h.clear w.mint).events := events_of_exec_act hn hx
  have hrun' : World.run {} (commands ++ [.act n .clear]) = some s.world := by
    rw [run_append, hrun]
    exact run_cons_eq_some.mpr ⟨s, hx, rfl⟩
  refine ⟨s, _, w', k', hx, ?_, hk, hpops.run_eq, hpops.heap?_eq, hpops.answers_eq,
    hempties.slots_eq, hagrees, hmint.trans hm.symm, hevents.trans hevents'.symm,
    (heap_wellFormed hrun' hk).positionOf_of_empty hempties.slots_eq,
    fun x => ⟨hagrees.statusOf_eq x, hagrees.position_eq x, hagrees.unboundKey_eq x⟩, hversion,
    hpops.version_eq⟩
  rw [hans']
  simp only [Op.run, Outcome.map, hans]
  rfl

/-- A run to which this applies: three elements have handles, the second of which is popped last,
and one handle is reserved, so that the registry stays. -/
theorem clear_agrees_with_pops_of_three : ∃ (w : World Nat) (h : Heap Nat),
    World.run {} [.create {} .natural, .act 0 (.insert 1), .act 0 (.insert 3), .act 0 (.insert 2),
      .act 0 .reserve] = some w ∧ w.heap? 0 = some h ∧ h.slots ≠ #[] ∧
    ∃ s k w' k', w.exec (.act 0 .clear) = some s ∧ s.world.heap? 0 = some k ∧
      w.run (List.replicate (h.size + 1) (.act 0 .pop)) = some w' ∧ w'.heap? 0 = some k' ∧
      k.slots = #[] ∧ k.Coincides k' ∧ w'.mint = s.world.mint := by
  obtain ⟨w, h, hrun, hn, hcheck⟩ := exists_of_any_run (α := Nat)
    [.create {} .natural, .act 0 (.insert 1), .act 0 (.insert 3), .act 0 (.insert 2),
      .act 0 .reserve] 0 (fun h => decide (h.size = 3)) (by decide +kernel)
  have hsize : h.size = 3 := of_decide_eq_true hcheck
  have hne : h.slots ≠ #[] := by
    intro he
    simp [Heap.size, he] at hsize
  obtain ⟨s, k, w', k', hx, -, hk, hpops, hk', -, hslots, hagrees, hmint, -⟩ :=
    clear_agrees_with_pops hrun hn hne
  exact ⟨w, h, hrun, hn, hne, s, k, w', k', hx, hk, hpops, hk', hslots, hagrees, hmint⟩

end World

end TrackedHeap
