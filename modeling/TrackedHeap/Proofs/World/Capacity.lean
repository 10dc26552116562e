import TrackedHeap.Proofs.Heap.Storage
import TrackedHeap.Proofs.World.Runs

/-!
# TrackedHeap.Proofs.World.Capacity

**The capacity of every heap of a run stays between its bounds**, for any policy: it never falls
below the floor or the number of elements, and never exceeds what the policy allows for the largest
number of elements there were.

A command asks one heap for something and leaves the storage of the others alone, so each bound is
one of `Heap.Rehouses`, carried along the run. The bound from above is told of the peak of one
heap, for which the run is followed from its first command.
-/

namespace TrackedHeap

variable {α : Type}

open Relation (TransGen)

/-- A new heap is below the ceiling for any peak, for it holds its floor. -/
theorem Heap.capacity_le_ceiling_of_create {policy : StoragePolicy} {priority : Priority α}
    {size : SlotSize} {m m' : Mint} {h : Heap α}
    (hc : Heap.create policy priority size m = .ok (h, m')) (peak : Nat) :
    h.capacity ≤ h.policy.ceiling peak := by
  unfold Heap.create at hc
  split at hc
  · cases hc
    exact Nat.le_max_left ..
  · cases hc

namespace World

/-- How many elements there are in a heap; none, if it is not there. -/
def sizeAt (w : World α) (n : Nat) : Nat := (w.heap? n).elim 0 Heap.size

variable [BEq α]

/-- The largest number of elements in a heap, now and after each of the commands. -/
def peak (w : World α) (n : Nat) : List (Command α) → Nat
  | [] => w.sizeAt n
  | command :: rest =>
      match w.exec command with
      | none => w.sizeAt n
      | some s => max (w.sizeAt n) (s.world.peak n rest)

theorem sizeAt_le_peak (w : World α) (n : Nat) (commands : List (Command α)) :
    w.sizeAt n ≤ w.peak n commands := by
  cases commands with
  | nil => exact Nat.le_refl _
  | cons command rest =>
      unfold peak
      split
      · exact Nat.le_refl _
      · exact Nat.le_max_left ..

/-! ### One command -/

theorem housed_of_run {commands : List (Command α)} {w : World α}
    (hrun : World.run {} commands = some w) {n : Nat} {h : Heap α} (hn : w.heap? n = some h) :
    h.Housed :=
  (heap_request_induct (fun _ _ _ _ _ _ hc => Heap.housed_create hc)
    (fun _ _ _ _ _ hh he => (he.rehouses hh).housed hh) hrun hn).2

/-- A command keeps a heap below the ceiling for a peak that covers the size it leaves. -/
theorem capacity_le_ceiling_of_exec {w : World α}
    (hw : ∀ n h, w.heap? n = some h → h.WellFormed ∧ h.Housed) {command : Command α}
    {s : Step α (Reply α)} (hx : w.exec command = some s) {n peak : Nat}
    (hpeak : s.world.sizeAt n ≤ peak)
    (hbelow : ∀ h, w.heap? n = some h → h.capacity ≤ h.policy.ceiling peak) :
    ∀ h', s.world.heap? n = some h' → h'.capacity ≤ h'.policy.ceiling peak := by
  intro h' hn'
  have hsize : h'.size ≤ peak := by simpa only [sizeAt, hn', Option.elim_some] using hpeak
  rcases heap?_of_exec hx hn' with ⟨hn, -⟩ | ⟨op, h, -, hn, rfl, -, -⟩ |
    ⟨policy, priority, size, h, m, values, -, -, hc, rfl, -⟩
  · exact hbelow h' hn
  · obtain ⟨hwell, hh⟩ := hw n h hn
    exact ((Op.effect hwell w.mint op).rehouses hh).capacity_le_ceiling hh hsize (hbelow h hn)
  · have hh := Heap.housed_create hc
    have he := Op.effect (Heap.wellFormed_create hc) m (.extend values)
    exact (he.rehouses hh).capacity_le_ceiling hh hsize
      (Heap.capacity_le_ceiling_of_create hc peak)

/-! ### Whole runs -/

/-- The induction is on the commands that are left, and the peak covers all that is to come. -/
theorem capacity_le_ceiling_of_run {w w' : World α}
    (hw : ∀ n h, w.heap? n = some h → h.WellFormed ∧ h.Housed) {commands : List (Command α)}
    (hrun : w.run commands = some w') {n peak : Nat} (hpeak : w.peak n commands ≤ peak)
    (hbelow : ∀ h, w.heap? n = some h → h.capacity ≤ h.policy.ceiling peak) :
    ∀ h, w'.heap? n = some h → h.capacity ≤ h.policy.ceiling peak := by
  induction commands generalizing w with
  | nil =>
      cases hrun
      exact hbelow
  | cons command commands ih =>
      obtain ⟨s, hx, hrest⟩ := run_cons_eq_some.mp hrun
      simp only [World.peak, hx] at hpeak
      have hsize := s.world.sizeAt_le_peak n commands
      refine ih (forall_heap_of_exec (fun _ _ _ _ _ _ hc => Heap.housed_create hc)
        (fun _ _ _ _ _ hh he => (he.rehouses hh).housed hh) hw hx) hrest (by omega) ?_
      exact capacity_le_ceiling_of_exec hw hx (by omega) hbelow

/-- **Capacity is bounded.** For any policy, and any ranking, a heap that a run reaches

* holds its floor and has room for its elements;
* holds at most its floor, twice the largest number of elements it has had, or that number and
  the least growth;
* holds no more than its floor or the measure of its policy while it has no element.

The policy stays, and the capacity changes in three ways only. It rises where elements are
admitted, one after another: into a heap that is full, and so that there is room. It falls where it
is trimmed, never below the floor or the number of elements, and it falls to the floor where no
element is left. -/
theorem capacity_bounded {commands : List (Command α)} {w : World α}
    (hrun : World.run {} commands = some w) {n : Nat} {h : Heap α} (hn : w.heap? n = some h) :
    max h.floor h.size ≤ h.capacity ∧
    h.capacity ≤ h.policy.ceiling (World.peak {} n commands) ∧
    (h.isEmpty = true → h.capacity ≤
      max h.floor (min (h.floor * h.policy.shrinkFactor) StoragePolicy.wordMax)) ∧
    ∀ command s h', w.exec command = some s → s.world.heap? n = some h' →
      h'.policy = h.policy ∧
      (h.capacity < h'.capacity →
        ∃ op, command = .act n op ∧ op.inserts = true ∧ TransGen Heap.Admits h h') ∧
      (∀ op, command = .act n op → op.insertsOne = true → s.answer.isOk = true → h.Admits h') ∧
      (h'.capacity < h.capacity →
        command = .act n .trim ∧ h'.slots = h.slots ∧ max h.floor h.size ≤ h'.capacity ∨
        ∃ op, command = .act n op ∧ op.removes = true ∧ h'.slots = #[] ∧
          h'.capacity = h.floor) := by
  have hw := heap_wellFormed hrun hn
  have hh := housed_of_run hrun hn
  have hnone : ∀ k (g : Heap α), ({} : World α).heap? k ≠ some g := by simp [heap?]
  refine ⟨Nat.max_le.mpr ⟨hh.floor_le, hh.size_le⟩, ?_, ?_, ?_⟩
  · exact capacity_le_ceiling_of_run (fun k g hg => absurd hg (hnone k g)) hrun (Nat.le_refl _)
      (fun g hg => absurd hg (hnone n g)) h hn
  · intro he
    exact hh.le_of_empty (Heap.size_eq_zero_iff.mp (of_decide_eq_true he))
  · intro command s h' hx hn'
    rcases heap?_of_exec hx hn' with ⟨hsame, hne⟩ | ⟨op, g, rfl, hg, rfl, -, ha⟩ |
      ⟨-, -, -, -, -, -, hsize, -⟩
    · cases hn.symm.trans hsame
      exact ⟨rfl, fun hlt => absurd hlt (Nat.lt_irrefl _), fun op hc => absurd hc (hne op),
        fun hlt => absurd hlt (Nat.lt_irrefl _)⟩
    · cases hn.symm.trans hg
      have he := Op.effect hw w.mint op
      have hr := he.rehouses hh
      refine ⟨hr.policy_eq hh, ?_, ?_, ?_⟩
      · intro hlt
        exact ⟨op, rfl, hr.admits_of_lt hh hlt⟩
      · intro op' hc hop hok
        cases hc
        exact he.admits hh hop (ha ▸ hok)
      · intro hlt
        rcases hr.cases_of_lt hh hlt with ⟨rfl, htrim⟩ | hempty
        · exact Or.inl ⟨rfl, htrim⟩
        · exact Or.inr ⟨op, rfl, hempty⟩
    · exact absurd (lt_size_of_heap? hn) (by omega)

/-- A run to which this applies, under a policy of zeros but for the floor: the full heap grows
when one more element is added, and goes back to its floor when it is cleared. -/
theorem capacity_bounded_of_two : ∃ (w : World Nat) (h h₁ h₂ : Heap Nat)
    (s₁ s₂ : Step Nat (Reply Nat)),
    World.run {} [.create { floor := 1, minGrowth := 0, shrinkFactor := 0, trimThreshold := 0 }
      .natural, .act 0 (.push 5), .act 0 (.push 6)] = some w ∧ w.heap? 0 = some h ∧
    max h.floor h.size ≤ h.capacity ∧ h.capacity ≤ h.policy.ceiling 2 ∧
    (w.exec (.act 0 (.push 7)) = some s₁ ∧ s₁.world.heap? 0 = some h₁ ∧
      h.capacity < h₁.capacity ∧ h.Admits h₁) ∧
    w.exec (.act 0 .clear) = some s₂ ∧ s₂.world.heap? 0 = some h₂ ∧ h₂.capacity < h.capacity ∧
      h₂.slots = #[] ∧ h₂.capacity = h.floor := by
  have hcheck : ((World.run ({} : World Nat)
      [.create { floor := 1, minGrowth := 0, shrinkFactor := 0, trimThreshold := 0 } .natural,
        .act 0 (.push 5), .act 0 (.push 6)]).any fun w => (w.heap? 0).any fun h =>
      ((w.exec (.act 0 (.push 7))).any fun s => s.answer.isOk &&
        (s.world.heap? 0).any fun h' => h.capacity < h'.capacity) &&
      (w.exec (.act 0 .clear)).any fun s =>
        (s.world.heap? 0).any fun h' => h'.capacity < h.capacity) = true := by decide +kernel
  have hpeak : World.peak ({} : World Nat) 0
      [.create { floor := 1, minGrowth := 0, shrinkFactor := 0, trimThreshold := 0 } .natural,
        .act 0 (.push 5), .act 0 (.push 6)] = 2 := by decide +kernel
  simp only [Option.any_eq_true, Bool.and_eq_true, decide_eq_true_eq] at hcheck
  obtain ⟨w, hrun, h, hn, ⟨s₁, hx₁, hok, h₁, hn₁, hrise⟩, s₂, hx₂, h₂, hn₂, hfall⟩ := hcheck
  obtain ⟨hlow, hhigh, -, hstep⟩ := capacity_bounded hrun hn
  obtain ⟨-, -, hadmits, -⟩ := hstep _ s₁ h₁ hx₁ hn₁
  obtain ⟨-, -, -, hfalls⟩ := hstep _ s₂ h₂ hx₂ hn₂
  refine ⟨w, h, h₁, h₂, s₁, s₂, hrun, hn, hlow, hpeak ▸ hhigh,
    ⟨hx₁, hn₁, hrise, hadmits _ rfl rfl hok⟩, hx₂, hn₂, hfall, ?_⟩
  rcases hfalls hfall with ⟨htrim, -⟩ | ⟨-, -, -, hempty⟩
  · cases htrim
  · exact hempty

end World

end TrackedHeap
