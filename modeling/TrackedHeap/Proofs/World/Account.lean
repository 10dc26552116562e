import TrackedHeap.Proofs.Heap.Account
import TrackedHeap.Proofs.World.Capacity
import TrackedHeap.Proofs.World.Tenure

/-!
# TrackedHeap.Proofs.World.Account

**The reports of a heap are a faithful account of its storage.**

What the commands of a run report of one heap is put together to one list (`World.account`). The
changes of capacity in it lead from the floor, with which the heap begins, to the capacity it has
now: each command adds the changes that lead from the capacity before it to the one after it. How
many records a registry had when it is renewed is read off the tenure that ends there: as many as
there were handles issued at once, with the keys that were spent by then. That spent keys do count
is shown at the end, by a run that wears a key out.
-/

namespace TrackedHeap

variable {α : Type}

namespace Command

/-- What a command that led to `s` has reported of the heap with number `n`. The answer to a command
that makes a heap is the number of the heap. -/
def reports (command : Command α) (s : Step α (Reply α)) (n : Nat) : List Event :=
  match command, s.answer with
  | .act k _, _ | .drain k, _ => if k = n then s.events else []
  | .collect .., .ok (.number k) => if k = n then s.events else []
  | _, _ => []

/-- The heap with number `n` as a command that led to `s` has left it; one that was drained, as it
was when its last element had been taken out. -/
def leaves (command : Command α) (w : World α) (s : Step α (Reply α)) (n : Nat) :
    Option (Heap α) :=
  match command with
  | .drain k => if k = n then (w.heap? n).map fun h => (h.drain w.mint).heap else s.world.heap? n
  | _ => s.world.heap? n

theorem leaves_of_ne {command : Command α} {w : World α} {s : Step α (Reply α)} {n : Nat}
    (hne : command ≠ .drain n) : command.leaves w s n = s.world.heap? n := by
  cases command with
  | drain k =>
      refine if_neg ?_
      rintro rfl
      exact hne rfl
  | create | collect | act | consume | openCursor | copyCursor | step | stepToEnd | restart => rfl

end Command

namespace World

variable [BEq α] {w : World α} {command : Command α} {s : Step α (Reply α)} {n : Nat}

/-- What is reported of the heap with number `n` while commands are carried out. -/
def account (w : World α) (n : Nat) : List (Command α) → List Event
  | [] => []
  | command :: rest =>
      match w.exec command with
      | none => []
      | some s => command.reports s n ++ s.world.account n rest

/-! ### One command -/

/-- Something is reported of a heap that is asked for something or drained, or that is made. -/
theorem reports_cases (hx : w.exec command = some s) (n : Nat) :
    command.reports s n = [] ∨
      (∃ h, w.heap? n = some h ∧ ((∃ op, command = .act n op) ∨ command = .drain n)) ∨
      n = w.heaps.size ∧ ∃ h', s.world.heap? n = some h' := by
  cases command with
  | act k op =>
      by_cases hk : k = n
      · subst hk
        obtain ⟨h, hn, -⟩ := exec_act_eq_some.mp hx
        exact Or.inr (Or.inl ⟨h, hn, Or.inl ⟨op, rfl⟩⟩)
      · exact Or.inl (if_neg hk)
  | drain k =>
      by_cases hk : k = n
      · subst hk
        obtain ⟨h, hn, -⟩ := Option.bind_eq_some_iff.mp hx
        exact Or.inr (Or.inl ⟨h, hn, Or.inr rfl⟩)
      · exact Or.inl (if_neg hk)
  | collect priority promised values size =>
      cases hx
      rcases w.collect_cases priority promised values size rfl with ⟨fault, -, heq⟩ |
        ⟨h, m, failure, -, -, heq⟩ | ⟨h, m, -, -, heq⟩
      · exact Or.inl (by simp only [heq, Command.reports])
      · exact Or.inl (by simp only [heq, Command.reports])
      · rw [heq]
        by_cases hn : w.heaps.size = n
        · exact Or.inr (Or.inr ⟨hn.symm, _, by rw [heap?_of_push rfl, if_pos hn.symm]⟩)
        · exact Or.inl (if_neg hn)
  | create | consume | openCursor | copyCursor | step | stepToEnd | restart => exact Or.inl rfl

/-- **One command** reports the truth about a heap that is there. -/
theorem faithful_of_exec (hw : w.WellFormed) {h : Heap α} (hn : w.heap? n = some h)
    (hx : w.exec command = some s) {h' : Heap α} (hl : command.leaves w s n = some h') :
    h.Faithful w.mint (command.reports s n) h' s.world.mint := by
  by_cases hdrain : command = .drain n
  · subst hdrain
    simp only [Command.leaves, if_true, hn, Option.map_some, Option.some.injEq] at hl
    obtain ⟨g, hg, hs⟩ := Option.bind_eq_some_iff.mp hx
    cases hn.symm.trans hg
    cases hs
    subst hl
    simp only [Command.reports, if_true]
    exact (hw n h hn).faithful_drain w.mint
  · rw [Command.leaves_of_ne hdrain] at hl
    rcases heap?_of_exec hx hl with ⟨hsame, hact⟩ | ⟨op, g, rfl, hg, rfl, hm, -⟩ |
      ⟨-, -, -, -, -, -, hsize, -⟩
    · cases hn.symm.trans hsame
      rcases reports_cases hx n with hnil | ⟨-, -, ⟨op, hop⟩ | hd⟩ | ⟨hsize, -⟩
      · exact hnil ▸ h.faithful_nil w.mint s.world.mint
      · exact absurd hop (hact op)
      · exact absurd hd hdrain
      · exact absurd (lt_size_of_heap? hn) (by omega)
    · cases hn.symm.trans hg
      obtain ⟨g, hg, rfl⟩ := exec_act_eq_some.mp hx
      cases hn.symm.trans hg
      simp only [Command.reports, if_true]
      exact (hw n h hn).faithful_run w.mint op
    · exact absurd (lt_size_of_heap? hn) (by omega)

/-- A new heap begins with its floor, and what it reports while it is filled leads from there. -/
theorem chained_of_create {policy : StoragePolicy} {priority : Priority α} {size : SlotSize}
    {m m' : Mint} {h : Heap α} (hc : Heap.create policy priority size m = .ok (h, m'))
    (values : List α) :
    (h.extend m' values).heap.floor = h.floor ∧
    Chained h.floor ((h.extend m' values).events.filterMap Event.resizing?)
      (h.extend m' values).heap.capacity := by
  have hw := Heap.wellFormed_create hc
  have hh := Heap.housed_create hc
  have hfull : h.capacity = h.floor := by
    unfold Heap.create at hc
    split at hc
    · cases hc
      rfl
    · cases hc
  have hpolicy := ((Op.effect hw m' (.extend values)).rehouses hh).policy_eq hh
  exact ⟨congrArg StoragePolicy.floor hpolicy,
    hfull ▸ (hw.faithful_run m' (.extend values)).chained⟩

/-- What is reported of a heap that is made leads to the capacity that it has then. -/
theorem chained_of_made (hx : w.exec command = some s) {h' : Heap α}
    (hn' : s.world.heap? w.heaps.size = some h') :
    Chained h'.floor ((command.reports s w.heaps.size).filterMap Event.resizing?) h'.capacity := by
  have hnone : ∀ h, w.heap? w.heaps.size ≠ some h := fun h hn =>
    Nat.lt_irrefl _ (lt_size_of_heap? hn)
  cases command with
  | create policy priority size =>
      cases hx
      unfold World.create at hn'
      rcases hc : Heap.create policy priority size w.mint with fault | ⟨h, m⟩
      · rw [hc] at hn'
        exact absurd hn' (hnone h')
      · rw [hc] at hn'
        dsimp only at hn'
        rw [heap?_of_push rfl, if_pos rfl] at hn'
        cases hn'
        exact (chained_of_create hc []).2
  | collect priority promised values size =>
      cases hx
      rcases w.collect_cases priority promised values size rfl with ⟨fault, -, heq⟩ |
        ⟨h, m, failure, -, -, heq⟩ | ⟨h, m, hc, -, heq⟩
      · rw [heq] at hn'
        exact absurd hn' (hnone h')
      · rw [heq] at hn'
        exact absurd hn' (hnone h')
      · rw [heq] at hn' ⊢
        rw [heap?_of_push rfl, if_pos rfl] at hn'
        cases hn'
        simp only [Command.reports, if_true]
        obtain ⟨hfloor, hchained⟩ := chained_of_create hc values
        exact hfloor ▸ hchained
  | act k op =>
      obtain ⟨h, hn, rfl⟩ := exec_act_eq_some.mp hx
      have hlt := lt_size_of_heap? hn
      have hset : (w.setHeap k (some (op.run h w.mint).heap)).heap? w.heaps.size = some h' := hn'
      rw [heap?_of_set rfl hlt, if_neg (Nat.ne_of_gt hlt)] at hset
      exact absurd hset (hnone h')
  | consume k | drain k =>
      obtain ⟨h, hn, hs⟩ := Option.bind_eq_some_iff.mp hx
      cases hs
      exact absurd (heap?_of_drop rfl hn') (hnone h')
  | openCursor k =>
      obtain ⟨h, -, rfl⟩ := exec_openCursor_eq_some.mp hx
      exact absurd hn' (hnone h')
  | copyCursor j =>
      obtain ⟨c, -, rfl⟩ := exec_copyCursor_eq_some.mp hx
      exact absurd hn' (hnone h')
  | step j k =>
      obtain ⟨c, h, -, -, rfl⟩ := exec_step_eq_some.mp hx
      exact absurd hn' (hnone h')
  | stepToEnd j k =>
      obtain ⟨c, h, -, -, rfl⟩ := exec_stepToEnd_eq_some.mp hx
      exact absurd hn' (hnone h')
  | restart j k =>
      obtain ⟨c, h, -, -, rfl⟩ := exec_restart_eq_some.mp hx
      exact absurd hn' (hnone h')

/-! ### Whole runs -/

/-- All heaps are well formed and their storage is within its bounds, and the reports about the
heap with number `n` lead from its floor to its capacity. No reports are made before there is a
heap. -/
structure Accounted (w : World α) (n : Nat) (past : List Event) : Prop where
  heaps : ∀ n h, w.heap? n = some h → h.WellFormed ∧ h.Housed
  nil_of_le : w.heaps.size ≤ n → past = []
  chained : ∀ h, w.heap? n = some h → Chained h.floor (past.filterMap Event.resizing?) h.capacity

/-- A heap keeps its policy. -/
theorem policy_of_exec (hw : ∀ n h, w.heap? n = some h → h.WellFormed ∧ h.Housed) {h h' : Heap α}
    (hn : w.heap? n = some h) (hx : w.exec command = some s) (hn' : s.world.heap? n = some h') :
    h'.policy = h.policy := by
  obtain ⟨hwell, hh⟩ := hw n h hn
  rcases heap?_of_exec hx hn' with ⟨hsame, -⟩ | ⟨op, g, -, hg, rfl, -, -⟩ |
    ⟨-, -, -, -, -, -, hsize, -⟩
  · cases hn.symm.trans hsame
    rfl
  · cases hn.symm.trans hg
    exact ((Op.effect hwell w.mint op).rehouses hh).policy_eq hh
  · exact absurd (lt_size_of_heap? hn) (by omega)

/-- A command keeps the account. -/
theorem Accounted.step {past : List Event} (ha : w.Accounted n past)
    (hx : w.exec command = some s) : s.world.Accounted n (past ++ command.reports s n) := by
  have hw : w.WellFormed := fun n h hn => (ha.heaps n h hn).1
  have hheaps := forall_heap_of_exec (fun _ _ _ _ _ _ hc => Heap.housed_create hc)
    (fun _ _ _ _ _ hh he => (he.rehouses hh).housed hh) ha.heaps hx
  have hsize := (turn_of_exec hw hx).size_le
  refine ⟨hheaps, ?_, ?_⟩
  · intro hle
    rw [ha.nil_of_le (Nat.le_trans hsize hle), List.nil_append]
    rcases reports_cases hx n with hnil | ⟨h, hn, -⟩ | ⟨-, h', hn'⟩
    · exact hnil
    · exact absurd (lt_size_of_heap? hn) (by omega)
    · exact absurd (lt_size_of_heap? hn') (by omega)
  · intro h' hn'
    rw [List.filterMap_append]
    cases hn : w.heap? n with
    | some h =>
        have hdrain : command ≠ .drain n := by
          rintro rfl
          obtain ⟨g, hg, hs⟩ := Option.bind_eq_some_iff.mp hx
          cases hs
          have hset : (w.setHeap n none).heap? n = some h' := hn'
          rw [heap?_of_set rfl (lt_size_of_heap? hg), if_pos rfl] at hset
          cases hset
        have hf := faithful_of_exec hw hn hx ((Command.leaves_of_ne hdrain).trans hn')
        have hfloor : h'.floor = h.floor :=
          congrArg StoragePolicy.floor (policy_of_exec ha.heaps hn hx hn')
        exact hfloor ▸ (ha.chained h hn).append hf.chained
    | none =>
        have hlast : n = w.heaps.size := by
          rcases heap?_of_exec hx hn' with ⟨hsame, -⟩ | ⟨op, g, -, hg, -⟩ |
            ⟨-, -, -, -, -, -, hlast, -⟩
          · cases hn.symm.trans hsame
          · cases hn.symm.trans hg
          · exact hlast
        subst hlast
        rw [ha.nil_of_le (Nat.le_refl _)]
        exact chained_of_made hx hn'

/-- The induction is on the commands that are left; what was reported before comes along. -/
theorem Accounted.run {past : List Event} (ha : w.Accounted n past) {commands : List (Command α)}
    {w' : World α} (hrun : w.run commands = some w') :
    w'.Accounted n (past ++ w.account n commands) := by
  induction commands generalizing w past with
  | nil =>
      cases hrun
      rwa [account, List.append_nil]
  | cons command commands ih =>
      obtain ⟨s, hx, hrest⟩ := run_cons_eq_some.mp hrun
      simp only [account, hx]
      rw [← List.append_assoc]
      exact ih (ha.step hx) hrest

/-- **The reports of a heap are a faithful account of its storage.** Of a heap that a run reaches,
under any policy and ranking,

* the changes of capacity that were reported since it was made lead from its floor, one to the
  next, to the capacity it has;
* the changes that one more command reports lead on to the capacity that the command leaves, so no
  capacity changes without a report of what it has become;
* trimming is reported with the number of elements, which it leaves as they are;
* a report that the registry was released is made by a command that has put the next token in the
  place of the owner. The records it tells of are as many as there were ever handles issued at once
  under the owner before, with the keys that were spent by then; so they are the handles alone,
  unless some key has come to the end of its count.

A heap that is being made of given elements reports how it grows from its floor, also if there is
no room for all of them in the end. -/
theorem reports_faithful {commands : List (Command α)} (hrun : World.run {} commands = some w)
    {h : Heap α} (hn : w.heap? n = some h) :
    Chained h.floor ((World.account {} n commands).filterMap Event.resizing?) h.capacity ∧
    (∀ command s h', w.exec command = some s → command.leaves w s n = some h' →
      Chained h.capacity ((command.reports s n).filterMap Event.resizing?) h'.capacity ∧
      (h'.capacity ≠ h.capacity → ∃ event ∈ command.reports s n, ∃ before,
        event.resizing? = some (before, h'.capacity)) ∧
      (∀ before after live, .trimmed before after live ∈ command.reports s n →
        live = h.size ∧ h'.slots = h.slots) ∧
      ∀ tracked owner, .registryReleased tracked owner ∈ command.reports s n →
        h'.owner = owner ∧ owner = w.mint.next ∧ s.world.mint = w.mint.draw.2 ∧
        (World.minted {} commands + 1 < 0x10000000000000000 → h.owner ≠ owner) ∧
        IsGreatest {k | ∃ g ∈ World.tenure {} n [] commands, g.issued + g.registry.spent = k}
          tracked ∧
        (h.registry.Unspent →
          IsGreatest {k | ∃ g ∈ World.tenure {} n [] commands, g.issued = k} tracked)) ∧
    ∀ priority promised values size policy g m,
      policy = ({} : StoragePolicy).withFloor (max promised StoragePolicy.defaultFloor) →
      Heap.create policy priority size w.mint = .ok (g, m) →
      Chained g.floor ((w.collect priority promised values size).events.filterMap Event.resizing?)
        (g.extend m values).heap.capacity := by
  have hw : w.WellFormed := fun n h hn => heap_wellFormed hrun hn
  have hnone : ∀ k (g : Heap α), ({} : World α).heap? k ≠ some g := by simp [heap?]
  have hstart : ({} : World α).Accounted n [] :=
    ⟨fun k g hg => absurd hg (hnone k g), fun _ => rfl, fun g hg => absurd hg (hnone n g)⟩
  have hspans : h.Spans (World.tenure {} n [] commands) :=
    spans_of_run wellFormed_empty (fun g hg => absurd hg (hnone n g)) hrun h hn
  refine ⟨(hstart.run hrun).chained h hn, ?_, ?_⟩
  · intro command s h' hx hl
    have hf := faithful_of_exec hw hn hx hl
    refine ⟨hf.chained, ?_, hf.live_eq, ?_⟩
    · intro hne
      obtain ⟨before, hmem⟩ := hf.chained.exists_of_ne hne
      obtain ⟨event, hevent, heq⟩ := List.mem_filterMap.mp hmem
      exact ⟨event, hevent, before, heq⟩
    · intro tracked owner hmem
      obtain ⟨rfl, rfl, howner, hm⟩ := hf.renewed tracked owner hmem
      refine ⟨howner, rfl, hm, fun hlt => owner_ne_next hrun hlt hn, ⟨hspans.exists_used, ?_⟩,
        fun hunspent => ⟨hspans.exists_peak hunspent, ?_⟩⟩
      · rintro k ⟨g, hg, rfl⟩
        exact hspans.used_le g hg
      · rintro k ⟨g, hg, rfl⟩
        exact hspans.issued_le g hg
  · intro priority promised values size policy g m hp hc
    rcases w.collect_cases priority promised values size hp with ⟨fault, hfault, -⟩ |
      ⟨g', m', failure, hc', -, heq⟩ | ⟨g', m', hc', -, heq⟩
    · rw [hc] at hfault
      cases hfault
    · cases hc.symm.trans hc'
      exact heq ▸ (chained_of_create hc values).2
    · cases hc.symm.trans hc'
      exact heq ▸ (chained_of_create hc values).2

/-- A run to which this applies: the heap grows for the second handle, and releases its storage and
its registry when the second element is taken out. -/
theorem reports_faithful_of_two : ∃ (commands : List (Command Nat)) (w : World Nat)
    (h h' : Heap Nat) (s : Step Nat (Reply Nat)),
    commands = [.create { floor := 1, minGrowth := 1, shrinkFactor := 1 } .natural,
      .act 0 (.insert 5), .act 0 (.insert 6), .act 0 .pop] ∧
    World.run {} commands = some w ∧ w.heap? 0 = some h ∧ Chained 1 [(1, 2)] h.capacity ∧
    w.exec (.act 0 .pop) = some s ∧ s.world.heap? 0 = some h' ∧
    s.events = [.released 2 1, .registryReleased 2 ⟨3⟩] ∧ Chained 2 [(2, 1)] h'.capacity ∧
    h'.owner = ⟨3⟩ ∧ h.owner ≠ ⟨3⟩ ∧
    IsGreatest {k | ∃ g ∈ World.tenure {} 0 [] commands, g.issued = k} 2 := by
  obtain ⟨commands, hcommands⟩ : ∃ commands : List (Command Nat), commands =
      [.create { floor := 1, minGrowth := 1, shrinkFactor := 1 } .natural,
        .act 0 (.insert 5), .act 0 (.insert 6), .act 0 .pop] := ⟨_, rfl⟩
  have hcheck : ((World.run {} commands).any fun w => (w.heap? 0).any fun h =>
      h.floor = 1 && h.capacity = 2 &&
        h.registry.records.all (fun record => record.generation < Registry.lastGeneration) &&
        (w.exec (.act 0 .pop)).any fun s => (s.world.heap? 0).isSome &&
          s.events = [.released 2 1, .registryReleased 2 ⟨3⟩]) = true := by
    rw [hcommands]
    decide +kernel
  have haccount : (World.account {} 0 commands).filterMap Event.resizing? = [(1, 2)] ∧
      World.minted {} commands + 1 < 0x10000000000000000 := by
    rw [hcommands]
    decide +kernel
  simp only [Option.any_eq_true, Bool.and_eq_true, decide_eq_true_eq, Array.all_eq_true',
    Option.isSome_iff_exists] at hcheck
  obtain ⟨w, hrun, h, hn, ⟨⟨hfloor, hcapacity⟩, hunspent⟩, s, hx, ⟨h', hn'⟩, hevents⟩ := hcheck
  obtain ⟨haccounts, hstep, -⟩ := reports_faithful hrun hn
  obtain ⟨hchained, -, -, hrenewed⟩ := hstep _ s h' hx hn'
  have hreports : Command.reports (.act 0 .pop) s 0 = s.events := rfl
  rw [hreports, hevents] at hchained hrenewed
  obtain ⟨howner, -, -, hne, -, hpeak⟩ := hrenewed 2 ⟨3⟩ (by simp)
  rw [hfloor, haccount.1] at haccounts
  exact ⟨commands, w, h, h', s, hcommands, hrun, hn, haccounts, hx, hn', hevents,
    hcapacity ▸ hchained, howner, hne haccount.2, hpeak hunspent⟩

end World

/-! ### A key that is spent -/

/-- The registry once its first key has been retired `count` times, and no other key was ever
issued. When the count cannot grow any further the key is spent. -/
def Registry.worn (owner : Token) : Nat → Registry
  | 0 => { owner := owner }
  | count + 1 =>
      if count < lastGeneration then
        { owner := owner, records := #[⟨count + 1, .vacant⟩], free := [0] }
      else { owner := owner, records := #[⟨count, .vacant⟩] }

/-- The same registry while that key is issued again. -/
def Registry.wearing (owner : Token) (count : Nat) : Registry :=
  { owner := owner, records := #[⟨count, .reserved⟩], issued := 1 }

namespace Registry

variable {owner : Token} {count : Nat}

theorem issued_worn : (worn owner count).issued = 0 := by
  cases count with
  | zero => rfl
  | succ count =>
      rw [worn]
      split <;> rfl

theorem reserve_worn (hle : count ≤ lastGeneration) :
    (worn owner count).reserve = .ok (⟨owner, 0, count⟩, wearing owner count) := by
  cases count with
  | zero => rfl
  | succ count =>
      rw [worn, if_pos (Nat.lt_of_succ_le hle)]
      rfl

theorem unboundKey_wearing : (wearing owner count).unboundKey ⟨owner, 0, count⟩ = .ok 0 := by
  simp [unboundKey, statusOf, wearing]

theorem retire_wearing (hle : count ≤ lastGeneration) :
    (wearing owner count).retire 0 = .ok (worn owner (count + 1)) := by
  rcases Nat.lt_or_eq_of_le hle with hlt | rfl
  · simp [retire, wearing, worn, hlt]
  · simp [retire, wearing, worn]

end Registry

/-- A heap of one element with this registry. -/
def Heap.loaded (r : Registry) : Heap Nat where
  id := ⟨1⟩
  priority := .natural
  policy := { floor := 0 }
  slotSize := .word
  slots := #[⟨7, none⟩]
  capacity := 4
  registry := r
  version := 1
  floor_lt := by decide

namespace World

/-- The world of that heap. -/
def loaded (r : Registry) : World Nat where
  mint := ⟨⟨3⟩⟩
  heaps := #[some (.loaded r)]

/-- The commands by which the first key is issued and taken back again, `times` times. A handle
shows how often that was done before, so each release names another one. -/
def wear (owner : Token) : Nat → Nat → List (Command Nat)
  | _, 0 => []
  | count, times + 1 =>
      .act 0 .reserve :: .act 0 (.release ⟨owner, 0, count⟩) :: wear owner (count + 1) times

variable {r s : Registry} {x : Handle} {op : Op Nat} {reply : Reply Nat}

theorem exec_loaded
    (ho : op.run (.loaded r) (loaded r).mint = .done (.loaded s) (loaded r).mint reply) :
    exec (loaded r) (.act 0 op) = some ⟨loaded s, [], .ok reply⟩ := by
  refine exec_act_eq_some.mpr ⟨.loaded r, rfl, ?_⟩
  rw [ho]
  rfl

theorem exec_reserve_loaded (hr : r.reserve = .ok (x, s)) :
    exec (loaded r) (.act 0 .reserve) = some ⟨loaded s, [], .ok (.handle x)⟩ := by
  refine exec_loaded ?_
  rw [Op.run, Heap.reserve, show (Heap.loaded r).registry.reserve = _ from hr]
  rfl

theorem exec_release_loaded (hx : r.unboundKey x = .ok x.key) (hr : r.retire x.key = .ok s) :
    exec (loaded r) (.act 0 (.release x)) = some ⟨loaded s, [], .ok .done⟩ := by
  refine exec_loaded ?_
  rw [Op.run, Heap.release, show (Heap.loaded r).registry.unboundKey x = _ from hx]
  dsimp only
  rw [show (Heap.loaded r).registry.retire x.key = _ from hr]
  rfl

/-- What leaves the mint alone adds a state to the tenure. -/
theorem tenure_loaded {command : Command Nat} {events : List Event}
    {answer : Except Failure (Reply Nat)}
    (hx : exec (loaded r) command = some ⟨loaded s, events, answer⟩) (past : List (Heap Nat))
    (rest : List (Command Nat)) :
    (loaded r).tenure 0 past (command :: rest) =
      (loaded s).tenure 0 (.loaded s :: past) rest := by
  simp only [tenure, hx]
  congr 1
  exact if_neg fun hask => hask.2 rfl

/-- The registry with its first key at the count `count` comes to `count + times`. -/
theorem run_wear {owner : Token} {count times : Nat}
    (hle : count + times ≤ Registry.lastGeneration + 1) :
    (loaded (.worn owner count)).run (wear owner count times) =
      some (loaded (.worn owner (count + times))) := by
  induction times generalizing count with
  | zero => rfl
  | succ times ih =>
      have hcount : count ≤ Registry.lastGeneration := by omega
      have hnext : count + 1 + times ≤ Registry.lastGeneration + 1 := by omega
      refine run_cons_eq_some.mpr ⟨_, exec_reserve_loaded (Registry.reserve_worn hcount), ?_⟩
      refine run_cons_eq_some.mpr ⟨_, exec_release_loaded Registry.unboundKey_wearing
        (Registry.retire_wearing hcount), ?_⟩
      rw [Nat.add_comm times 1, ← Nat.add_assoc]
      exact ih hnext

/-- No state on this way has more than one handle issued. -/
theorem issued_le_of_wear {owner : Token} {count times : Nat}
    (hle : count + times ≤ Registry.lastGeneration + 1) {past : List (Heap Nat)}
    (hpast : ∀ g ∈ past, g.issued ≤ 1) :
    ∀ g ∈ (loaded (.worn owner count)).tenure 0 past (wear owner count times), g.issued ≤ 1 := by
  induction times generalizing count past with
  | zero => exact hpast
  | succ times ih =>
      have hcount : count ≤ Registry.lastGeneration := by omega
      rw [wear, tenure_loaded (exec_reserve_loaded (Registry.reserve_worn hcount)),
        tenure_loaded (exec_release_loaded Registry.unboundKey_wearing
          (Registry.retire_wearing hcount))]
      refine ih (by omega) ?_
      simp only [List.forall_mem_cons]
      exact ⟨Registry.issued_worn.trans_le (Nat.zero_le 1), Nat.le_refl 1, hpast⟩

/-- A heap with one spent key that issues one more handle and takes it back has two records to tell
of when it is emptied. -/
theorem exists_pop_of_second (count : Nat) {past : List (Heap Nat)}
    (hpast : ∀ g ∈ past, g.issued ≤ 1) : ∃ w s,
    (loaded ⟨⟨2⟩, #[⟨count, .vacant⟩], [], 0⟩).run
        [.act 0 .reserve, .act 0 (.release ⟨⟨2⟩, 1, 0⟩)] = some w ∧
      (∀ g ∈ (loaded ⟨⟨2⟩, #[⟨count, .vacant⟩], [], 0⟩).tenure 0 past
        [.act 0 .reserve, .act 0 (.release ⟨⟨2⟩, 1, 0⟩)], g.issued ≤ 1) ∧
      w.exec (.act 0 .pop) = some s ∧ s.events = [.released 4 0, .registryReleased 2 ⟨3⟩] := by
  have hreserve : exec (loaded ⟨⟨2⟩, #[⟨count, .vacant⟩], [], 0⟩) (.act 0 .reserve) =
      some ⟨loaded ⟨⟨2⟩, #[⟨count, .vacant⟩, ⟨0, .reserved⟩], [], 1⟩, [],
        .ok (.handle ⟨⟨2⟩, 1, 0⟩)⟩ := exec_reserve_loaded rfl
  have hrelease : exec (loaded ⟨⟨2⟩, #[⟨count, .vacant⟩, ⟨0, .reserved⟩], [], 1⟩)
      (.act 0 (.release ⟨⟨2⟩, 1, 0⟩)) =
      some ⟨loaded ⟨⟨2⟩, #[⟨count, .vacant⟩, ⟨1, .vacant⟩], [1], 0⟩, [], .ok .done⟩ :=
    exec_release_loaded rfl rfl
  refine ⟨_, _, run_cons_eq_some.mpr ⟨_, hreserve, run_cons_eq_some.mpr ⟨_, hrelease, rfl⟩⟩, ?_,
    rfl, rfl⟩
  rw [tenure_loaded hreserve, tenure_loaded hrelease]
  simp only [tenure, List.forall_mem_cons]
  exact ⟨Nat.zero_le 1, Nat.le_refl 1, hpast⟩

/-- **More records than handles at once.** A heap with a floor of zero and one element issues a
handle and takes it back, again and again until the key is spent, and then does so with one key
more. It reports two records when it is emptied, and had never more than one handle issued: the
spent key has kept its record. -/
theorem records_exceed_issued : ∃ (commands : List (Command Nat)) (w : World Nat)
    (s : Step Nat (Reply Nat)),
    commands = [.create { floor := 0 } .natural, .act 0 (.push 7)] ++
      (wear ⟨2⟩ 0 (Registry.lastGeneration + 1) ++
        [.act 0 .reserve, .act 0 (.release ⟨⟨2⟩, 1, 0⟩)]) ∧
    World.run {} commands = some w ∧ w.exec (.act 0 .pop) = some s ∧
    .registryReleased 2 ⟨3⟩ ∈ Command.reports (.act 0 .pop) s 0 ∧
    (∀ g ∈ World.tenure {} 0 [] commands, g.issued ≤ 1) ∧
    ¬ IsGreatest {k | ∃ g ∈ World.tenure {} 0 [] commands, g.issued = k} 2 := by
  obtain ⟨last, hlast⟩ : ∃ last, last = Registry.lastGeneration := ⟨_, rfl⟩
  have hmade : World.run {} [.create { floor := 0 } .natural, .act 0 (.push 7)] =
      some (loaded (.worn ⟨2⟩ 0)) := by
    with_unfolding_all rfl
  have hnone : ∀ g ∈ World.tenure {} 0 []
      [.create { floor := 0 } .natural, .act 0 (.push (7 : Nat))], g.issued ≤ 1 := by
    decide +kernel
  have hle : 0 + (last + 1) ≤ Registry.lastGeneration + 1 := by omega
  have hworn : (loaded (.worn ⟨2⟩ 0)).run (wear ⟨2⟩ 0 (last + 1)) =
      some (loaded ⟨⟨2⟩, #[⟨last, .vacant⟩], [], 0⟩) := by
    rw [run_wear hle, Nat.zero_add, Registry.worn, if_neg (Nat.not_lt.mpr hlast.ge)]
  obtain ⟨w, s, hsecond, hissued, hpop, hevents⟩ :=
    exists_pop_of_second last (issued_le_of_wear hle hnone)
  obtain ⟨commands, hcommands⟩ : ∃ commands : List (Command Nat), commands =
      [.create { floor := 0 } .natural, .act 0 (.push 7)] ++
        (wear ⟨2⟩ 0 (last + 1) ++ [.act 0 .reserve, .act 0 (.release ⟨⟨2⟩, 1, 0⟩)]) := ⟨_, rfl⟩
  rw [← tenure_append hworn, ← tenure_append hmade, ← hcommands] at hissued
  refine ⟨commands, w, s, hlast ▸ hcommands, ?_, hpop, ?_, hissued, ?_⟩
  · rw [hcommands, run_append, hmade, Option.bind_some, run_append, hworn, Option.bind_some,
      hsecond]
  · show _ ∈ s.events
    rw [hevents]
    exact List.mem_cons_of_mem _ (List.mem_singleton_self _)
  · intro hpeak
    obtain ⟨g, hg, htwo⟩ := hpeak.1
    have hone := hissued g hg
    omega

end World

end TrackedHeap
