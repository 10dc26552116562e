import Mathlib.Algebra.BigOperators.Group.Finset.Piecewise
import Mathlib.Algebra.GroupWithZero.Nat
import Mathlib.Algebra.Order.BigOperators.Group.Finset
import Mathlib.Data.List.Induction
import TrackedHeap.Proofs.World.Issuance
import TrackedHeap.Proofs.World.Renamed

/-!
# TrackedHeap.Proofs.World.Programs

**Programs** of several heaps, and what comes of the order in which they take turns.

A program gives each heap a row of tasks. No task knows a number or a handle: a cursor is the one
that an earlier task of the heap has made, and a handle is the one that a task of some heap was
answered with. A `Play` carries the tasks out, the heaps taking turns in a given order; it stops
where a task asks for what is not there yet. All this comes down to commands in a world
(`Play.commands`), and a play keeps record of what was done for which heap (`Deed`).

What is shown here is of one play: what is done for one heap does not touch another
(`Play.next_other`), and no token is drawn twice (`Play.ledger_of_run`).
-/

namespace TrackedHeap

variable {ι α : Type}

/-- What a program can ask for in the name of a heap. -/
inductive Task (ι α : Type)
  /-- Make the heap, empty. -/
  | create (policy : StoragePolicy) (priority : Priority α) (size : SlotSize := .word)
  /-- Make the heap of given elements. -/
  | collect (priority : Priority α) (promised : Nat) (values : List α) (size : SlotSize := .word)
  /-- Ask the heap for something. If that takes a handle, it is the one that this task of this heap
  was answered with, and not the one that is written here. -/
  | act (op : Op α) (issuer : Option (ι × Nat))
  /-- Use the heap up, for its elements in tree order. -/
  | consume
  /-- Use the heap up, for its elements in rank order. -/
  | drain
  /-- Put a new cursor before the first element. -/
  | openCursor
  /-- Make a second cursor at the place of the one that this task has made. -/
  | copyCursor (maker : Nat)
  /-- Step the cursor that this task has made. -/
  | step (maker : Nat)
  /-- Step the cursor that this task has made up to the end. -/
  | stepToEnd (maker : Nat)
  /-- Put the cursor that this task has made before the first element. -/
  | restart (maker : Nat)

/-- What was done for a heap in its turn. -/
structure Deed (α : Type) where
  /-- The world before. -/
  before : World α
  /-- The command that the task came down to. -/
  command : Command α
  /-- What the command has left. -/
  after : Step α (Reply α)

namespace Deed

/-- The number of the heap that was made. -/
def made (d : Deed α) : Option Nat := d.command.made d.after.answer

/-- The number of the cursor that was made. -/
def opened (d : Deed α) : Option Nat := d.command.opened d.after.answer

/-- The handle that was issued. -/
def issued (d : Deed α) : Option Handle := World.handedBy d.after.answer

/-- How many tokens were drawn. -/
def drawn (d : Deed α) : Nat := (d.after.world.mint.next.val - d.before.mint.next.val).toNat

theorem drawn_of_skip {d : Deed α} {l : Nat} (hm : d.after.world.mint = d.before.mint.skip l)
    (hl : l < 0x10000000000000000) : d.drawn = l := by
  rw [drawn, hm, Mint.distance_skip _ hl]

end Deed

/-- What was done for each heap, in order. -/
def Log (ι α : Type) := ι → List (Deed α)

namespace Log

variable (log : Log ι α)

/-- The number that a heap goes by. -/
def number (a : ι) : Option Nat := (log a).head?.bind Deed.made

/-- The number of the cursor that a task has made. -/
def cursor (a : ι) (maker : Nat) : Option Nat := (log a)[maker]?.bind Deed.opened

/-- The handle that a task was answered with. -/
def handle (issuer : ι × Nat) : Option Handle := (log issuer.1)[issuer.2]?.bind Deed.issued

/-- How many tokens were drawn for a heap. -/
def drawn (a : ι) : Nat := ((log a).map Deed.drawn).sum

/-- One more deed is written down. -/
def write [DecidableEq ι] (a : ι) (d : Deed α) : Log ι α := Function.update log a (log a ++ [d])

end Log

/-- A request made with a handle, if it takes one. -/
def Op.withHandle (handle : Option Handle) : Op α → Option (Op α)
  | release _ => handle.map release
  | insertWith _ value => handle.map (insertWith · value)
  | remove _ => handle.map remove
  | update _ value => handle.map (update · value)
  | op => some op

/-- The task whose handle a task takes. -/
def Task.takes : Task ι α → Option (ι × Nat)
  | act (.release _) issuer | act (.insertWith _ _) issuer | act (.remove _) issuer
  | act (.update _ _) issuer => issuer
  | _ => none

/-- The command that a task comes down to. A heap is made by its first task. -/
def Task.command (log : Log ι α) (a : ι) : Task ι α → Option (Command α)
  | create policy priority size =>
      if (log a).isEmpty then some (.create policy priority size) else none
  | collect priority promised values size =>
      if (log a).isEmpty then some (.collect priority promised values size) else none
  | act op issuer => do
      let n ← log.number a
      let op ← op.withHandle (issuer.bind log.handle)
      pure (.act n op)
  | consume => (log.number a).map .consume
  | drain => (log.number a).map .drain
  | openCursor => (log.number a).map .openCursor
  | copyCursor maker => (log.cursor a maker).map .copyCursor
  | step maker => do
      let c ← log.cursor a maker
      let n ← log.number a
      pure (.step c n)
  | stepToEnd maker => do
      let c ← log.cursor a maker
      let n ← log.number a
      pure (.stepToEnd c n)
  | restart maker => do
      let c ← log.cursor a maker
      let n ← log.number a
      pure (.restart c n)

namespace Log

variable {log : Log ι α} {a b : ι} {d : Deed α}

section Write

variable [DecidableEq ι]

theorem write_same (log : Log ι α) (a : ι) (d : Deed α) : log.write a d a = log a ++ [d] :=
  Function.update_self ..

theorem write_of_ne (log : Log ι α) (hab : b ≠ a) (d : Deed α) : log.write a d b = log b :=
  Function.update_of_ne hab ..

/-- The first deed for a heap gives it its number. -/
theorem number_write (log : Log ι α) (a : ι) (d : Deed α) (b : ι) :
    (log.write a d).number b = if b = a ∧ log a = [] then d.made else log.number b := by
  unfold number
  by_cases hab : b = a
  · subst hab
    rw [write_same]
    cases hb : log b with
    | nil => simp
    | cons e rest => simp
  · rw [write_of_ne log hab, if_neg fun h => hab h.1]

/-- A number stays. -/
theorem number_write_of_some {log : Log ι α} {b : ι} {n : Nat} (hn : log.number b = some n) (a : ι)
    (d : Deed α) : (log.write a d).number b = some n := by
  rw [number_write, if_neg, hn]
  rintro ⟨rfl, hnil⟩
  simp [number, hnil] at hn

/-- Every deed may make one cursor. -/
theorem cursor_write (log : Log ι α) (a : ι) (d : Deed α) (b : ι) (i : Nat) :
    (log.write a d).cursor b i =
      if b = a ∧ i = (log a).length then d.opened else log.cursor b i := by
  unfold cursor
  by_cases hab : b = a
  · subst hab
    rw [write_same]
    by_cases hi : i = (log b).length
    · subst hi
      simp
    · rw [if_neg fun h => hi h.2]
      rcases Nat.lt_or_gt_of_ne hi with hlt | hgt
      · rw [List.getElem?_append_left hlt]
      · rw [List.getElem?_eq_none, List.getElem?_eq_none (Nat.le_of_lt hgt)]
        simp only [List.length_append, List.length_singleton]
        omega
  · rw [write_of_ne log hab, if_neg fun h => hab h.1]

theorem drawn_write (log : Log ι α) (a : ι) (d : Deed α) (b : ι) :
    (log.write a d).drawn b = log.drawn b + if b = a then d.drawn else 0 := by
  unfold drawn
  by_cases hab : b = a
  · subst hab
    rw [write_same, List.map_append, List.sum_append, if_pos rfl, List.map_singleton,
      List.sum_singleton]
  · rw [write_of_ne log hab, if_neg hab, Nat.add_zero]

end Write

end Log

/-- What a task comes down to, by cases. -/
inductive Task.Means (log : Log ι α) (a : ι) : Task ι α → Command α → Prop
  | create {policy : StoragePolicy} {priority : Priority α} {size : SlotSize} (hnil : log a = []) :
      Means log a (.create policy priority size) (.create policy priority size)
  | collect {priority : Priority α} {promised : Nat} {values : List α} {size : SlotSize}
      (hnil : log a = []) :
      Means log a (.collect priority promised values size) (.collect priority promised values size)
  | act {op op' : Op α} {issuer : Option (ι × Nat)} {n : Nat} (hn : log.number a = some n)
      (hop : op.withHandle (issuer.bind log.handle) = some op') :
      Means log a (.act op issuer) (.act n op')
  | consume {n : Nat} (hn : log.number a = some n) : Means log a .consume (.consume n)
  | drain {n : Nat} (hn : log.number a = some n) : Means log a .drain (.drain n)
  | openCursor {n : Nat} (hn : log.number a = some n) : Means log a .openCursor (.openCursor n)
  | copyCursor {maker c : Nat} (hc : log.cursor a maker = some c) :
      Means log a (.copyCursor maker) (.copyCursor c)
  | step {maker c n : Nat} (hc : log.cursor a maker = some c) (hn : log.number a = some n) :
      Means log a (.step maker) (.step c n)
  | stepToEnd {maker c n : Nat} (hc : log.cursor a maker = some c) (hn : log.number a = some n) :
      Means log a (.stepToEnd maker) (.stepToEnd c n)
  | restart {maker c n : Nat} (hc : log.cursor a maker = some c) (hn : log.number a = some n) :
      Means log a (.restart maker) (.restart c n)

namespace Task

variable {log : Log ι α} {a : ι} {task : Task ι α} {command : Command α}

theorem means_of_command (hc : task.command log a = some command) : task.Means log a command := by
  cases task <;>
    simp only [Task.command, Option.bind_eq_bind, Option.bind_eq_some_iff, Option.map_eq_some_iff,
      Option.pure_def, Option.some.injEq, Option.ite_none_right_eq_some, List.isEmpty_iff] at hc
  case create =>
    obtain ⟨hnil, rfl⟩ := hc
    exact .create hnil
  case collect =>
    obtain ⟨hnil, rfl⟩ := hc
    exact .collect hnil
  case act =>
    obtain ⟨n, hn, op', hop, rfl⟩ := hc
    exact .act hn hop
  case consume =>
    obtain ⟨n, hn, rfl⟩ := hc
    exact .consume hn
  case drain =>
    obtain ⟨n, hn, rfl⟩ := hc
    exact .drain hn
  case openCursor =>
    obtain ⟨n, hn, rfl⟩ := hc
    exact .openCursor hn
  case copyCursor =>
    obtain ⟨c, hc, rfl⟩ := hc
    exact .copyCursor hc
  case step =>
    obtain ⟨c, hc, n, hn, rfl⟩ := hc
    exact .step hc hn
  case stepToEnd =>
    obtain ⟨c, hc, n, hn, rfl⟩ := hc
    exact .stepToEnd hc hn
  case restart =>
    obtain ⟨c, hc, n, hn, rfl⟩ := hc
    exact .restart hc hn

theorem Means.command_eq (hm : task.Means log a command) : task.command log a = some command := by
  cases hm <;> simp only [Task.command, *, List.isEmpty_nil, if_true, Option.map_some,
    Option.bind_eq_bind, Option.bind_some, Option.pure_def]

/-- A task is not carried out before that of which it takes the handle. -/
theorem Means.exists_handle (hm : task.Means log a command) {issuer : ι × Nat}
    (ht : task.takes = some issuer) : ∃ x, log.handle issuer = some x := by
  cases hm with
  | @act op _ _ _ _ hop =>
      cases op <;> simp only [takes, reduceCtorEq] at ht
      all_goals
        subst ht
        obtain ⟨x, hx, -⟩ := Option.map_eq_some_iff.mp hop
        exact ⟨x, hx⟩
  | _ => cases ht

/-- A task changes no heap but the one in whose name it is carried out. -/
theorem Means.number_of_changes (hm : task.Means log a command) {n : Nat}
    (hn : command.changes = some n) : log.number a = some n := by
  cases hm with
  | act h | consume h | drain h =>
      cases hn
      exact h
  | _ => cases hn

/-- A task makes a cursor over the heap in whose name it is carried out. -/
theorem Means.number_of_opened (hm : task.Means log a command)
    (hlog : ∀ i c, log.cursor a i = some c → ∃ n, log.number a = some n)
    {answer : Except Failure (Reply α)} {c : Nat} (ho : command.opened answer = some c) :
    ∃ n, log.number a = some n := by
  cases hm with
  | openCursor hn => exact ⟨_, hn⟩
  | copyCursor hc => exact hlog _ _ hc
  | _ => cases ho

/-- A task moves no cursor but one that an earlier task of the heap has made. -/
theorem Means.cursor_of_moves (hm : task.Means log a command) {c : Nat}
    (hmoves : command.moves = some c) : ∃ maker, log.cursor a maker = some c := by
  cases hm with
  | step hc hn | stepToEnd hc hn | restart hc hn =>
      cases hmoves
      exact ⟨_, hc⟩
  | _ => cases hmoves

end Task

/-- How far a program has come. -/
structure Play (ι α : Type) where
  /-- The world as it is now. -/
  world : World α := {}
  /-- What was done for each heap. -/
  log : Log ι α := fun _ => []
  /-- All commands, in order. -/
  commands : List (Command α) := []

namespace Play

/-- The heap as it is now. -/
def heap? (p : Play ι α) (a : ι) : Option (Heap α) := (p.log.number a).bind p.world.heap?

variable [DecidableEq ι] [BEq α]

/-- A heap takes its turn, and its next task is carried out. -/
def next (program : ι → List (Task ι α)) (p : Play ι α) (a : ι) : Option (Play ι α) := do
  let task ← (program a)[(p.log a).length]?
  let command ← task.command p.log a
  let s ← p.world.exec command
  pure ⟨s.world, p.log.write a ⟨p.world, command, s⟩, p.commands ++ [command]⟩

/-- The heaps take turns in this order. -/
def run (program : ι → List (Task ι α)) (p : Play ι α) (order : List ι) : Option (Play ι α) :=
  order.foldlM (next program) p

/-- No task takes a handle before the turn that issues it. -/
def Ready (program : ι → List (Task ι α)) (order : List ι) : Prop :=
  ∀ i (hi : i < order.length),
    ∀ issuer ∈ ((program order[i])[(order.take i).count order[i]]?).bind Task.takes,
      issuer.2 < (order.take i).count issuer.1

variable {program : ι → List (Task ι α)} {p q : Play ι α} {a b : ι} {order : List ι}

omit [BEq α] in
theorem Ready.of_append {later : List ι} (hr : Ready program (order ++ later)) :
    Ready program order := by
  intro i hi
  have hturn := hr i (by rw [List.length_append]; omega)
  rwa [List.getElem_append_left hi, List.take_append_of_le_length (Nat.le_of_lt hi)] at hturn

omit [BEq α] in
/-- The handle that the last task takes has been issued. -/
theorem Ready.last (hr : Ready program (order ++ [a])) {task : Task ι α}
    (htask : (program a)[order.count a]? = some task) {issuer : ι × Nat}
    (ht : task.takes = some issuer) : issuer.2 < order.count issuer.1 := by
  have hturn := hr order.length (by simp)
  rw [List.getElem_concat_length rfl, List.take_left] at hturn
  exact hturn issuer (by simp [htask, ht])

theorem next_eq_some : p.next program a = some q ↔ ∃ task command s,
    (program a)[(p.log a).length]? = some task ∧ task.command p.log a = some command ∧
    p.world.exec command = some s ∧
    q = ⟨s.world, p.log.write a ⟨p.world, command, s⟩, p.commands ++ [command]⟩ := by
  simp only [next, Option.bind_eq_bind, Option.bind_eq_some_iff, Option.pure_def,
    Option.some.injEq, eq_comm (a := q), exists_and_left]

theorem run_append (later : List ι) :
    p.run program (order ++ later) = (p.run program order).bind (·.run program later) :=
  List.foldlM_append

theorem run_concat_eq_some : p.run program (order ++ [a]) = some q ↔
    ∃ p', p.run program order = some p' ∧ p'.next program a = some q := by
  rw [run_append, Option.bind_eq_some_iff]
  simp [run]

/-- **Induction over turns**: what holds at the start, and is kept by every turn, holds at the
end. -/
theorem run_induct {P : List ι → Play ι α → Prop} (hnil : P [] {})
    (hturn : ∀ order p a q, run program {} order = some p → P order p → p.next program a = some q →
      P (order ++ [a]) q) (hrun : run program {} order = some p) : P order p := by
  induction order using List.reverseRecOn generalizing p with
  | nil =>
      cases hrun
      exact hnil
  | append_singleton order a ih =>
      obtain ⟨p', hp', hnext⟩ := run_concat_eq_some.mp hrun
      exact hturn order p' a p hp' (ih hp') hnext

/-- A play is a run of its commands. -/
theorem run_commands (hrun : run program {} order = some p) :
    World.run {} p.commands = some p.world := by
  refine run_induct (P := fun _ p => World.run {} p.commands = some p.world) rfl ?_ hrun
  intro order p a q _ ih hnext
  obtain ⟨task, command, s, -, -, hx, rfl⟩ := next_eq_some.mp hnext
  rw [World.run_append, ih]
  exact World.run_cons_eq_some.mpr ⟨s, hx, rfl⟩

theorem wellFormed_world (hrun : run program {} order = some p) : p.world.WellFormed :=
  fun _ _ hn => World.heap_wellFormed (run_commands hrun) hn

end Play

/-! ### Heaps do not touch each other -/

namespace World

variable [BEq α] {w : World α} {command : Command α} {s : Step α (Reply α)}

/-- A heap that is made gets the next number. -/
theorem made_of_exec (hx : w.exec command = some s) {n : Nat}
    (hm : command.made s.answer = some n) :
    n = w.heaps.size ∧ s.world.heaps.size = w.heaps.size + 1 := by
  cases command with
  | create policy priority size =>
      cases hx
      unfold Command.made World.create at *
      rcases hc : Heap.create policy priority size w.mint with fault | ⟨h, m⟩
      · simp [hc] at hm
      · simp only [hc, Option.some.injEq] at hm ⊢
        exact ⟨hm.symm, Array.size_push ..⟩
  | collect priority promised values size =>
      cases hx
      unfold Command.made at hm
      rcases w.collect_cases priority promised values size rfl with ⟨fault, -, heq⟩ |
        ⟨h, m, failure, -, -, heq⟩ | ⟨h, m, -, -, heq⟩
      · simp [heq] at hm
      · simp [heq] at hm
      · simp only [heq, Option.some.injEq] at hm ⊢
        exact ⟨hm.symm, Array.size_push ..⟩
  | _ => cases hm

/-- A cursor that is made gets the next number. -/
theorem opened_of_exec (hx : w.exec command = some s) {c : Nat}
    (ho : command.opened s.answer = some c) :
    c = w.cursors.size ∧ s.world.cursors.size = w.cursors.size + 1 := by
  cases command with
  | openCursor n =>
      obtain ⟨h, -, rfl⟩ := exec_openCursor_eq_some.mp hx
      cases ho
      exact ⟨rfl, Array.size_push ..⟩
  | copyCursor j =>
      obtain ⟨c, -, rfl⟩ := exec_copyCursor_eq_some.mp hx
      cases ho
      exact ⟨rfl, Array.size_push ..⟩
  | _ => cases ho

end World

/-- Numbers are given once: no two heaps have one, and no two cursors. What has a cursor has a
number. -/
structure Play.Settled (p : Play ι α) : Prop where
  number_lt : ∀ a n, p.log.number a = some n → n < p.world.heaps.size
  number_inj : ∀ a b n, p.log.number a = some n → p.log.number b = some n → a = b
  cursor_lt : ∀ a i c, p.log.cursor a i = some c → c < p.world.cursors.size
  cursor_inj : ∀ a b i j c, p.log.cursor a i = some c → p.log.cursor b j = some c → a = b ∧ i = j
  number_of_cursor : ∀ a i c, p.log.cursor a i = some c → ∃ n, p.log.number a = some n

/-- What has come of a play since leaves a heap alone, and the cursors over it. -/
structure Play.Spares (a : ι) (p q : Play ι α) : Prop where
  log_eq : q.log a = p.log a
  heap?_eq : q.heap? a = p.heap? a
  cursor_kept : ∀ i c x, p.log.cursor a i = some c → p.world.cursors[c]? = some x →
    q.world.cursors[c]? = some x

namespace Play

variable [DecidableEq ι] [BEq α] {program : ι → List (Task ι α)} {p q : Play ι α} {a b : ι}
  {order : List ι}

omit [DecidableEq ι] [BEq α] in
theorem Spares.refl (a : ι) (p : Play ι α) : p.Spares a p :=
  ⟨rfl, rfl, fun _ _ _ _ hx => hx⟩

omit [DecidableEq ι] [BEq α] in
theorem settled_empty : ({} : Play ι α).Settled :=
  ⟨nofun, nofun, nofun, nofun, nofun⟩

/-- A turn gives the next numbers, and these were not given before. -/
theorem Settled.next (hs : p.Settled) (hw : p.world.WellFormed) (hn : p.next program a = some q) :
    q.Settled := by
  obtain ⟨task, command, s, -, htask, hx, rfl⟩ := next_eq_some.mp hn
  have hheaps := (World.turn_of_exec hw hx).size_le
  have hcursors := World.cursors_size_le hx
  have hmade := fun n => World.made_of_exec (n := n) hx
  have hopened := fun c => World.opened_of_exec (c := c) hx
  refine ⟨?_, ?_, ?_, ?_, ?_⟩
  · intro b n hb
    rw [Log.number_write] at hb
    split at hb
    · have := hmade n hb
      dsimp only
      omega
    · exact Nat.lt_of_lt_of_le (hs.number_lt b n hb) hheaps
  · intro b c n hb hc
    rw [Log.number_write] at hb hc
    split at hb <;> split at hc
    · next h h' => exact h.1.trans h'.1.symm
    · exact absurd (hs.number_lt c n hc) (by have := hmade n hb; omega)
    · exact absurd (hs.number_lt b n hb) (by have := hmade n hc; omega)
    · exact hs.number_inj b c n hb hc
  · intro b i c hb
    rw [Log.cursor_write] at hb
    split at hb
    · have := hopened c hb
      dsimp only
      omega
    · exact Nat.lt_of_lt_of_le (hs.cursor_lt b i c hb) hcursors
  · intro b b' i j c hb hc
    rw [Log.cursor_write] at hb hc
    split at hb <;> split at hc
    · next h h' => exact ⟨h.1.trans h'.1.symm, h.2.trans h'.2.symm⟩
    · exact absurd (hs.cursor_lt b' j c hc) (by have := hopened c hb; omega)
    · exact absurd (hs.cursor_lt b i c hb) (by have := hopened c hc; omega)
    · exact hs.cursor_inj b b' i j c hb hc
  · intro b i c hb
    obtain ⟨n, hn⟩ : ∃ n, p.log.number b = some n := by
      rw [Log.cursor_write] at hb
      split at hb
      · next h =>
          obtain ⟨rfl, -⟩ := h
          exact (Task.means_of_command htask).number_of_opened (hs.number_of_cursor b) hb
      · exact hs.number_of_cursor b i c hb
    exact ⟨n, Log.number_write_of_some hn a _⟩

theorem settled_of_run (hrun : run program {} order = some p) : p.Settled := by
  refine run_induct (P := fun _ p => p.Settled) settled_empty ?_ hrun
  exact fun _ p a q hp hs hn => hs.next (wellFormed_world hp) hn

/-- **The turn of another heap** is not seen. -/
theorem next_other (hrun : run program {} order = some p) (hn : p.next program b = some q)
    (hab : a ≠ b) : p.Spares a q := by
  have hs := settled_of_run hrun
  obtain ⟨task, command, s, -, htask, hx, rfl⟩ := next_eq_some.mp hn
  have hmeans := Task.means_of_command htask
  refine ⟨Log.write_of_ne _ hab _, ?_, ?_⟩
  · unfold heap?
    rw [Log.number_write, if_neg fun h => hab h.1]
    cases hnumber : p.log.number a with
    | none => rfl
    | some n =>
        refine World.heap?_unchanged hx (hs.number_lt a n hnumber) fun hc => ?_
        exact hab (hs.number_inj a b n hnumber (hmeans.number_of_changes hc))
  · intro i c x hc hx'
    refine World.cursor_kept hx (fun hm => ?_) hx'
    obtain ⟨j, hj⟩ := hmeans.cursor_of_moves hm
    exact hab (hs.cursor_inj a b i j c hc hj).1

/-! ### Times of a play -/

omit [BEq α] in
theorem count_concat_of_ne (turns : List ι) (hab : a ≠ b) :
    (turns ++ [b]).count a = turns.count a := by
  rw [List.count_append, List.count_singleton, if_neg (by simpa using Ne.symm hab), Nat.add_zero]

/-- A heap has had a deed done for each of its turns. -/
theorem length_log (hrun : run program {} order = some p) (a : ι) :
    (p.log a).length = order.count a := by
  refine run_induct (P := fun order p => (p.log a).length = order.count a) rfl ?_ hrun
  intro order p b q _ ih hn
  obtain ⟨task, command, s, -, -, -, rfl⟩ := next_eq_some.mp hn
  dsimp only
  by_cases hab : a = b
  · subst hab
    rw [Log.write_same, List.length_append, ih, List.count_append, List.count_singleton_self,
      List.length_singleton]
  · rw [Log.write_of_ne _ hab, ih, count_concat_of_ne order hab]

/-- What was done for a heap stays written down. -/
theorem deed_next (hn : p.next program b = some q) {i : Nat} {d : Deed α}
    (hd : (p.log a)[i]? = some d) : (q.log a)[i]? = some d := by
  obtain ⟨task, command, s, -, -, -, rfl⟩ := next_eq_some.mp hn
  dsimp only
  by_cases hab : a = b
  · subst hab
    rw [Log.write_same, List.getElem?_append_left (List.getElem?_eq_some_iff.mp hd).1, hd]
  · rw [Log.write_of_ne _ hab, hd]

/-- A time at which a play was: it had come this far then, and has gone on to where it is. -/
structure Past (program : ι → List (Task ι α)) (q : Play ι α) (order : List ι) (p : Play ι α) :
    Prop where
  run_eq : run program {} order = some p
  onward : ∃ later, p.run program later = some q

/-- The time after so many turns. -/
theorem exists_past (hq : run program {} order = some q) (i : Nat) :
    ∃ p, Past program q (order.take i) p := by
  rw [← List.take_append_drop i order, run_append] at hq
  obtain ⟨p, hp, honward⟩ := Option.bind_eq_some_iff.mp hq
  exact ⟨p, hp, _, honward⟩

/-- The time before the last turn. -/
theorem Past.back (hp : Past program q (order ++ [b]) p) :
    ∃ p', Past program q order p' ∧ p'.next program b = some p := by
  obtain ⟨p', hp', hturn⟩ := run_concat_eq_some.mp hp.run_eq
  obtain ⟨later, hlater⟩ := hp.onward
  exact ⟨p', ⟨hp', b :: later, Option.bind_eq_some_iff.mpr ⟨p, hturn, hlater⟩⟩, hturn⟩

/-- What had been done by then can still be read. -/
theorem Past.deed (hp : Past program q order p) {i : Nat} {d : Deed α}
    (hd : (p.log a)[i]? = some d) : (q.log a)[i]? = some d := by
  obtain ⟨later, hlater⟩ := hp.onward
  clear hp
  induction later generalizing p with
  | nil =>
      cases hlater
      exact hd
  | cons b later ih =>
      obtain ⟨p', hturn, hrest⟩ := Option.bind_eq_some_iff.mp hlater
      exact ih (deed_next hturn hd) hrest

/-- A turn is not taken before that of which it takes the handle. -/
theorem lt_length_of_next (hn : p.next program a = some q) {task : Task ι α}
    (htask : (program a)[(p.log a).length]? = some task) {issuer : ι × Nat}
    (ht : task.takes = some issuer) : issuer.2 < (p.log issuer.1).length := by
  obtain ⟨task', command, s, htask', hc, -, -⟩ := next_eq_some.mp hn
  cases htask.symm.trans htask'
  obtain ⟨x, hx⟩ := (Task.means_of_command hc).exists_handle ht
  obtain ⟨d, hd, -⟩ := Option.bind_eq_some_iff.mp hx
  exact (List.getElem?_eq_some_iff.mp hd).1

/-- What had been done by then is the beginning of what is done now. -/
theorem Past.log_isPrefix (hp : Past program q order p) (a : ι) : p.log a <+: q.log a :=
  List.prefix_iff_getElem?.mpr fun _ hi => hp.deed (List.getElem?_eq_getElem hi)

/-- The time of the turn in which the deed number `n` was done for a heap. -/
theorem Past.exists_turn (hp : Past program q order p) {n : Nat} (hn : n < (p.log a).length) :
    ∃ turns p₁ p₂, turns.length ≤ order.length ∧ Past program q turns p₁ ∧
      p₁.next program a = some p₂ ∧ Past program q (turns ++ [a]) p₂ ∧ (p₁.log a).length = n := by
  induction order using List.reverseRecOn generalizing p with
  | nil =>
      cases hp.run_eq
      cases hn
  | append_singleton order b ih =>
      obtain ⟨p₁, hp₁, hturn⟩ := hp.back
      have hlast := length_log hp.run_eq a
      have hlast₁ := length_log hp₁.run_eq a
      by_cases hab : a = b
      · subst hab
        rw [List.count_append, List.count_singleton_self] at hlast
        by_cases heq : (p₁.log a).length = n
        · exact ⟨order, p₁, p, by simp, hp₁, hturn, hp, heq⟩
        · obtain ⟨turns, p₂, p₃, hle, h⟩ := ih hp₁ (by omega)
          exact ⟨turns, p₂, p₃, by simp only [List.length_append]; omega, h⟩
      · rw [count_concat_of_ne order hab] at hlast
        obtain ⟨turns, p₂, p₃, hle, h⟩ := ih hp₁ (by omega)
        exact ⟨turns, p₂, p₃, by simp only [List.length_append]; omega, h⟩

/-- By then or before, the play has gone through all numbers of deeds for a heap. -/
theorem Past.exists_length (hp : Past program q order p) (a : ι) {n : Nat}
    (hn : n ≤ (p.log a).length) : ∃ turns p₁, turns.length ≤ order.length ∧
      Past program q turns p₁ ∧ (p₁.log a).length = n := by
  rcases Nat.lt_or_eq_of_le hn with hlt | rfl
  · obtain ⟨turns, p₁, p₂, hle, hp₁, -, -, hlength⟩ := hp.exists_turn hlt
    exact ⟨turns, p₁, hle, hp₁, hlength⟩
  · exact ⟨order, p, Nat.le_refl _, hp, rfl⟩

/-! ### No token is drawn twice -/

/-- The deed number `i` for a heap has drawn this token after `j` others. -/
def Drew (p : Play ι α) (a : ι) (i j : Nat) (t : Token) : Prop :=
  ∃ d, (p.log a)[i]? = some d ∧ j < d.drawn ∧ t = d.before.mint.nth j

/-- The tokens drawn so far have the numbers up to this one, each of them once. -/
structure Ledger (p : Play ι α) (drawn : Nat) : Prop where
  next_eq : p.world.mint.next.val = UInt64.ofNat (drawn + 1)
  le : ∀ a i j t, p.Drew a i j t → t.val.toNat ≤ drawn
  inj : ∀ a b i i' j j' t, p.Drew a i j t → p.Drew b i' j' t → a = b ∧ i = i' ∧ j = j'

omit [DecidableEq ι] [BEq α] in
theorem ledger_empty : ({} : Play ι α).Ledger 0 :=
  ⟨rfl, by simp [Drew], by simp [Drew]⟩

omit [BEq α] in
/-- What a turn has drawn: what was drawn before, or the next tokens, which have the next
numbers. -/
theorem drew_cases {drawn : Nat} (hl : p.Ledger drawn) {d : Deed α}
    (hq : q.log = p.log.write a d) (hd : d.before = p.world)
    (hlt : drawn + d.drawn < 0x10000000000000000) {i j : Nat} {t : Token} (ht : q.Drew b i j t) :
    p.Drew b i j t ∨
      b = a ∧ i = (p.log a).length ∧ j < d.drawn ∧ t.val.toNat = drawn + 1 + j := by
  obtain ⟨e, he, hj, rfl⟩ := ht
  rw [hq] at he
  by_cases hab : b = a
  · subst hab
    rw [Log.write_same, List.getElem?_append] at he
    split at he
    · exact Or.inl ⟨e, he, hj, rfl⟩
    · next hge =>
        obtain ⟨hi, rfl⟩ : i - (p.log b).length = 0 ∧ d = e := by
          rw [List.getElem?_singleton] at he
          split at he
          · next hzero => exact ⟨hzero, Option.some.inj he⟩
          · cases he
        refine Or.inr ⟨rfl, by omega, hj, ?_⟩
        have hbound : drawn + 1 + j < 0x10000000000000000 := by omega
        rw [Mint.nth, hd, hl.next_eq, ← UInt64.ofNat_add, UInt64.toNat_ofNat_of_lt' hbound]
  · rw [Log.write_of_ne _ hab] at he
    exact Or.inl ⟨e, he, hj, rfl⟩

omit [BEq α] in
theorem Ledger.next {drawn : Nat} (hl : p.Ledger drawn) {d : Deed α}
    (hq : q.log = p.log.write a d) (hd : d.before = p.world) (hafter : d.after.world = q.world)
    (hlt : drawn + d.drawn < 0x10000000000000000) : q.Ledger (drawn + d.drawn) := by
  refine ⟨?_, ?_, ?_⟩
  · rw [Deed.drawn, hd, hafter]
    exact Mint.next_eq_ofNat_add q.world.mint hl.next_eq
  · intro b i j t ht
    rcases drew_cases hl hq hd hlt ht with hold | ⟨-, -, hj, hval⟩
    · exact Nat.le_trans (hl.le b i j t hold) (Nat.le_add_right ..)
    · omega
  · intro b c i i' j j' t ht ht'
    rcases drew_cases hl hq hd hlt ht with hold | ⟨rfl, rfl, -, hval⟩ <;>
      rcases drew_cases hl hq hd hlt ht' with hold' | ⟨rfl, rfl, -, hval'⟩
    · exact hl.inj b c i i' j j' t hold hold'
    · have := hl.le b i j t hold
      omega
    · have := hl.le c i' j' t hold'
      omega
    · exact ⟨rfl, rfl, by omega⟩

/-- One turn more has drawn so many tokens more. -/
theorem minted_next (hp : run program {} order = some p) {command : Command α}
    {s : Step α (Reply α)} (hx : p.world.exec command = some s) :
    World.minted {} (p.commands ++ [command]) =
      World.minted {} p.commands + (⟨p.world, command, s⟩ : Deed α).drawn := by
  rw [World.minted_append (run_commands hp)]
  simp only [World.minted, hx, Deed.drawn, Nat.add_zero]

/-- **No token is drawn twice**, unless the supply has come round. -/
theorem ledger_of_run (hrun : run program {} order = some p)
    (hlt : World.minted {} p.commands < 0x10000000000000000) :
    p.Ledger (World.minted {} p.commands) := by
  refine run_induct (P := fun _ p => World.minted {} p.commands < 0x10000000000000000 →
    p.Ledger (World.minted {} p.commands)) (fun _ => ledger_empty) ?_ hrun hlt
  intro order p a q hp ih hn hlt
  obtain ⟨task, command, s, -, -, hx, rfl⟩ := next_eq_some.mp hn
  dsimp only at hlt ⊢
  rw [minted_next hp hx] at hlt ⊢
  exact (ih (by omega)).next rfl rfl rfl hlt

/-! ### How many tokens are drawn -/

/-- All tokens that were drawn were drawn for the heaps that took turns. -/
theorem minted_eq_sum (hrun : run program {} order = some p) (heaps : Finset ι)
    (hheaps : ∀ a ∈ order, a ∈ heaps) :
    World.minted {} p.commands = ∑ a ∈ heaps, p.log.drawn a := by
  refine run_induct (P := fun order p => (∀ a ∈ order, a ∈ heaps) →
    World.minted {} p.commands = ∑ a ∈ heaps, p.log.drawn a) ?_ ?_ hrun hheaps
  · intro _
    simp [World.minted, Log.drawn]
  · intro order p b q hp ih hn hmem
    obtain ⟨task, command, s, -, -, hx, rfl⟩ := next_eq_some.mp hn
    rw [minted_next hp hx, ih fun a ha => hmem a (List.mem_append_left _ ha)]
    simp only [Log.drawn_write, Finset.sum_add_distrib, Finset.sum_ite_eq']
    rw [if_pos (hmem b (by simp))]

/-- If each turn has drawn as many tokens as in another play, no more were drawn in all. -/
theorem minted_le {order' : List ι} (hp : run program {} order = some p)
    (hq : run program {} order' = some q)
    (hle : ∀ a, (q.log a).map Deed.drawn <+: (p.log a).map Deed.drawn) :
    World.minted {} q.commands ≤ World.minted {} p.commands := by
  rw [minted_eq_sum hp (order.toFinset ∪ order'.toFinset) (by simp_all),
    minted_eq_sum hq (order.toFinset ∪ order'.toFinset) (by simp_all)]
  refine Finset.sum_le_sum fun a _ => ?_
  obtain ⟨rest, hrest⟩ := hle a
  rw [Log.drawn, Log.drawn, ← hrest, List.sum_append]
  exact Nat.le_add_right ..

end Play

end TrackedHeap
