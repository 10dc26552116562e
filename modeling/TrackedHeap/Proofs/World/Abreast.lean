import TrackedHeap.Proofs.Heap.Mirrors
import TrackedHeap.Proofs.World.Walks

/-!
# TrackedHeap.Proofs.World.Abreast

**It does not matter how elements are added.** Two runs that ask a heap each for the same things,
but add the elements in different ways, have the same elements in the same places of the two heaps,
and get the same answers.

The runs come abreast again and again (`World.Abreast`): between two such points each of them may
do as it likes with other heaps, and may issue handles and give them back. What is the same of the
two heaps and of the cursors over them (`World.InStep`) is kept by one command that both carry out,
and by one that one of them carries out alone.
-/

namespace TrackedHeap

variable {α : Type}

/-! ### Reading and walking -/

namespace Heap

/-- Two heaps from which the same is read, but for what has to do with handles. -/
structure ReadsSame (h k : Heap α) : Prop where
  values_eq : k.values = h.values
  size_eq : k.size = h.size
  version_eq : k.version = h.version
  capacity_eq : k.capacity = h.capacity
  peek_eq : k.peek = h.peek
  indexOf?_eq : ∀ holds, k.indexOf? holds = h.indexOf? holds
  copyTo_eq : ∀ target offset, k.copyTo target offset = h.copyTo target offset
  copyConverted_eq : ∀ (β : Type) (convert : α → Option β) target offset,
    k.copyConverted convert target offset = h.copyConverted convert target offset

variable {h k : Heap α} {named : List (Handle × Handle)}

/-- Where no handles are paired, nothing is asked of the slots but that they have the same
elements. -/
theorem Frames.mirrors (hf : h.Frames k) (hvalues : k.values = h.values) : h.Mirrors [] k := by
  refine ⟨hf, fun i => ?_⟩
  have hvalue : k.slots[i]?.map (·.value) = h.slots[i]?.map (·.value) := by
    simpa only [values, List.getElem?_map, Array.getElem?_toList] using congrArg (·[i]?) hvalues
  cases hs : h.slots[i]? with
  | none =>
      rw [hs, Option.map_none, Option.map_eq_none_iff] at hvalue
      rw [hvalue]
      exact .none
  | some s =>
      rw [hs, Option.map_some, Option.map_eq_some_iff] at hvalue
      obtain ⟨t, ht, htv⟩ := hvalue
      rw [ht]
      exact .some ⟨htv, fun _ hp => absurd hp List.not_mem_nil⟩

theorem Mirrors.readsSame (hm : h.Mirrors named k) : h.ReadsSame k := by
  refine ⟨hm.values_eq, hm.size_eq, hm.version_eq, hm.capacity_eq, ?_, hm.indexOf?_eq, ?_, ?_⟩
  · have hfirst := hm.slots 0
    unfold peek
    generalize h.slots[0]? = x at hfirst
    generalize k.slots[0]? = y at hfirst
    cases hfirst with
    | none => rfl
    | some hs => exact congrArg Except.ok hs.value_eq
  · intro target offset
    simp only [copyTo, hm.size_eq, hm.values_eq]
  · intro β convert target offset
    simp only [copyConverted, hm.size_eq, hm.values_eq]

/-- The handles of a pair name the same element. -/
theorem Mirrors.exists_get (hm : h.Mirrors named k) (hw : h.WellFormed) (hw' : k.WellFormed)
    {p : Handle × Handle} (hp : p ∈ named) (hn : h.BothName k p) :
    ∃ value, h.get p.1 = .ok value ∧ k.get p.2 = .ok value := by
  obtain ⟨i, hi, hi'⟩ := hm.exists_position hw hw' hp hn
  have hlt := hw.lt_size_of_position hi
  have hlt' := hw'.lt_size_of_position hi'
  refine ⟨h.slots[i].value, ?_, ?_⟩
  · simp only [get, hi, Array.getElem?_eq_getElem hlt]
  · simp only [get, hi', Array.getElem?_eq_getElem hlt', (hm.slots.getElem hlt hlt').value_eq]

end Heap

/-- Two cursors at the same place of the heaps with these identities, which had the same version
when the cursors began. -/
structure Cursor.Mirrors (id id' : Token) (c d : Cursor) : Prop where
  heap_eq : c.heap = id
  heap_eq' : d.heap = id'
  version_eq : d.version = c.version
  position_eq : d.position = c.position

namespace Cursor.Mirrors

variable {h k : Heap α} {named : List (Handle × Handle)} {c d : Cursor}

theorem start (hm : h.Mirrors named k) : Cursor.Mirrors h.id k.id (.start h) (.start k) :=
  ⟨rfl, rfl, hm.version_eq, rfl⟩

variable (hc : Cursor.Mirrors h.id k.id c d) (hm : h.Mirrors named k)
include hc hm

/-- They show the same element, or stop for the same reason. -/
theorem next : (d.next k).1 = (c.next h).1 ∧
    Cursor.Mirrors h.id k.id (c.next h).2 (d.next k).2 := by
  obtain ⟨hshown, i, hc', hd'⟩ := next_congr (iff_of_true hc.heap_eq'.symm hc.heap_eq.symm)
    (by rw [hm.version_eq, hc.version_eq]) hm.values_eq hc.position_eq
  rw [hc', hd']
  exact ⟨hshown, hc.heap_eq, hc.heap_eq', hc.version_eq, rfl⟩

/-- They show the same elements up to the end. -/
theorem rest : (d.rest k).1 = (c.rest h).1 ∧
    Cursor.Mirrors h.id k.id (c.rest h).2 (d.rest k).2 := by
  obtain ⟨hshown, i, hc', hd'⟩ := rest_congr (iff_of_true hc.heap_eq'.symm hc.heap_eq.symm)
    (by rw [hm.version_eq, hc.version_eq]) hm.values_eq hc.position_eq
  rw [hc', hd']
  exact ⟨hshown, hc.heap_eq, hc.heap_eq', hc.version_eq, rfl⟩

end Cursor.Mirrors

/-- Cursors of two rows go together by these pairs of numbers, none with two, and `A` holds of the
cursors of each pair. -/
structure CursorsPaired (A : Cursor → Cursor → Prop) (pairs : List (Nat × Nat))
    (xs ys : Array Cursor) : Prop where
  rel : ∀ p ∈ pairs, ∃ c d, xs[p.1]? = some c ∧ ys[p.2]? = some d ∧ A c d
  apart : ∀ p ∈ pairs, ∀ q ∈ pairs, p.1 = q.1 ↔ p.2 = q.2

namespace CursorsPaired

variable {A : Cursor → Cursor → Prop} {pairs : List (Nat × Nat)} {xs ys xs' ys' : Array Cursor}
  {c d : Cursor}

/-- The cursor that goes with one. -/
theorem exists_pair (hc : CursorsPaired A pairs xs ys) {p : Nat × Nat} (hp : p ∈ pairs)
    (hx : xs[p.1]? = some c) : ∃ d, ys[p.2]? = some d ∧ A c d := by
  obtain ⟨c', d, hx', hy, hcd⟩ := hc.rel p hp
  cases hx.symm.trans hx'
  exact ⟨d, hy, hcd⟩

theorem imp {B : Cursor → Cursor → Prop} (hc : CursorsPaired A pairs xs ys)
    (h : ∀ c d, A c d → B c d) : CursorsPaired B pairs xs ys := by
  refine ⟨fun p hp => ?_, hc.apart⟩
  obtain ⟨c, d, hx, hy, hcd⟩ := hc.rel p hp
  exact ⟨c, d, hx, hy, h c d hcd⟩

theorem append_none (hc : CursorsPaired A pairs xs ys) :
    CursorsPaired A (pairs ++ pairOf none none) xs ys := by
  rwa [pairOf_none, List.append_nil]

theorem kept (hc : CursorsPaired A pairs xs ys)
    (hxs : ∀ p ∈ pairs, ∀ c, xs[p.1]? = some c → xs'[p.1]? = some c)
    (hys : ∀ p ∈ pairs, ∀ d, ys[p.2]? = some d → ys'[p.2]? = some d) :
    CursorsPaired A pairs xs' ys' := by
  refine ⟨fun p hp => ?_, hc.apart⟩
  obtain ⟨c, d, hx, hy, hcd⟩ := hc.rel p hp
  exact ⟨c, d, hxs p hp c hx, hys p hp d hy, hcd⟩

theorem push (hc : CursorsPaired A pairs xs ys) (hcd : A c d) :
    CursorsPaired A (pairs ++ [(xs.size, ys.size)]) (xs.push c) (ys.push d) := by
  have hold : ∀ p ∈ pairs, p.1 < xs.size ∧ p.2 < ys.size := by
    intro p hp
    obtain ⟨c, d, hx, hy, -⟩ := hc.rel p hp
    exact ⟨(Array.getElem?_eq_some_iff.mp hx).1, (Array.getElem?_eq_some_iff.mp hy).1⟩
  refine ⟨?_, ?_⟩
  · intro p hp
    rcases List.mem_append.mp hp with hp | hp
    · obtain ⟨hlt, hlt'⟩ := hold p hp
      obtain ⟨c, d, hx, hy, hcd⟩ := hc.rel p hp
      refine ⟨c, d, ?_, ?_, hcd⟩
      · rw [Array.getElem?_push, if_neg (Nat.ne_of_lt hlt), hx]
      · rw [Array.getElem?_push, if_neg (Nat.ne_of_lt hlt'), hy]
    · cases List.mem_singleton.mp hp
      exact ⟨c, d, Array.getElem?_push_size, Array.getElem?_push_size, hcd⟩
  · intro p hp q hq
    rcases List.mem_append.mp hp with hp | hp <;> rcases List.mem_append.mp hq with hq | hq
    · exact hc.apart p hp q hq
    · cases List.mem_singleton.mp hq
      exact iff_of_false (Nat.ne_of_lt (hold p hp).1) (Nat.ne_of_lt (hold p hp).2)
    · cases List.mem_singleton.mp hp
      exact iff_of_false (Nat.ne_of_gt (hold q hq).1) (Nat.ne_of_gt (hold q hq).2)
    · cases List.mem_singleton.mp hp
      cases List.mem_singleton.mp hq
      exact iff_of_true rfl rfl

theorem set (hc : CursorsPaired A pairs xs ys) {p : Nat × Nat} (hp : p ∈ pairs)
    (hcd : A c d) :
    CursorsPaired A pairs (xs.setIfInBounds p.1 c) (ys.setIfInBounds p.2 d) := by
  refine ⟨fun q hq => ?_, hc.apart⟩
  obtain ⟨c', d', hx, hy, hcd'⟩ := hc.rel q hq
  by_cases heq : p.1 = q.1
  · have heq' := (hc.apart p hp q hq).mp heq
    refine ⟨c, d, ?_, ?_, hcd⟩
    · rw [Array.getElem?_setIfInBounds, if_pos heq, if_pos]
      exact heq ▸ (Array.getElem?_eq_some_iff.mp hx).1
    · rw [Array.getElem?_setIfInBounds, if_pos heq', if_pos]
      exact heq' ▸ (Array.getElem?_eq_some_iff.mp hy).1
  · have hne := fun heq' => heq ((hc.apart p hp q hq).mpr heq')
    exact ⟨c', d', (Array.getElem?_setIfInBounds_ne heq).trans hx,
      (Array.getElem?_setIfInBounds_ne hne).trans hy, hcd'⟩

end CursorsPaired

/-! ### Commands -/

namespace Command

/-- Whether a command leaves the elements of one heap alone, and these cursors. -/
def spares (n : Nat) (cursors : List Nat) : Command α → Bool
  | act k op => k != n || op.handlesOnly
  | consume k | drain k => k != n
  | step j _ | stepToEnd j _ | restart j _ => !cursors.contains j
  | create .. | collect .. | openCursor _ | copyCursor _ => true

/-- The cursor that a command moves. -/
def moves : Command α → Option Nat
  | step j _ | stepToEnd j _ | restart j _ => some j
  | _ => none

/-- The handle under which a command, answered so, has stored an element. -/
def names : Command α → Except Failure (Reply α) → Option Handle
  | act _ op, answer => op.names answer
  | _, _ => none

/-- The number of the cursor that a command, answered so, has made. -/
def opened : Command α → Except Failure (Reply α) → Option Nat
  | openCursor _, .ok (.number j) | copyCursor _, .ok (.number j) => some j
  | _, _ => none

/-- The same is asked of a heap each, or of cursors that go together. What is the same of two
requests is said by `A`. -/
inductive Corresponds (A : Op α → Op α → Prop) (cursors : List (Nat × Nat)) (n n' : Nat) :
    Command α → Command α → Prop
  | act {op op' : Op α} (hop : A op op') : Corresponds A cursors n n' (.act n op) (.act n' op')
  | consume : Corresponds A cursors n n' (.consume n) (.consume n')
  | drain : Corresponds A cursors n n' (.drain n) (.drain n')
  | openCursor : Corresponds A cursors n n' (.openCursor n) (.openCursor n')
  | copyCursor {p : Nat × Nat} (hp : p ∈ cursors) :
      Corresponds A cursors n n' (.copyCursor p.1) (.copyCursor p.2)
  | step {p : Nat × Nat} (hp : p ∈ cursors) :
      Corresponds A cursors n n' (.step p.1 n) (.step p.2 n')
  | stepToEnd {p : Nat × Nat} (hp : p ∈ cursors) :
      Corresponds A cursors n n' (.stepToEnd p.1 n) (.stepToEnd p.2 n')
  | restart {p : Nat × Nat} (hp : p ∈ cursors) :
      Corresponds A cursors n n' (.restart p.1 n) (.restart p.2 n')

end Command

/-- What is the same of two steps: what was reported of the storage, and the answers but for the
names and numbers in them. -/
structure Step.Mirrors (s t : Step α (Reply α)) : Prop where
  events_eq : t.events.filter Event.concernsStorage = s.events.filter Event.concernsStorage
  answer_eq : t.answer.map Reply.unnamed = s.answer.map Reply.unnamed

namespace World

variable {w v : World α} {n n' : Nat} {h k : Heap α} {named : List (Handle × Handle)}
  {cursors : List (Nat × Nat)}

/-! ### What is the same of two worlds -/

/-- A heap of one world and a heap of another, with the same elements in the same places; handles
that name the same element of each, and cursors at the same place over each. -/
structure InStep [BEq α] (n n' : Nat) (named : List (Handle × Handle)) (cursors : List (Nat × Nat))
    (w v : World α) (h k : Heap α) : Prop where
  reached : ∃ commands, World.run {} commands = some w
  reached' : ∃ commands, World.run {} commands = some v
  heap_eq : w.heap? n = some h
  heap_eq' : v.heap? n' = some k
  mirrors : h.Mirrors named k
  bothName : ∀ p ∈ named, h.BothName k p
  cursors : CursorsPaired (Cursor.Mirrors h.id k.id) cursors w.cursors v.cursors

variable [BEq α]

/-- What a command can do to the cursors: it leaves them alone, adds one, or moves one. -/
theorem cursors_cases {command : Command α} {s : Step α (Reply α)} (hx : w.exec command = some s) :
    s.world.cursors = w.cursors ∨ (∃ c, s.world.cursors = w.cursors.push c) ∨
      ∃ j c, command.moves = some j ∧ s.world.cursors = w.cursors.setIfInBounds j c := by
  cases command with
  | create policy priority size =>
      cases hx
      exact Or.inl (cursors_create w policy priority size)
  | collect priority promised values size =>
      cases hx
      exact Or.inl (cursors_collect w priority promised values size)
  | act m op =>
      obtain ⟨g, hm, rfl⟩ := exec_act_eq_some.mp hx
      exact Or.inl rfl
  | consume m | drain m =>
      obtain ⟨g, hm, hs⟩ := Option.bind_eq_some_iff.mp hx
      cases hs
      exact Or.inl rfl
  | openCursor m =>
      obtain ⟨g, hm, rfl⟩ := exec_openCursor_eq_some.mp hx
      exact Or.inr (Or.inl ⟨_, rfl⟩)
  | copyCursor i =>
      obtain ⟨d, hi, rfl⟩ := exec_copyCursor_eq_some.mp hx
      exact Or.inr (Or.inl ⟨_, rfl⟩)
  | step i m =>
      obtain ⟨d, g, hi, hm, rfl⟩ := exec_step_eq_some.mp hx
      exact Or.inr (Or.inr ⟨i, _, rfl, rfl⟩)
  | stepToEnd i m =>
      obtain ⟨d, g, hi, hm, rfl⟩ := exec_stepToEnd_eq_some.mp hx
      exact Or.inr (Or.inr ⟨i, _, rfl, rfl⟩)
  | restart i m =>
      obtain ⟨d, g, hi, hm, rfl⟩ := exec_restart_eq_some.mp hx
      exact Or.inr (Or.inr ⟨i, _, rfl, rfl⟩)

/-- A cursor that is not moved is still there as it was. -/
theorem cursor_kept {command : Command α} {s : Step α (Reply α)} (hx : w.exec command = some s)
    {j : Nat} (hc : command.moves ≠ some j) {c : Cursor} (hj : w.cursors[j]? = some c) :
    s.world.cursors[j]? = some c := by
  rcases cursors_cases hx with heq | ⟨d, heq⟩ | ⟨i, d, hi, heq⟩ <;> rw [heq]
  · exact hj
  · rw [Array.getElem?_push, if_neg (Nat.ne_of_lt (Array.getElem?_eq_some_iff.mp hj).1), hj]
  · exact (Array.getElem?_setIfInBounds_ne fun hij => hc (by rw [hi, hij])).trans hj

theorem cursors_size_le {command : Command α} {s : Step α (Reply α)}
    (hx : w.exec command = some s) : w.cursors.size ≤ s.world.cursors.size := by
  rcases cursors_cases hx with heq | ⟨d, heq⟩ | ⟨i, d, -, heq⟩ <;> simp [heq]

/-- A command that spares a heap changes nothing of it but the registry, and no cursor that it
spares. -/
theorem exec_of_spares {command : Command α} {js : List Nat} (hspares : command.spares n js = true)
    {s : Step α (Reply α)} (hx : w.exec command = some s) (hw : h.WellFormed)
    (hn : w.heap? n = some h) :
    (∃ r, s.world.heap? n = some { h with registry := r } ∧
      ∀ x, h.containsHandle x = true → Heap.containsHandle { h with registry := r } x = true) ∧
    ∀ j ∈ js, ∀ c, w.cursors[j]? = some c → s.world.cursors[j]? = some c := by
  refine ⟨?_, fun j hj c => cursor_kept hx ?_⟩
  · by_cases hact : ∃ op, command = .act n op
    · obtain ⟨op, rfl⟩ := hact
      have hop : op.handlesOnly = true := by simpa [Command.spares] using hspares
      obtain ⟨⟨r, hr⟩, hnames⟩ := (Op.effect hw w.mint op).of_handlesOnly hw hop
      obtain ⟨s', hx', -, -, hn'⟩ := exists_exec_act hn op
      cases hx.symm.trans hx'
      rw [hr] at hn' hnames
      exact ⟨r, hn', hnames⟩
    · refine ⟨h.registry, heap?_kept hx hn fun hchanges => ?_, fun _ hx => hx⟩
      cases command <;> simp_all [Command.spares, Command.changes]
  · intro hmoves
    cases command <;> simp_all [Command.spares, Command.moves]

/-- Both heaps are well formed. -/
theorem InStep.wellFormed (hi : InStep n n' named cursors w v h k) :
    h.WellFormed ∧ k.WellFormed := by
  obtain ⟨commands, hrun⟩ := hi.reached
  obtain ⟨commands', hrun'⟩ := hi.reached'
  exact ⟨heap_wellFormed hrun hi.heap_eq, heap_wellFormed hrun' hi.heap_eq'⟩

/-- One command more leads to a world that a run reaches. -/
theorem reached_exec (hw : ∃ commands, World.run {} commands = some w) {command : Command α}
    {s : Step α (Reply α)} (hx : w.exec command = some s) :
    ∃ commands, World.run {} commands = some s.world := by
  obtain ⟨commands, hrun⟩ := hw
  refine ⟨commands ++ [command], ?_⟩
  rw [run_append, hrun]
  exact run_cons_eq_some.mpr ⟨s, hx, rfl⟩

namespace InStep

/-- What the first world does alone is not seen. -/
theorem left (hi : InStep n n' named cursors w v h k) {command : Command α}
    (hspares : command.spares n (cursors.map Prod.fst) = true) {s : Step α (Reply α)}
    (hx : w.exec command = some s) :
    ∃ r, InStep n n' named cursors s.world v { h with registry := r } k := by
  obtain ⟨⟨r, hn, hnames⟩, hcursors⟩ := exec_of_spares hspares hx hi.wellFormed.1 hi.heap_eq
  refine ⟨r, reached_exec hi.reached hx, hi.reached', hn, hi.heap_eq',
    hi.mirrors.with_registry r k.registry, ?_, ?_⟩
  · exact fun p hp => ⟨hnames p.1 (hi.bothName p hp).1, (hi.bothName p hp).2⟩
  · exact hi.cursors.kept (fun p hp => hcursors p.1 (List.mem_map_of_mem hp)) fun _ _ _ hd => hd

/-- What the second world does alone is not seen. -/
theorem right (hi : InStep n n' named cursors w v h k) {command : Command α}
    (hspares : command.spares n' (cursors.map Prod.snd) = true) {s : Step α (Reply α)}
    (hx : v.exec command = some s) :
    ∃ r, InStep n n' named cursors w s.world h { k with registry := r } := by
  obtain ⟨⟨r, hn, hnames⟩, hcursors⟩ := exec_of_spares hspares hx hi.wellFormed.2 hi.heap_eq'
  refine ⟨r, hi.reached, reached_exec hi.reached' hx, hi.heap_eq, hn,
    hi.mirrors.with_registry h.registry r, ?_, ?_⟩
  · exact fun p hp => ⟨(hi.bothName p hp).1, hnames p.2 (hi.bothName p hp).2⟩
  · exact hi.cursors.kept (fun _ _ _ hc => hc) fun p hp => hcursors p.2 (List.mem_map_of_mem hp)

end InStep

/-- What two commands have made of two worlds: they were answered alike, and if the heaps are still
there, what was the same of them is the same. A handle under which each has stored its element
makes a new pair, and so do cursors that each has made. -/
structure GoOn (n n' : Nat) (named : List (Handle × Handle)) (cursors : List (Nat × Nat))
    (command command' : Command α) (s t : Step α (Reply α)) : Prop where
  mirrors : s.Mirrors t
  inStep : ∀ h k, s.world.heap? n = some h → t.world.heap? n' = some k →
    InStep n n' ((named ++ pairOf (command.names s.answer) (command'.names t.answer)).filter
        fun p => h.BothName k p)
      (cursors ++ pairOf (command.opened s.answer) (command'.opened t.answer)) s.world t.world h k

namespace InStep

variable {command command' : Command α} {s t : Step α (Reply α)}

/-- The heaps have changed alike, or not at all. -/
theorem goOn (hi : InStep n n' named cursors w v h k) (hx : w.exec command = some s)
    (hx' : v.exec command' = some t) (hst : s.Mirrors t) {h' k' : Heap α}
    (hn : s.world.heap? n = some h') (hn' : t.world.heap? n' = some k')
    (hm : h'.Mirrors (named ++ pairOf (command.names s.answer) (command'.names t.answer)) k')
    (hc : CursorsPaired (Cursor.Mirrors h'.id k'.id)
      (cursors ++ pairOf (command.opened s.answer) (command'.opened t.answer))
      s.world.cursors t.world.cursors) :
    GoOn n n' named cursors command command' s t := by
  refine ⟨hst, fun g g' hg hg' => ?_⟩
  cases hn.symm.trans hg
  cases hn'.symm.trans hg'
  exact ⟨reached_exec hi.reached hx, reached_exec hi.reached' hx', hn, hn',
    hm.mono fun _ hp => (List.mem_filter.mp hp).1,
    fun _ hp => of_decide_eq_true (List.mem_filter.mp hp).2, hc⟩

theorem exec_act (hi : InStep n n' named cursors w v h k) {op op' : Op α}
    (hop : op.Corresponds named h k op') :
    ∃ s t, w.exec (.act n op) = some s ∧ v.exec (.act n' op') = some t ∧
      GoOn n n' named cursors (.act n op) (.act n' op') s t := by
  obtain ⟨hw, hw'⟩ := hi.wellFormed
  have hrun := hop.run hi.mirrors hi.bothName hw hw' w.mint v.mint
  obtain ⟨s, hx, -, -, hn⟩ := exists_exec_act hi.heap_eq op
  obtain ⟨t, hx', -, -, hn'⟩ := exists_exec_act hi.heap_eq' op'
  obtain ⟨g, hg, rfl⟩ := exec_act_eq_some.mp hx
  obtain ⟨g', hg', rfl⟩ := exec_act_eq_some.mp hx'
  cases hi.heap_eq.symm.trans hg
  cases hi.heap_eq'.symm.trans hg'
  have hid : (op.run h w.mint).heap.id = h.id := by
    obtain ⟨h₁, hms, hren⟩ := (Op.effect hw w.mint op).moves hw
    exact hren.id_eq.trans hms.id_eq
  have hid' : (op'.run k v.mint).heap.id = k.id := by
    obtain ⟨k₁, hms, hren⟩ := (Op.effect hw' v.mint op').moves hw'
    exact hren.id_eq.trans hms.id_eq
  have hcursors : CursorsPaired
      (Cursor.Mirrors (op.run h w.mint).heap.id (op'.run k v.mint).heap.id) cursors w.cursors
      v.cursors := by
    rw [hid, hid']
    exact hi.cursors
  exact ⟨_, _, hx, hx', hi.goOn hx hx' ⟨hrun.events_eq, hrun.answer_eq⟩ hn hn' hrun.heap
    hcursors.append_none⟩

/-- **The same command in both worlds** is carried out in both, and answered alike. -/
theorem exec (hi : InStep n n' named cursors w v h k)
    (hc : command.Corresponds (Op.Corresponds named h k) cursors n n' command') :
    ∃ s t, w.exec command = some s ∧ v.exec command' = some t ∧
      GoOn n n' named cursors command command' s t := by
  have hkept : h.Mirrors (named ++ pairOf none none) k := by
    rw [pairOf_none, List.append_nil]
    exact hi.mirrors
  cases hc with
  | act hop => exact hi.exec_act hop
  | consume =>
      refine ⟨_, _, Option.bind_eq_some_iff.mpr ⟨h, hi.heap_eq, rfl⟩,
        Option.bind_eq_some_iff.mpr ⟨k, hi.heap_eq', rfl⟩, ⟨⟨rfl, ?_⟩, ?_⟩⟩
      · simp only [hi.mirrors.values_eq]
      · intro g g' hg
        rw [heap?_of_drop_self rfl] at hg
        cases hg
  | drain =>
      obtain ⟨hw, hw'⟩ := hi.wellFormed
      obtain ⟨hevents, hanswer⟩ := hi.mirrors.drain hw hw' w.mint v.mint
      refine ⟨_, _, Option.bind_eq_some_iff.mpr ⟨h, hi.heap_eq, rfl⟩,
        Option.bind_eq_some_iff.mpr ⟨k, hi.heap_eq', rfl⟩, ⟨⟨hevents, ?_⟩, ?_⟩⟩
      · simp only [hanswer]
      · intro g g' hg
        rw [heap?_of_drop_self rfl] at hg
        cases hg
  | openCursor =>
      have hx := exec_openCursor_eq_some.mpr ⟨h, hi.heap_eq, rfl⟩
      have hx' := exec_openCursor_eq_some.mpr ⟨k, hi.heap_eq', rfl⟩
      exact ⟨_, _, hx, hx', hi.goOn hx hx' ⟨rfl, rfl⟩ hi.heap_eq hi.heap_eq' hkept
        (hi.cursors.push (.start hi.mirrors))⟩
  | @copyCursor p hp =>
      obtain ⟨c, d, hc, hd, hcd⟩ := hi.cursors.rel p hp
      have hx := exec_copyCursor_eq_some.mpr ⟨c, hc, rfl⟩
      have hx' := exec_copyCursor_eq_some.mpr ⟨d, hd, rfl⟩
      exact ⟨_, _, hx, hx', hi.goOn hx hx' ⟨rfl, rfl⟩ hi.heap_eq hi.heap_eq' hkept
        (hi.cursors.push hcd)⟩
  | @step p hp =>
      obtain ⟨c, d, hc, hd, hcd⟩ := hi.cursors.rel p hp
      obtain ⟨hshown, hmoved⟩ := hcd.next hi.mirrors
      have hx := exec_step_eq_some.mpr ⟨c, h, hc, hi.heap_eq, rfl⟩
      have hx' := exec_step_eq_some.mpr ⟨d, k, hd, hi.heap_eq', rfl⟩
      refine ⟨_, _, hx, hx', hi.goOn hx hx' ⟨rfl, ?_⟩ hi.heap_eq hi.heap_eq' hkept
        (hi.cursors.set hp hmoved).append_none⟩
      simp only [hshown]
  | @stepToEnd p hp =>
      obtain ⟨c, d, hc, hd, hcd⟩ := hi.cursors.rel p hp
      obtain ⟨hshown, hmoved⟩ := hcd.rest hi.mirrors
      have hx := exec_stepToEnd_eq_some.mpr ⟨c, h, hc, hi.heap_eq, rfl⟩
      have hx' := exec_stepToEnd_eq_some.mpr ⟨d, k, hd, hi.heap_eq', rfl⟩
      refine ⟨_, _, hx, hx', hi.goOn hx hx' ⟨rfl, ?_⟩ hi.heap_eq hi.heap_eq' hkept
        (hi.cursors.set hp hmoved).append_none⟩
      simp only [hshown]
  | @restart p hp =>
      obtain ⟨c, d, hc, hd, hcd⟩ := hi.cursors.rel p hp
      have hx := exec_restart_eq_some.mpr ⟨c, h, hc, hi.heap_eq, rfl⟩
      have hx' := exec_restart_eq_some.mpr ⟨d, k, hd, hi.heap_eq', rfl⟩
      exact ⟨_, _, hx, hx', hi.goOn hx hx' ⟨rfl, rfl⟩ hi.heap_eq hi.heap_eq' hkept
        (hi.cursors.set hp (.start hi.mirrors)).append_none⟩

end InStep

/-! ### Runs -/

/-- **Two runs abreast.** They have begun with the same elements in a heap each, under the same
ranking and policy, and carry out the same commands on them, but for the ways in which they add
elements. In between, each may do as it likes with other heaps and cursors, and may issue and give
back handles of this one. The handles are paired under which an element was stored in both heaps,
for as long as they name it, and so are the cursors that both runs have made. -/
inductive Abreast (n n' : Nat) :
    List (Handle × Handle) → List (Nat × Nat) → World α → World α → Prop
  | start {commands commands' : List (Command α)} {w v : World α} {h k : Heap α}
      (hrun : World.run {} commands = some w) (hrun' : World.run {} commands' = some v)
      (hn : w.heap? n = some h) (hn' : v.heap? n' = some k) (hf : h.Frames k)
      (hvalues : k.values = h.values) : Abreast n n' [] [] w v
  | left {named : List (Handle × Handle)} {cursors : List (Nat × Nat)} {w v : World α}
      {command : Command α} {s : Step α (Reply α)} (ha : Abreast n n' named cursors w v)
      (hspares : command.spares n (cursors.map Prod.fst) = true)
      (hx : w.exec command = some s) : Abreast n n' named cursors s.world v
  | right {named : List (Handle × Handle)} {cursors : List (Nat × Nat)} {w v : World α}
      {command : Command α} {s : Step α (Reply α)} (ha : Abreast n n' named cursors w v)
      (hspares : command.spares n' (cursors.map Prod.snd) = true)
      (hx : v.exec command = some s) : Abreast n n' named cursors w s.world
  | both {named : List (Handle × Handle)} {cursors : List (Nat × Nat)} {w v : World α}
      {h k h' k' : Heap α} {command command' : Command α} {s t : Step α (Reply α)}
      (ha : Abreast n n' named cursors w v) (hn : w.heap? n = some h) (hn' : v.heap? n' = some k)
      (hc : command.Corresponds (Op.Corresponds named h k) cursors n n' command')
      (hx : w.exec command = some s) (hx' : v.exec command' = some t)
      (hh : s.world.heap? n = some h') (hk : t.world.heap? n' = some k') :
      Abreast n n'
        ((named ++ pairOf (command.names s.answer) (command'.names t.answer)).filter
          fun p => h'.BothName k' p)
        (cursors ++ pairOf (command.opened s.answer) (command'.opened t.answer)) s.world t.world

/-- Runs that are abreast are in step. -/
theorem Abreast.inStep (ha : Abreast n n' named cursors w v) :
    ∃ h k, InStep n n' named cursors w v h k := by
  induction ha with
  | @start commands commands' w v h k hrun hrun' hn hn' hf hvalues =>
      refine ⟨h, k, ⟨commands, hrun⟩, ⟨commands', hrun'⟩, hn, hn', hf.mirrors hvalues, nofun, nofun,
        nofun⟩
  | left ha hspares hx ih =>
      obtain ⟨h, k, hi⟩ := ih
      obtain ⟨r, hi'⟩ := hi.left hspares hx
      exact ⟨_, k, hi'⟩
  | right ha hspares hx ih =>
      obtain ⟨h, k, hi⟩ := ih
      obtain ⟨r, hi'⟩ := hi.right hspares hx
      exact ⟨h, _, hi'⟩
  | both ha hn hn' hc hx hx' hh hk ih =>
      obtain ⟨h, k, hi⟩ := ih
      cases hi.heap_eq.symm.trans hn
      cases hi.heap_eq'.symm.trans hn'
      obtain ⟨s, t, hs, ht, hgo⟩ := hi.exec hc
      cases hs.symm.trans hx
      cases ht.symm.trans hx'
      exact ⟨_, _, hgo.inStep _ _ hh hk⟩

/-- **The ways to add elements agree, and handles have no part in the order.** Two runs that are
abreast have the same elements in the same places of their heaps, and the same version, size and
capacity; the same is read from both, also through the handles of a pair. Whatever both do next is
carried out in both, and is answered alike but for the handle that is issued and the number of a
new cursor, and the same is reported of the storage. -/
theorem additions_agree (ha : Abreast n n' named cursors w v) :
    ∃ h k, w.heap? n = some h ∧ v.heap? n' = some k ∧ h.ReadsSame k ∧
      (∀ p ∈ named, ∃ value, h.get p.1 = .ok value ∧ k.get p.2 = .ok value) ∧
      ∀ command command' : Command α,
        command.Corresponds (Op.Corresponds named h k) cursors n n' command' →
        ∃ s t, w.exec command = some s ∧ v.exec command' = some t ∧ s.Mirrors t := by
  obtain ⟨h, k, hi⟩ := ha.inStep
  obtain ⟨hw, hw'⟩ := hi.wellFormed
  refine ⟨h, k, hi.heap_eq, hi.heap_eq', hi.mirrors.readsSame, ?_, ?_⟩
  · exact fun p hp => hi.mirrors.exists_get hw hw' hp (hi.bothName p hp)
  · intro command command' hc
    obtain ⟨s, t, hs, ht, hgo⟩ := hi.exec hc
    exact ⟨s, t, hs, ht, hgo.mirrors⟩

/-- Two runs to which this applies. The second has issued two handles first; then an element is
pushed in the one and inserted under a new handle in the other, and another is inserted under a new
handle in the one and under the second handle in the other. -/
theorem additions_agree_of_two : ∃ (w v : World Nat) (h k : Heap Nat),
    Abreast 0 0 [(⟨⟨2⟩, 0, 0⟩, ⟨⟨2⟩, 1, 0⟩)] [] w v ∧
    w.heap? 0 = some h ∧ v.heap? 0 = some k ∧ h.ReadsSame k ∧ k.values = [3, 5] ∧
    ∃ value, h.get ⟨⟨2⟩, 0, 0⟩ = .ok value ∧ k.get ⟨⟨2⟩, 1, 0⟩ = .ok value := by
  -- The runs begin with the same elements, which are none.
  obtain ⟨w₁, v₁, h₁, k₁, hrun, hrun', hn, hn', hf, hvalues, hkey⟩ :
      ∃ (w v : World Nat) (h k : Heap Nat), World.run {} [.create {} .natural] = some w ∧
        World.run {} [.create {} .natural, .act 0 .reserve, .act 0 .reserve] = some v ∧
        w.heap? 0 = some h ∧ v.heap? 0 = some k ∧ h.Frames k ∧ k.values = h.values ∧
        k.registry.reserve ≠ .error .keysExhausted :=
    ⟨_, _, _, _, rfl, rfl, rfl, rfl, ⟨rfl, rfl, rfl, rfl, rfl⟩, rfl, nofun⟩
  have hstart := Abreast.start hrun hrun' hn hn' hf hvalues
  -- No handle is paired by the first command, since one of the elements has none.
  obtain ⟨_, s, hrun₁, hx, hs, hrun₂⟩ := exists_of_any_exec (α := Nat) [.create {} .natural]
    (.act 0 (.push 5))
    (fun s => (s.world.heap? 0).any fun h => h.registry.reserve ≠ .error .keysExhausted)
    (by decide +kernel)
  obtain ⟨_, t, hrun₁', hx', ht, hrun₂'⟩ := exists_of_any_exec (α := Nat)
    [.create {} .natural, .act 0 .reserve, .act 0 .reserve] (.act 0 (.insert 5))
    (fun t => (t.world.heap? 0).any fun k => k.registry.unboundKey ⟨⟨2⟩, 1, 0⟩ = .ok 1)
    (by decide +kernel)
  cases hrun.symm.trans hrun₁
  cases hrun'.symm.trans hrun₁'
  simp only [Option.any_eq_true, decide_eq_true_eq] at hs ht
  obtain ⟨h₂, hn₂, hkey₂⟩ := hs
  obtain ⟨k₂, hn₂', hunbound⟩ := ht
  have hfirst : Abreast 0 0 [] [] s.world t.world := by
    simpa [Command.names, Op.names, Command.opened] using
      hstart.both hn hn' (.act (.add .push (.insert hkey))) hx hx' hn₂ hn₂'
  -- The second command stores an element under a handle in both heaps.
  obtain ⟨_, s', hrun₃, hy, hs', -⟩ := exists_of_any_exec (α := Nat)
    [.create {} .natural, .act 0 (.push 5)] (.act 0 (.insert 3))
    (fun s => s.answer = .ok (.handle ⟨⟨2⟩, 0, 0⟩) ∧
      (s.world.heap? 0).any fun h => h.containsHandle ⟨⟨2⟩, 0, 0⟩) (by decide +kernel)
  obtain ⟨_, t', hrun₃', hy', ht', -⟩ := exists_of_any_exec (α := Nat)
    [.create {} .natural, .act 0 .reserve, .act 0 .reserve, .act 0 (.insert 5)]
    (.act 0 (.insertWith ⟨⟨2⟩, 1, 0⟩ 3))
    (fun t => t.answer = .ok .done ∧
      (t.world.heap? 0).any fun k => k.containsHandle ⟨⟨2⟩, 1, 0⟩ && k.values = [3, 5])
    (by decide +kernel)
  cases hrun₂.symm.trans hrun₃
  cases hrun₂'.symm.trans hrun₃'
  simp only [Option.any_eq_true, Bool.and_eq_true, decide_eq_true_eq] at hs' ht'
  obtain ⟨hanswer, h, hh, hholds⟩ := hs'
  obtain ⟨hanswer', k, hk, hholds', hthree⟩ := ht'
  have hboth : h.BothName k (⟨⟨2⟩, 0, 0⟩, ⟨⟨2⟩, 1, 0⟩) := ⟨hholds, hholds'⟩
  have hsecond : Abreast 0 0 [(⟨⟨2⟩, 0, 0⟩, ⟨⟨2⟩, 1, 0⟩)] [] s'.world t'.world := by
    simpa [Command.names, Op.names, Command.opened, hanswer, hanswer', pairOf, hboth] using
      hfirst.both hn₂ hn₂' (.act (.add (.insert hkey₂) (.insertWith hunbound))) hy hy' hh hk
  obtain ⟨g, g', hg, hg', hreads, hget, -⟩ := additions_agree hsecond
  cases hh.symm.trans hg
  cases hk.symm.trans hg'
  exact ⟨_, _, h, k, hsecond, hh, hk, hreads, hthree, hget _ (List.mem_singleton.mpr rfl)⟩

end World

end TrackedHeap
