import TrackedHeap.Proofs.Heap.Moves

/-!
# TrackedHeap.Proofs.World.Runs

**Runs of a world**, seen from its heaps.

A command lets one heap move, adds one heap, drops one, or leaves them all alone
(`World.Turn`). All heaps a run reaches are therefore well formed, and what a new heap
has and every move keeps is true of each of them (`World.heap_induct`). No request that
fails stands in the way of that: a failed one, too, is a row of moves.
-/

namespace TrackedHeap

variable {α : Type}

namespace World

/-! ### Heaps by number -/

theorem heap?_eq_some_iff {w : World α} {n : Nat} {h : Heap α} :
    w.heap? n = some h ↔ w.heaps[n]? = some (some h) := by
  unfold heap?
  rcases w.heaps[n]? with _ | _ | h' <;> simp

/-- What is related to something is there. -/
theorem exists_of_rel {β γ : Type} {A : β → γ → Prop} {x : Option β} {y : Option γ} {b : β}
    (h : Option.Rel A x y) (hx : x = some b) : ∃ c, y = some c ∧ A b c := by
  subst hx
  cases h with
  | some hbc => exact ⟨_, rfl, hbc⟩

theorem lt_size_of_heap? {w : World α} {n : Nat} {h : Heap α} (hh : w.heap? n = some h) :
    n < w.heaps.size := (Array.getElem?_eq_some_iff.mp (heap?_eq_some_iff.mp hh)).1

theorem heap?_congr {w w' : World α} (hh : w'.heaps = w.heaps) (n : Nat) :
    w'.heap? n = w.heap? n := by
  simp only [heap?, hh]

theorem heap?_of_set {w w' : World α} {k : Nat} {x : Option (Heap α)}
    (hh : w'.heaps = w.heaps.setIfInBounds k x) (hk : k < w.heaps.size) (n : Nat) :
    w'.heap? n = if n = k then x else w.heap? n := by
  simp only [heap?, hh, Array.getElem?_setIfInBounds]
  by_cases hn : n = k
  · subst hn
    simp [hk]
  · simp [hn, Ne.symm hn]

theorem heap?_of_push {w w' : World α} {h : Heap α} (hh : w'.heaps = w.heaps.push (some h))
    (n : Nat) : w'.heap? n = if n = w.heaps.size then some h else w.heap? n := by
  simp only [heap?, hh, Array.getElem?_push]
  split <;> rfl

theorem heap?_of_drop_self {w w' : World α} {k : Nat}
    (hh : w'.heaps = w.heaps.setIfInBounds k none) : w'.heap? k = none := by
  simp only [heap?, hh, Array.getElem?_setIfInBounds, if_pos]
  split <;> rfl

theorem heap?_of_drop {w w' : World α} {k : Nat} (hh : w'.heaps = w.heaps.setIfInBounds k none)
    {n : Nat} {h : Heap α} (hn : w'.heap? n = some h) : w.heap? n = some h := by
  simp only [heap?, hh, Array.getElem?_setIfInBounds] at hn ⊢
  split at hn
  · split at hn <;> cases hn
  · exact hn

end World

/-! ### Making a heap -/

/-- A heap that is made is empty, and draws its identity and its first owner. -/
theorem Heap.create_eq_ok {policy : StoragePolicy} {priority : Priority α} {size : SlotSize}
    {m m' : Mint} {h : Heap α} (hc : Heap.create policy priority size m = .ok (h, m')) :
    h.slots = #[] ∧ h.registry = { owner := m.next.succ } ∧ h.priority = priority ∧
      m' = m.draw.2.draw.2 := by
  unfold Heap.create at hc
  split at hc
  · cases hc
    exact ⟨rfl, rfl, rfl, rfl⟩
  · cases hc

/-- The identity is drawn before the first owner. -/
theorem Heap.id_of_create {policy : StoragePolicy} {priority : Priority α} {size : SlotSize}
    {m m' : Mint} {h : Heap α} (hc : Heap.create policy priority size m = .ok (h, m')) :
    h.id = m.next := by
  unfold Heap.create at hc
  split at hc
  · cases hc
    rfl
  · cases hc

theorem Heap.wellFormed_create {policy : StoragePolicy} {priority : Priority α} {size : SlotSize}
    {m m' : Mint} {h : Heap α} (hc : Heap.create policy priority size m = .ok (h, m')) :
    h.WellFormed := by
  obtain ⟨hs, hr, -, -⟩ := create_eq_ok hc
  refine ⟨?_, ?_⟩
  · rw [hr]
    exact .new m.next.succ
  · rw [hr]
    exact tied_new hs m.next.succ

/-! ### One command -/

/-- The heap that a command changes or uses up. -/
def Command.changes : Command α → Option Nat
  | .act n _ | .consume n | .drain n => some n
  | _ => none

/-- The request a command makes of a heap, and the number of the heap. -/
def Command.request? : Command α → Option (Nat × Op α)
  | .act n op => some (n, op)
  | _ => none

namespace World

/-- All heaps are well formed. -/
def WellFormed (w : World α) : Prop := ∀ n h, w.heap? n = some h → h.WellFormed

/-- What a command can do to the heaps of a world. -/
inductive Turn [BEq α] (w : World α) (command : Command α) (s : Step α (Reply α)) : Prop
  /-- The heaps are left alone. -/
  | rested (hc : command.request? = none) (hh : s.world.heaps = w.heaps)
  /-- One heap is asked for something. -/
  | acted {n : Nat} {op : Op α} {h : Heap α} {o : Outcome α (Reply α)}
      (hc : command.request? = some (n, op)) (hn : w.heap? n = some h)
      (he : op.Effect h w.mint o) (hh : s.world.heaps = w.heaps.setIfInBounds n (some o.heap))
      (hm : s.world.mint = o.mint) (ha : s.answer = o.answer)
  /-- A heap is made, and perhaps filled. -/
  | made {policy : StoragePolicy} {priority : Priority α} {size : SlotSize} {h h' : Heap α}
      (hc : command.request? = none)
      (hmade : Heap.create policy priority size w.mint = .ok (h, s.world.mint))
      (hms : h.Moves [] h') (hh : s.world.heaps = w.heaps.push (some h'))
  /-- A heap is used up. -/
  | dropped {n : Nat} (hc : command.request? = none)
      (hh : s.world.heaps = w.heaps.setIfInBounds n none)

theorem turn_create [BEq α] (w : World α) (policy : StoragePolicy) (priority : Priority α)
    (size : SlotSize) : w.Turn (.create policy priority size) (w.create policy priority size) := by
  unfold World.create
  split
  · next h m hc => exact .made (h := h) rfl hc .none rfl
  · exact .rested rfl rfl

theorem turn_collect [BEq α] (w : World α) (priority : Priority α) (promised : Nat)
    (values : List α) (size : SlotSize) :
    w.Turn (.collect priority promised values size) (w.collect priority promised values size) := by
  unfold World.collect
  dsimp only
  split
  · next h m hc =>
      have hrun := Op.effect (Heap.wellFormed_create hc) m (.extend values)
      obtain ⟨hms, hm⟩ := hrun.moves_extend
      simp only [Op.run, Outcome.map_heap, Outcome.map_mint] at hms hm
      split
      · exact .made rfl (hm ▸ hc) hms rfl
      · exact .rested rfl rfl
  · exact .rested rfl rfl

/-- **Inversion of commands**: heaps change in no other way. -/
theorem turn_of_exec [BEq α] {w : World α} (hw : w.WellFormed) {command : Command α}
    {s : Step α (Reply α)} (hx : w.exec command = some s) : w.Turn command s := by
  cases command with
  | create policy priority size =>
      cases hx
      exact w.turn_create policy priority size
  | collect priority promised values size =>
      cases hx
      exact w.turn_collect priority promised values size
  | act n op =>
      obtain ⟨h, hn, hs⟩ := Option.bind_eq_some_iff.mp hx
      cases hs
      exact .acted rfl hn (Op.effect (hw n h hn) w.mint op) rfl rfl rfl
  | consume n =>
      obtain ⟨h, hn, hs⟩ := Option.bind_eq_some_iff.mp hx
      cases hs
      exact .dropped rfl rfl
  | drain n =>
      obtain ⟨h, hn, hs⟩ := Option.bind_eq_some_iff.mp hx
      cases hs
      exact .dropped rfl rfl
  | openCursor n =>
      obtain ⟨h, hn, hs⟩ := Option.bind_eq_some_iff.mp hx
      cases hs
      exact .rested rfl rfl
  | copyCursor cursor =>
      obtain ⟨c, hn, hs⟩ := Option.bind_eq_some_iff.mp hx
      cases hs
      exact .rested rfl rfl
  | step cursor n | stepToEnd cursor n | restart cursor n =>
      obtain ⟨c, hcur, hx⟩ := Option.bind_eq_some_iff.mp hx
      obtain ⟨h, hn, hs⟩ := Option.bind_eq_some_iff.mp hx
      cases hs
      exact .rested rfl rfl

theorem exec_act_eq_some [BEq α] {w : World α} {n : Nat} {op : Op α} {s : Step α (Reply α)} :
    w.exec (.act n op) = some s ↔ ∃ h, w.heap? n = some h ∧
      s = ⟨{ w.setHeap n (some (op.run h w.mint).heap) with mint := (op.run h w.mint).mint },
        (op.run h w.mint).events, (op.run h w.mint).answer⟩ := by
  simp only [exec, onHeap, Option.bind_eq_bind, Option.bind_eq_some_iff, Option.pure_def,
    Option.some.injEq, eq_comm (a := s)]

/-- A heap that is there can be asked for anything, and is then what the request made of it. -/
theorem exists_exec_act [BEq α] {w : World α} {n : Nat} {h : Heap α} (hn : w.heap? n = some h)
    (op : Op α) : ∃ s, w.exec (.act n op) = some s ∧ s.answer = (op.run h w.mint).answer ∧
      s.world.mint = (op.run h w.mint).mint ∧ s.world.heap? n = some (op.run h w.mint).heap := by
  refine ⟨_, exec_act_eq_some.mpr ⟨h, hn, rfl⟩, rfl, rfl, ?_⟩
  have hset : (w.setHeap n (some (op.run h w.mint).heap)).heap? n =
      some (op.run h w.mint).heap := by
    rw [heap?_of_set rfl (lt_size_of_heap? hn), if_pos rfl]
  exact hset

theorem exec_openCursor_eq_some [BEq α] {w : World α} {n : Nat} {s : Step α (Reply α)} :
    w.exec (.openCursor n) = some s ↔ ∃ h, w.heap? n = some h ∧
      s = ⟨{ w with cursors := w.cursors.push (.start h) }, [], .ok (.number w.cursors.size)⟩ := by
  simp only [exec, Option.bind_eq_bind, Option.bind_eq_some_iff, Option.pure_def,
    Option.some.injEq, eq_comm (a := s)]

theorem exec_copyCursor_eq_some [BEq α] {w : World α} {j : Nat} {s : Step α (Reply α)} :
    w.exec (.copyCursor j) = some s ↔ ∃ c, w.cursors[j]? = some c ∧
      s = ⟨{ w with cursors := w.cursors.push c }, [], .ok (.number w.cursors.size)⟩ := by
  simp only [exec, Option.bind_eq_bind, Option.bind_eq_some_iff, Option.pure_def,
    Option.some.injEq, eq_comm (a := s)]

theorem exec_step_eq_some [BEq α] {w : World α} {j n : Nat} {s : Step α (Reply α)} :
    w.exec (.step j n) = some s ↔ ∃ c h, w.cursors[j]? = some c ∧ w.heap? n = some h ∧
      s = ⟨w.setCursor j (c.next h).2, [], ((c.next h).1.map .found).mapError .refused⟩ := by
  simp only [exec, Option.bind_eq_bind, Option.bind_eq_some_iff, Option.pure_def,
    Option.some.injEq, eq_comm (a := s), exists_and_left]

theorem exec_stepToEnd_eq_some [BEq α] {w : World α} {j n : Nat} {s : Step α (Reply α)} :
    w.exec (.stepToEnd j n) = some s ↔ ∃ c h, w.cursors[j]? = some c ∧ w.heap? n = some h ∧
      s = ⟨w.setCursor j (c.rest h).2, [], ((c.rest h).1.map .values).mapError .refused⟩ := by
  simp only [exec, Option.bind_eq_bind, Option.bind_eq_some_iff, Option.pure_def,
    Option.some.injEq, eq_comm (a := s), exists_and_left]

theorem exec_restart_eq_some [BEq α] {w : World α} {j n : Nat} {s : Step α (Reply α)} :
    w.exec (.restart j n) = some s ↔ ∃ c h, w.cursors[j]? = some c ∧ w.heap? n = some h ∧
      s = ⟨w.setCursor j (.start h), [], .ok .done⟩ := by
  simp only [exec, Option.bind_eq_bind, Option.bind_eq_some_iff, Option.pure_def,
    Option.some.injEq, eq_comm (a := s), exists_and_left]

/-- A heap is made of given elements, or it finds no room for itself or for one of them. -/
theorem collect_cases (w : World α) (priority : Priority α) (promised : Nat) (values : List α)
    (size : SlotSize) {policy : StoragePolicy}
    (hp : policy = ({} : StoragePolicy).withFloor (max promised StoragePolicy.defaultFloor)) :
    (∃ fault, Heap.create policy priority size w.mint = .error fault ∧
      w.collect priority promised values size = ⟨w, [], .error (.fault fault)⟩) ∨
    (∃ h m failure, Heap.create policy priority size w.mint = .ok (h, m) ∧
      (h.extend m values).answer = .error failure ∧
      w.collect priority promised values size = ⟨{ w with mint := (h.extend m values).mint },
        (h.extend m values).events, .error failure⟩) ∨
    ∃ h m, Heap.create policy priority size w.mint = .ok (h, m) ∧
      (h.extend m values).answer = .ok () ∧
      w.collect priority promised values size =
        ⟨{ w.addHeap (h.extend m values).heap with mint := (h.extend m values).mint },
          (h.extend m values).events, .ok (.number w.heaps.size)⟩ := by
  subst hp
  unfold World.collect
  dsimp only
  rcases hc : Heap.create _ priority size w.mint with fault | ⟨h, m⟩
  · exact Or.inl ⟨fault, rfl, rfl⟩
  · right
    cases hans : (h.extend m values).answer with
    | error failure => exact Or.inl ⟨h, m, failure, rfl, hans, by simp only [hans]⟩
    | ok _ => exact Or.inr ⟨h, m, rfl, hans, by simp only [hans]⟩

/-- Where a heap after a command comes from, with all it has: it was there and was not asked for
anything, a request has made it of the one before, or it was made and filled. -/
theorem heap?_of_exec [BEq α] {w : World α} {command : Command α} {s : Step α (Reply α)}
    (hx : w.exec command = some s) {n : Nat} {h' : Heap α} (hn' : s.world.heap? n = some h') :
    (w.heap? n = some h' ∧ ∀ op, command ≠ .act n op) ∨
      (∃ op h, command = .act n op ∧ w.heap? n = some h ∧ h' = (op.run h w.mint).heap ∧
        s.world.mint = (op.run h w.mint).mint ∧ s.answer = (op.run h w.mint).answer) ∨
      ∃ policy priority size h m values, n = w.heaps.size ∧ (∀ op, command ≠ .act n op) ∧
        Heap.create policy priority size w.mint = .ok (h, m) ∧ h' = (h.extend m values).heap ∧
        s.world.mint = (h.extend m values).mint := by
  cases command with
  | create policy priority size =>
      cases hx
      unfold World.create at hn' ⊢
      rcases hc : Heap.create policy priority size w.mint with fault | ⟨h, m⟩
      · simp only [hc] at hn'
        exact Or.inl ⟨hn', nofun⟩
      · simp only [hc] at hn' ⊢
        rw [heap?_of_push rfl] at hn'
        split at hn'
        · next hsize =>
            cases hn'
            exact Or.inr (Or.inr ⟨policy, priority, size, _, m, [], hsize, nofun, hc, rfl, rfl⟩)
        · exact Or.inl ⟨hn', nofun⟩
  | collect priority promised values size =>
      cases hx
      rcases w.collect_cases priority promised values size rfl with ⟨fault, -, heq⟩ |
        ⟨h, m, failure, -, -, heq⟩ | ⟨h, m, hc, -, heq⟩
      · rw [heq] at hn'
        exact Or.inl ⟨hn', nofun⟩
      · rw [heq] at hn'
        exact Or.inl ⟨hn', nofun⟩
      · rw [heq] at hn' ⊢
        rw [heap?_of_push rfl] at hn'
        split at hn'
        · next hsize =>
            cases hn'
            exact Or.inr (Or.inr ⟨_, _, _, h, m, values, hsize, nofun, hc, rfl, rfl⟩)
        · exact Or.inl ⟨hn', nofun⟩
  | act k op =>
      obtain ⟨h, hn, rfl⟩ := exec_act_eq_some.mp hx
      have hset : (w.setHeap k (some (op.run h w.mint).heap)).heap? n = some h' := hn'
      rw [heap?_of_set rfl (lt_size_of_heap? hn)] at hset
      split at hset
      · next hnk =>
          cases hset
          exact Or.inr (Or.inl ⟨op, h, by rw [hnk], hnk ▸ hn, rfl, rfl, rfl⟩)
      · next hnk => exact Or.inl ⟨hset, fun op' heq => hnk (by cases heq; rfl)⟩
  | consume k | drain k =>
      obtain ⟨h, hn, hs⟩ := Option.bind_eq_some_iff.mp hx
      cases hs
      exact Or.inl ⟨heap?_of_drop rfl hn', nofun⟩
  | openCursor k =>
      obtain ⟨h, hn, rfl⟩ := exec_openCursor_eq_some.mp hx
      exact Or.inl ⟨hn', nofun⟩
  | copyCursor j =>
      obtain ⟨c, hj, rfl⟩ := exec_copyCursor_eq_some.mp hx
      exact Or.inl ⟨hn', nofun⟩
  | step j k =>
      obtain ⟨c, h, hj, hn, rfl⟩ := exec_step_eq_some.mp hx
      exact Or.inl ⟨hn', nofun⟩
  | stepToEnd j k =>
      obtain ⟨c, h, hj, hn, rfl⟩ := exec_stepToEnd_eq_some.mp hx
      exact Or.inl ⟨hn', nofun⟩
  | restart j k =>
      obtain ⟨c, h, hj, hn, rfl⟩ := exec_restart_eq_some.mp hx
      exact Or.inl ⟨hn', nofun⟩

/-- A heap that a command does not change is still there as it was. -/
theorem heap?_kept [BEq α] {w : World α} {command : Command α} {s : Step α (Reply α)}
    (hx : w.exec command = some s) {n : Nat} {h : Heap α} (hn : w.heap? n = some h)
    (hc : command.changes ≠ some n) : s.world.heap? n = some h := by
  have hlt := lt_size_of_heap? hn
  have hset : ∀ {w' : World α} {k : Nat} {x : Option (Heap α)},
      w'.heaps = w.heaps.setIfInBounds k x → k < w.heaps.size → n ≠ k → w'.heap? n = some h :=
    fun hh hk hne => by rw [heap?_of_set hh hk, if_neg hne, hn]
  have hpush : ∀ {w' : World α} {g : Heap α}, w'.heaps = w.heaps.push (some g) →
      w'.heap? n = some h :=
    fun hh => by rw [heap?_of_push hh, if_neg (Nat.ne_of_lt hlt), hn]
  cases command with
  | create policy priority size =>
      cases hx
      unfold World.create
      split
      · exact hpush rfl
      · exact hn
  | collect priority promised values size =>
      cases hx
      rcases w.collect_cases priority promised values size rfl with ⟨fault, -, heq⟩ |
        ⟨h, m, failure, -, -, heq⟩ | ⟨h, m, -, -, heq⟩
      · exact heq ▸ hn
      · exact heq ▸ hn
      · exact heq ▸ hpush rfl
  | act k op =>
      obtain ⟨g, hk, rfl⟩ := exec_act_eq_some.mp hx
      exact hset rfl (lt_size_of_heap? hk) fun hne => hc (by rw [hne]; rfl)
  | consume k =>
      obtain ⟨g, hk, hs⟩ := Option.bind_eq_some_iff.mp hx
      cases hs
      exact hset rfl (lt_size_of_heap? hk) fun hne => hc (by rw [hne]; rfl)
  | drain k =>
      obtain ⟨g, hk, hs⟩ := Option.bind_eq_some_iff.mp hx
      cases hs
      exact hset rfl (lt_size_of_heap? hk) fun hne => hc (by rw [hne]; rfl)
  | openCursor k =>
      obtain ⟨g, hk, rfl⟩ := exec_openCursor_eq_some.mp hx
      exact hn
  | copyCursor j =>
      obtain ⟨c, hj, rfl⟩ := exec_copyCursor_eq_some.mp hx
      exact hn
  | step j k =>
      obtain ⟨c, g, hj, hk, rfl⟩ := exec_step_eq_some.mp hx
      exact hn
  | stepToEnd j k =>
      obtain ⟨c, g, hj, hk, rfl⟩ := exec_stepToEnd_eq_some.mp hx
      exact hn
  | restart j k =>
      obtain ⟨c, g, hj, hk, rfl⟩ := exec_restart_eq_some.mp hx
      exact hn

/-- A number that was given stands for the same heap, or for none, until a command changes that. -/
theorem heap?_unchanged [BEq α] {w : World α} {command : Command α} {s : Step α (Reply α)}
    (hx : w.exec command = some s) {n : Nat} (hlt : n < w.heaps.size)
    (hc : command.changes ≠ some n) : s.world.heap? n = w.heap? n := by
  cases hn : w.heap? n with
  | some h => exact heap?_kept hx hn hc
  | none =>
      refine Option.eq_none_iff_forall_ne_some.mpr fun h' hn' => ?_
      rcases heap?_of_exec hx hn' with ⟨hold, -⟩ | ⟨op, h, rfl, -⟩ | ⟨_, _, _, _, _, _, rfl, -⟩
      · cases hn.symm.trans hold
      · exact hc rfl
      · exact Nat.lt_irrefl _ hlt

/-- Where a heap after a command comes from: it was there and has been left alone, it was
asked for something, or it was made. -/
theorem Turn.heap?_cases [BEq α] {w : World α} {command : Command α} {s : Step α (Reply α)}
    (ht : w.Turn command s) {n : Nat} {h' : Heap α} (hh' : s.world.heap? n = some h') :
    w.heap? n = some h' ∨
      (∃ op h o, command.request? = some (n, op) ∧ w.heap? n = some h ∧
        op.Effect h w.mint o ∧ h' = o.heap ∧ s.world.mint = o.mint ∧ s.answer = o.answer) ∨
      ∃ policy priority size h, n = w.heaps.size ∧ command.request? = none ∧
        Heap.create policy priority size w.mint = .ok (h, s.world.mint) ∧ h.Moves [] h' := by
  cases ht with
  | rested hc hh => exact Or.inl (heap?_congr hh n ▸ hh')
  | @acted k op h o hc hn he hh hm ha =>
      rw [heap?_of_set hh (lt_size_of_heap? hn)] at hh'
      split at hh'
      · next hnk =>
          subst hnk
          cases hh'
          exact Or.inr (Or.inl ⟨op, h, o, hc, hn, he, rfl, hm, ha⟩)
      · exact Or.inl hh'
  | made hc hmade hms hh =>
      rw [heap?_of_push hh] at hh'
      split at hh'
      · next hnk =>
          cases hh'
          exact Or.inr (Or.inr ⟨_, _, _, _, hnk, hc, hmade, hms⟩)
      · exact Or.inl hh'
  | dropped hc hh => exact Or.inl (heap?_of_drop hh hh')

/-- A heap keeps its number and its identity for as long as it is there. -/
theorem Turn.exists_heap? [BEq α] {w : World α} (hw : w.WellFormed) {command : Command α}
    {s : Step α (Reply α)} (ht : w.Turn command s) {n : Nat} {h' : Heap α}
    (hn' : s.world.heap? n = some h') (hlt : n < w.heaps.size) :
    ∃ h, w.heap? n = some h ∧ h'.id = h.id := by
  rcases ht.heap?_cases hn' with hn | ⟨op, h, o, -, hn, he, rfl, -, -⟩ |
    ⟨policy, priority, size, h, rfl, -, -, -⟩
  · exact ⟨h', hn, rfl⟩
  · obtain ⟨h₁, hms, hren⟩ := he.moves (hw n h hn)
    exact ⟨h, hn, hren.id_eq.trans hms.id_eq⟩
  · exact absurd hlt (Nat.lt_irrefl _)

theorem Turn.size_le [BEq α] {w : World α} {command : Command α} {s : Step α (Reply α)}
    (ht : w.Turn command s) : w.heaps.size ≤ s.world.heaps.size := by
  cases ht with
  | rested hc hh | acted hc hn he hh hm ha | made hc hmade hms hh | dropped hc hh => simp [hh]

theorem Turn.wellFormed [BEq α] {w : World α} (hw : w.WellFormed) {command : Command α}
    {s : Step α (Reply α)} (ht : w.Turn command s) : s.world.WellFormed := by
  intro n h' hh'
  rcases ht.heap?_cases hh' with hh | ⟨op, h, o, -, hh, he, rfl, -, -⟩ |
    ⟨policy, priority, size, h, -, -, hmade, hms⟩
  · exact hw n h' hh
  · obtain ⟨h₁, hms, hren⟩ := he.moves (hw n h hh)
    exact hren.wellFormed (hms.wellFormed (hw n h hh))
  · exact hms.wellFormed (Heap.wellFormed_create hmade)

/-! ### Whole runs -/

theorem wellFormed_empty : ({} : World α).WellFormed := by
  intro n h hh
  simp [heap?] at hh

/-- A run that goes through has a first step and a run from there. -/
theorem run_cons_eq_some [BEq α] {w w' : World α} {command : Command α}
    {commands : List (Command α)} :
    w.run (command :: commands) = some w' ↔
      ∃ s, w.exec command = some s ∧ s.world.run commands = some w' := Option.bind_eq_some_iff

theorem run_append [BEq α] (w : World α) (commands later : List (Command α)) :
    w.run (commands ++ later) = (w.run commands).bind (·.run later) := by
  induction commands generalizing w with
  | nil => rfl
  | cons command commands ih =>
      show (w.exec command).bind (fun s => s.world.run (commands ++ later)) = _
      simp only [ih]
      exact (Option.bind_assoc ..).symm

/-- A check of a heap at the end of a run that comes out true says that there is one. -/
theorem exists_of_any_run [BEq α] (commands : List (Command α)) (n : Nat) (check : Heap α → Bool)
    (h : ((World.run {} commands).bind (·.heap? n)).any check = true) :
    ∃ w h, World.run {} commands = some w ∧ w.heap? n = some h ∧ check h = true := by
  obtain ⟨h, hh, hc⟩ := (Option.any_eq_true ..).mp h
  obtain ⟨w, hw, hn⟩ := Option.bind_eq_some_iff.mp hh
  exact ⟨w, h, hw, hn, hc⟩

/-- A check of the last step of a run that comes out true says that there is one. -/
theorem exists_of_any_exec [BEq α] (commands : List (Command α)) (command : Command α)
    (check : Step α (Reply α) → Bool)
    (h : ((World.run {} commands).bind (·.exec command)).any check = true) :
    ∃ w s, World.run {} commands = some w ∧ w.exec command = some s ∧ check s = true ∧
      World.run {} (commands ++ [command]) = some s.world := by
  obtain ⟨s, hs, hc⟩ := (Option.any_eq_true ..).mp h
  obtain ⟨w, hw, hx⟩ := Option.bind_eq_some_iff.mp hs
  refine ⟨w, s, hw, hx, hc, ?_⟩
  rw [run_append, hw]
  exact run_cons_eq_some.mpr ⟨s, hx, rfl⟩

/-- What every command keeps holds at the end of a run if it does at the start. -/
theorem run_induct [BEq α] {Q : World α → Prop}
    (hstep : ∀ w command s, Q w → w.exec command = some s → Q s.world) {w w' : World α} (hw : Q w)
    {commands : List (Command α)} (hrun : w.run commands = some w') : Q w' := by
  induction commands generalizing w with
  | nil =>
      cases hrun
      exact hw
  | cons command commands ih =>
      obtain ⟨s, hx, hrest⟩ := run_cons_eq_some.mp hrun
      exact ih (hstep w command s hw hx) hrest

section Induction

variable [BEq α] {P : Heap α → Prop}
  (hnew : ∀ policy priority size m h m', Heap.create policy priority size m = .ok (h, m') → P h)

section Requests

variable (hask : ∀ (h : Heap α) (m : Mint) (op : Op α) (o : Outcome α (Reply α)), h.WellFormed →
  P h → op.Effect h m o → P o.heap)
include hnew hask

/-- What holds of a new heap, and is kept by every request to a well-formed one, holds of every
heap after a command if it does before. -/
theorem forall_heap_of_exec {w : World α}
    (hw : ∀ n h, w.heap? n = some h → h.WellFormed ∧ P h) {command : Command α}
    {s : Step α (Reply α)} (hx : w.exec command = some s) :
    ∀ n h', s.world.heap? n = some h' → h'.WellFormed ∧ P h' := by
  intro n h' hn'
  have hwell : w.WellFormed := fun n h hn => (hw n h hn).1
  refine ⟨(turn_of_exec hwell hx).wellFormed hwell n h' hn', ?_⟩
  rcases heap?_of_exec hx hn' with ⟨hn, -⟩ | ⟨op, h, -, hn, rfl, -, -⟩ |
    ⟨policy, priority, size, h, m, values, -, -, hc, rfl, -⟩
  · exact (hw n h' hn).2
  · exact hask h w.mint op _ (hwell n h hn) (hw n h hn).2 (Op.effect (hwell n h hn) w.mint op)
  · exact hask h m (.extend values) _ (Heap.wellFormed_create hc) (hnew _ _ _ _ _ _ hc)
      (Op.effect (Heap.wellFormed_create hc) m (.extend values))

/-- **Induction over requests**: what holds of a new heap, and is kept by every request, holds of
every heap that a run reaches. Unlike a move, a request tells what becomes of the storage. -/
theorem heap_request_induct {commands : List (Command α)} {w : World α}
    (hrun : World.run {} commands = some w) {n : Nat} {h : Heap α} (hn : w.heap? n = some h) :
    h.WellFormed ∧ P h :=
  run_induct (Q := fun w => ∀ n h, w.heap? n = some h → h.WellFormed ∧ P h)
    (fun _ _ _ hw hx => forall_heap_of_exec hnew hask hw hx)
    (fun n h hn => by simp [heap?] at hn) hrun n h hn

end Requests

include hnew

/-- **Induction over the heaps of a run**: what holds of a new heap, and is kept by every
move and by a renewal, holds of every heap that a run reaches. -/
theorem heap_induct
    (hmove : ∀ h e h', h.WellFormed → P h → h.Move e h' → P h')
    (hrenew : ∀ h m h' m', h.WellFormed → P h → h.MayRenew m h' m' → P h')
    {commands : List (Command α)} {w : World α} (hrun : World.run {} commands = some w) {n : Nat}
    {h : Heap α} (hn : w.heap? n = some h) : h.WellFormed ∧ P h := by
  have hmoves : ∀ {h es h'}, Heap.Moves (α := α) h es h' → h.WellFormed → P h → P h' := by
    intro h es h' hms hw hp
    induction hms with
    | none => exact hp
    | next first rest ih => exact ih (first.wellFormed hw) (hmove _ _ _ hw hp first)
  refine heap_request_induct hnew ?_ hrun hn
  intro h m op o hw hp he
  obtain ⟨h₁, hms, hren⟩ := he.moves hw
  exact hrenew _ _ _ _ (hms.wellFormed hw) (hmoves hms hw hp) hren

end Induction

theorem heap_wellFormed [BEq α] {commands : List (Command α)} {w : World α}
    (hrun : World.run {} commands = some w) {n : Nat} {h : Heap α} (hn : w.heap? n = some h) :
    h.WellFormed :=
  (heap_induct (P := fun _ => True) (fun _ _ _ _ _ _ _ => trivial) (fun _ _ _ _ _ _ => trivial)
    (fun _ _ _ _ _ _ _ => trivial) hrun hn).1

end World

end TrackedHeap
