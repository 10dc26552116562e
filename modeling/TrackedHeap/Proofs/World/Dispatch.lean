import TrackedHeap.Proofs.World.Sorting

/-!
# TrackedHeap.Proofs.World.Dispatch

**The time of a dispatcher never runs backwards.** A dispatcher takes the first element in rank
out of a heap, and what it schedules from then on ranks no earlier than what it took out last. All
that it takes out comes in rank order then, whatever is cancelled, rescheduled or dropped in
between.

The invariant is that nothing in the heap ranks before anything that was taken out
(`Heap.RanksAfter`). A request leaves in the heap only what was there and what it brought along
(`Op.Effect.mem_values`), and a pop takes out a first element, so each command keeps it.
-/

namespace TrackedHeap

variable {α : Type}

/-- The elements that a request brings along, whether it stores them or is turned down. -/
def Op.given : Op α → List α
  | push value | insert value | insertWith _ value | update _ value => [value]
  | extend values => values
  | reserve | release _ | pop | remove _ | removeValue _ | removeFirst _ | clear | trim => []

namespace Command

/-- The elements that a command brings to the heap with number `n`. -/
def given (n : Nat) : Command α → List α
  | act k op => if k = n then op.given else []
  | _ => []

/-- The elements that a command, answered so, has popped from the heap with number `n`. -/
def popped (n : Nat) : Command α → Except Failure (Reply α) → List α
  | act k .pop, .ok (.value value) => if k = n then [value] else []
  | drain k, .ok (.values values) => if k = n then values else []
  | _, _ => []

end Command

namespace World

variable [BEq α]

/-- The elements that are popped from the heap with number `n` while commands are carried out. -/
def dispatched (w : World α) (n : Nat) : List (Command α) → List α
  | [] => []
  | command :: rest =>
      match w.exec command with
      | none => []
      | some s => command.popped n s.answer ++ s.world.dispatched n rest

/-- Once an element was popped from the heap with number `n`, no command brings it one that ranks
before the element popped last, which is `last` at the start. -/
def Timely (w : World α) (p : Priority α) (n : Nat) (last : Option α) : List (Command α) → Prop
  | [] => True
  | command :: rest =>
      (∀ x ∈ last, ∀ y ∈ command.given n, p.compare x y ≠ .gt) ∧
        match w.exec command with
        | none => True
        | some s => s.world.Timely p n ((command.popped n s.answer).getLast?.or last) rest

instance decidableTimely (p : Priority α) (n : Nat) (w : World α) (last : Option α) :
    (commands : List (Command α)) → Decidable (w.Timely p n last commands)
  | [] => isTrue trivial
  | command :: rest =>
      match hx : w.exec command with
      | none => decidable_of_iff (∀ x ∈ last, ∀ y ∈ command.given n, p.compare x y ≠ .gt)
          (by simp [Timely, hx])
      | some s =>
          have := decidableTimely p n s.world ((command.popped n s.answer).getLast?.or last) rest
          decidable_of_iff ((∀ x ∈ last, ∀ y ∈ command.given n, p.compare x y ≠ .gt) ∧
            s.world.Timely p n ((command.popped n s.answer).getLast?.or last) rest)
            (by simp [Timely, hx])

end World

/-! ### What is in the heap -/

/-- The last of a list in rank order stands for all of it. -/
theorem Priority.InRank.ne_gt_of_getLast? {p : Priority α} (hp : p.Lawful) {xs : List α}
    (hx : p.InRank xs) {y : α} (hlast : ∀ x ∈ xs.getLast?, p.compare x y ≠ .gt) :
    ∀ x ∈ xs, p.compare x y ≠ .gt := by
  intro x hmem
  obtain ⟨front, z, rfl⟩ := (List.eq_nil_or_concat' xs).resolve_left (List.ne_nil_of_mem hmem)
  have hz := hlast z (by simp)
  rcases List.mem_append.mp hmem with hfront | hsame
  · have hxz := (List.pairwise_append.mp hx).2.2 x hfront z (List.mem_singleton_self z)
    exact hp.ne_gt_trans hxz hz
  · exact List.mem_singleton.mp hsame ▸ hz

namespace Heap

/-- Nothing in the heap ranks before any element of the list. -/
def RanksAfter (h : Heap α) (before : List α) : Prop :=
  ∀ x ∈ before, ∀ y ∈ h.values, h.priority.compare x y ≠ .gt

theorem Stores.mem_values {h h' : Heap α} {slot : Slot α} {events : List Event}
    (hs : h.Stores slot events h') {y : α} : y ∈ h'.values ↔ y = slot.value ∨ y ∈ h.values := by
  rw [values, (hs.perm_slots.map (·.value)).mem_iff, List.map_cons, List.mem_cons, values]

theorem TakesOut.mem_values {h : Heap α} {m : Mint} {i : Nat} {hi : i < h.slots.size}
    {c : Change α α} (ht : h.TakesOut m i hi c) {y : α} (hy : y ∈ c.heap.values) :
    y ∈ h.values := by
  rw [values, ← (ht.perm_slots.map (·.value)).mem_iff, List.map_cons]
  exact List.mem_cons_of_mem _ hy

theorem Replaces.mem_values {h h' : Heap α} {i : Nat} {hi : i < h.slots.size} {value : α}
    (hr : h.Replaces i hi value h') {y : α} (hy : y ∈ h'.values) : y = value ∨ y ∈ h.values := by
  rw [values, hr.slots_eq, ((Sift.perm_settle ..).toList.map (·.value)).mem_iff, Array.toList_set,
    List.map_set] at hy
  exact (List.mem_or_eq_of_mem_set hy).symm

end Heap

namespace Op.Effect

open Heap

variable [BEq α] {h : Heap α} {m : Mint} {o : Outcome α (Reply α)}

theorem priority_eq {op : Op α} (he : op.Effect h m o) (hw : h.WellFormed) :
    o.heap.priority = h.priority := by
  obtain ⟨h₁, hms, hren⟩ := he.moves hw
  exact hren.priority_eq.trans hms.priority_eq

theorem mem_values_extend {values : List α} (he : (Op.extend values).Effect h m o) {y : α}
    (hy : y ∈ o.heap.values) : y ∈ h.values ∨ y ∈ values := by
  induction values generalizing h o with
  | nil =>
      cases he
      exact Or.inl hy
  | cons value rest ih =>
      cases he with
      | extendMore hs ho =>
          rcases ih ho hy with hold | hrest
          · rcases hs.mem_values.mp hold with rfl | hold
            · exact Or.inr (List.mem_cons_self ..)
            · exact Or.inl hold
          · exact Or.inr (List.mem_cons_of_mem _ hrest)
      | extendFull hl => exact Or.inl hy

/-- **Requests bring in what they are given** and nothing else. -/
theorem mem_values {op : Op α} (he : op.Effect h m o) {y : α} (hy : y ∈ o.heap.values) :
    y ∈ h.values ∨ y ∈ op.given := by
  cases he with
  | pushed hs | inserted _ _ _ hs | insertedWith _ hs =>
      rcases hs.mem_values.mp hy with rfl | hold
      · exact Or.inr (List.mem_singleton_self _)
      · exact Or.inl hold
  | extendMore hs ho => exact mem_values_extend (.extendMore hs ho) hy
  | popped ht | removed _ ht | removedFirst _ ht | removedValue _ ht =>
      exact Or.inl (ht.mem_values hy)
  | updated _ hr =>
      rcases hr.mem_values hy with rfl | hold
      · exact Or.inr (List.mem_singleton_self _)
      · exact Or.inl hold
  | cleared hc =>
      rw [Heap.values, hc.slots_eq] at hy
      cases hy
  | pushFull | extended | extendFull | reserved | exhausted | insertFull | insertExhausted
  | released | releaseRefused | insertWithFull | insertWithRefused | popEmpty | removeRefused
  | noneFirst | noValue | updateRefused | trimmed | untrimmed => exact Or.inl hy

end Op.Effect

/-! ### One command -/

namespace World

variable [BEq α] {commands : List (Command α)} {w : World α} {n : Nat} {before : List α}
  {command : Command α} {s : Step α (Reply α)}

/-- What a command brings along ranks no earlier than what was popped, so the heap does not
either. -/
theorem ranksAfter_of_exec (hrun : World.run {} commands = some w) {h : Heap α}
    (hn : w.heap? n = some h) (ha : h.RanksAfter before) (hx : w.exec command = some s)
    (hgiven : ∀ x ∈ before, ∀ y ∈ command.given n, h.priority.compare x y ≠ .gt) {h' : Heap α}
    (hn' : s.world.heap? n = some h') : h'.priority = h.priority ∧ h'.RanksAfter before := by
  rcases heap?_of_exec hx hn' with ⟨hsame, -⟩ | ⟨op, g, rfl, hg, rfl, -, -⟩ |
    ⟨-, -, -, -, -, -, hsize, -⟩
  · cases hn.symm.trans hsame
    exact ⟨rfl, ha⟩
  · cases hn.symm.trans hg
    have hw := heap_wellFormed hrun hn
    have he := Op.effect hw w.mint op
    refine ⟨he.priority_eq hw, ?_⟩
    intro x hmem y hy
    rw [he.priority_eq hw]
    rcases he.mem_values hy with hold | hnew
    · exact ha x hmem y hold
    · exact hgiven x hmem y (by simpa only [Command.given, if_true] using hnew)
  · exact absurd (lt_size_of_heap? hn) (by omega)

/-- What a command pops was in the heap, comes in rank order, and nothing that is left ranks before
it. -/
theorem popped_inRank (hrun : World.run {} commands = some w) {h : Heap α}
    (hn : w.heap? n = some h) (hp : h.priority.Lawful) (hx : w.exec command = some s) :
    h.priority.InRank (command.popped n s.answer) ∧
      (∀ x ∈ command.popped n s.answer, x ∈ h.values) ∧
      ∀ h', s.world.heap? n = some h' → h'.RanksAfter (command.popped n s.answer) := by
  have hr := ranked_of_run hrun hn hp
  by_cases hnil : command.popped n s.answer = []
  · rw [hnil]
    exact ⟨.nil, nofun, fun h' _ => nofun⟩
  unfold Command.popped at hnil ⊢
  split at hnil
  · next k value hans =>
      obtain rfl : k = n := by
        by_contra hne
        exact hnil (if_neg hne)
      simp only [if_true]
      obtain ⟨g, hg, rfl⟩ := exec_act_eq_some.mp hx
      cases hn.symm.trans hg
      have hne : h.slots ≠ #[] := by
        intro he
        simp only [Op.run, Heap.WellFormed.pop_of_empty he] at hans
        cases hans
      obtain ⟨first, hfirst, -, hprio, hperm, hle⟩ := hr.pop hne w.mint
      simp only [Op.run, Outcome.map, hfirst] at hans
      cases hans
      refine ⟨List.pairwise_singleton .., ?_, ?_⟩
      · intro x hmem
        rw [List.mem_singleton.mp hmem]
        exact hperm.mem_iff.mp (List.mem_cons_self ..)
      · intro h' hn' x hmem y hy
        have hset : (w.setHeap k (some (h.pop w.mint).heap)).heap? k =
            some (h.pop w.mint).heap := by
          rw [heap?_of_set rfl (lt_size_of_heap? hn), if_pos rfl]
        cases hset.symm.trans hn'
        rw [List.mem_singleton.mp hmem, hprio]
        exact hle y (hperm.mem_iff.mp (List.mem_cons_of_mem _ hy))
  · next k values hans =>
      obtain rfl : k = n := by
        by_contra hne
        exact hnil (if_neg hne)
      simp only [if_true]
      obtain ⟨ys, hys, hrank, hperm⟩ := exists_drain hn hr
      simp only [answers, hx, List.cons.injEq, and_true] at hys
      cases hans.symm.trans hys
      refine ⟨hrank, fun x hmem => hperm.mem_iff.mp hmem, ?_⟩
      intro h' hn'
      obtain ⟨g, hg, heq⟩ := Option.bind_eq_some_iff.mp hx
      cases heq
      have hset : (w.setHeap k none).heap? k = none := by
        rw [heap?_of_set rfl (lt_size_of_heap? hn), if_pos rfl]
      cases hset.symm.trans hn'
  · exact absurd rfl hnil

/-- Nothing is popped from a heap that is not there. -/
theorem popped_of_no_heap (hn : w.heap? n = none) (hx : w.exec command = some s) :
    command.popped n s.answer = [] := by
  unfold Command.popped
  split
  · next k value hans =>
      obtain ⟨h, hk, -⟩ := exec_act_eq_some.mp hx
      exact if_neg fun heq => by simp [heq, hn] at hk
  · next k values hans =>
      obtain ⟨h, hk, -⟩ := Option.bind_eq_some_iff.mp hx
      exact if_neg fun heq => by simp [heq, hn] at hk
  · rfl

/-! ### Whole runs -/

/-- What was popped so far is in rank order, and the heap, if it is still there, comes after it. -/
def InTime (w : World α) (p : Priority α) (n : Nat) (before : List α) : Prop :=
  p.InRank before ∧ ∀ h, w.heap? n = some h → h.priority = p ∧ h.RanksAfter before

/-- **One command** keeps the order of what is popped. -/
theorem InTime.step {p : Priority α} (hp : p.Lawful) (hrun : World.run {} commands = some w)
    (hsize : n < w.heaps.size) (ht : w.InTime p n before)
    (hgiven : ∀ x ∈ before.getLast?, ∀ y ∈ command.given n, p.compare x y ≠ .gt)
    (hx : w.exec command = some s) :
    s.world.InTime p n (before ++ command.popped n s.answer) := by
  obtain ⟨hrank, hafter⟩ := ht
  cases hn : w.heap? n with
  | none =>
      rw [popped_of_no_heap hn hx, List.append_nil]
      refine ⟨hrank, fun h' hn' => ?_⟩
      rcases heap?_of_exec hx hn' with ⟨hsame, -⟩ | ⟨op, g, -, hg, -⟩ | ⟨-, -, -, -, -, -, heq, -⟩
      · cases hn.symm.trans hsame
      · cases hn.symm.trans hg
      · omega
  | some h =>
      obtain ⟨rfl, ha⟩ := hafter h hn
      obtain ⟨hpopped, hmem, hleft⟩ := popped_inRank hrun hn hp hx
      refine ⟨List.pairwise_append.mpr ⟨hrank, hpopped, fun x hbefore y hy => ?_⟩, ?_⟩
      · exact ha x hbefore y (hmem y hy)
      · intro h' hn'
        have hall : ∀ x ∈ before, ∀ y ∈ command.given n, h.priority.compare x y ≠ .gt :=
          fun x hbefore y hy => hrank.ne_gt_of_getLast? hp (fun z hz => hgiven z hz y hy) x hbefore
        obtain ⟨hprio, hkept⟩ := ranksAfter_of_exec hrun hn ha hx hall hn'
        refine ⟨hprio, fun x hx => ?_⟩
        rcases List.mem_append.mp hx with hbefore | hnew
        · exact hkept x hbefore
        · exact hleft h' hn' x hnew

/-- The induction is on the commands that are left, and what was popped before comes along. -/
theorem InTime.run {p : Priority α} (hp : p.Lawful) (hrun : World.run {} commands = some w)
    (hsize : n < w.heaps.size) (ht : w.InTime p n before) {later : List (Command α)}
    {w' : World α} (hlater : w.run later = some w')
    (htimely : w.Timely p n before.getLast? later) :
    w'.InTime p n (before ++ w.dispatched n later) := by
  induction later generalizing w commands before with
  | nil =>
      cases hlater
      rwa [dispatched, List.append_nil]
  | cons command later ih =>
      obtain ⟨s, hx, hrest⟩ := run_cons_eq_some.mp hlater
      simp only [Timely, hx] at htimely
      simp only [dispatched, hx]
      obtain ⟨hgiven, htimely⟩ := htimely
      have hrun' : World.run {} (commands ++ [command]) = some s.world := by
        rw [run_append, hrun]
        exact run_cons_eq_some.mpr ⟨s, hx, rfl⟩
      have hturn := turn_of_exec (fun n h hn => heap_wellFormed hrun hn) hx
      rw [← List.append_assoc]
      refine ih hrun' (Nat.lt_of_lt_of_le hsize hturn.size_le)
        (ht.step hp hrun hsize hgiven hx) hrest ?_
      rwa [List.getLast?_append]

/-- **Time never runs backwards.** Of a heap under a lawful ranking, however it was reached, what
is popped from some time on is in rank order, if from the first of these pops on no element is
brought to the heap that ranks before the one popped last. Nothing that is left in the heap ranks
before any of what was popped. Nothing is asked of the other requests: elements may be taken out by
handle, value or property, the heap cleared or trimmed, handles reserved and given back, and
requests may fail. -/
theorem dispatched_inRank (hrun : World.run {} commands = some w) {h : Heap α}
    (hn : w.heap? n = some h) (hp : h.priority.Lawful) {later : List (Command α)} {w' : World α}
    (hlater : w.run later = some w') (htimely : w.Timely h.priority n none later) :
    h.priority.InRank (w.dispatched n later) ∧
    ∀ h', w'.heap? n = some h' → ∀ x ∈ w.dispatched n later, ∀ y ∈ h'.values,
      h.priority.compare x y ≠ .gt := by
  have hstart : w.InTime h.priority n [] := by
    refine ⟨.nil, fun g hg => ?_⟩
    cases hn.symm.trans hg
    exact ⟨rfl, nofun⟩
  obtain ⟨hrank, hafter⟩ := hstart.run hp hrun (lt_size_of_heap? hn) hlater htimely
  refine ⟨hrank, fun h' hn' x hx y hy => ?_⟩
  obtain ⟨hprio, hleft⟩ := hafter h' hn'
  exact hprio ▸ hleft x hx y hy

/-- A run to which this applies: between the pops an element is rescheduled and one is cancelled,
a handle is reserved, and a handle that was made up is turned down. -/
theorem dispatched_inRank_of_four : ∃ (w w' : World (Fin 8)) (h : Heap (Fin 8)),
    World.run {} [.create {} .natural, .act 0 (.insert 5), .act 0 (.push 3), .act 0 (.push 1)] =
      some w ∧ w.heap? 0 = some h ∧ h.priority.Lawful ∧
    w.run [.act 0 .pop, .act 0 (.update ⟨⟨2⟩, 0, 0⟩ 2), .act 0 .reserve, .act 0 (.push 4),
      .act 0 (.remove ⟨⟨7⟩, 0, 0⟩), .act 0 .pop, .act 0 (.removeValue 3), .act 0 .pop] = some w' ∧
    w.dispatched 0 [.act 0 .pop, .act 0 (.update ⟨⟨2⟩, 0, 0⟩ 2), .act 0 .reserve, .act 0 (.push 4),
      .act 0 (.remove ⟨⟨7⟩, 0, 0⟩), .act 0 .pop, .act 0 (.removeValue 3), .act 0 .pop] =
        [1, 2, 4] ∧
    h.priority.InRank [1, 2, 4] := by
  have hcheck : ((World.run ({} : World (Fin 8)) [.create {} .natural, .act 0 (.insert 5),
      .act 0 (.push 3), .act 0 (.push 1)]).any fun w => (w.heap? 0).any fun h =>
        (w.run [.act 0 .pop, .act 0 (.update ⟨⟨2⟩, 0, 0⟩ 2), .act 0 .reserve, .act 0 (.push 4),
          .act 0 (.remove ⟨⟨7⟩, 0, 0⟩), .act 0 .pop, .act 0 (.removeValue 3),
          .act 0 .pop]).isSome &&
        decide (w.Timely h.priority 0 none [.act 0 .pop, .act 0 (.update ⟨⟨2⟩, 0, 0⟩ 2),
          .act 0 .reserve, .act 0 (.push 4), .act 0 (.remove ⟨⟨7⟩, 0, 0⟩), .act 0 .pop,
          .act 0 (.removeValue 3), .act 0 .pop]) &&
        w.dispatched 0 [.act 0 .pop, .act 0 (.update ⟨⟨2⟩, 0, 0⟩ 2), .act 0 .reserve,
          .act 0 (.push 4), .act 0 (.remove ⟨⟨7⟩, 0, 0⟩), .act 0 .pop, .act 0 (.removeValue 3),
          .act 0 .pop] = [1, 2, 4] &&
        decide (∀ a b, h.priority.compare a b = compare a b)) = true := by
    decide +kernel
  simp only [Option.any_eq_true, Bool.and_eq_true, decide_eq_true_eq,
    Option.isSome_iff_exists] at hcheck
  obtain ⟨w, hrun, h, hn, ⟨⟨⟨w', hlater⟩, htimely⟩, hpopped⟩, hcmp⟩ := hcheck
  have hp : h.priority.Lawful := by
    rw [Priority.Lawful, show h.priority.compare = compare from
      funext fun a => funext fun b => hcmp a b]
    exact inferInstanceAs (Std.TransOrd (Fin 8))
  obtain ⟨hrank, -⟩ := dispatched_inRank hrun hn hp hlater htimely
  exact ⟨w, w', h, hrun, hn, hp, hlater, hpopped, hpopped ▸ hrank⟩

end World

end TrackedHeap
