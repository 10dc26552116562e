import TrackedHeap.Proofs.Heap.Copying
import TrackedHeap.Proofs.World.Consistency
import TrackedHeap.Proofs.World.Issuance
import TrackedHeap.Proofs.World.Walks

/-!
# TrackedHeap.Proofs.World.Failures

**Failures leave nothing half done.** What is declined has changed nothing, in no component of
any heap, cursor or mint. What is cut off for want of room has changed nothing either, but for
two requests that consist of several: `insert` has issued its handle before it asks for room, and
`extend` has added the elements before the one that found none.
-/

namespace TrackedHeap

open HandleEvent

variable {α : Type}

/-! ### Requests that were declined -/

/-- An answer that says that nothing was done: the request was declined, nothing was found to be
taken out, or every key is issued. -/
def Declined : Except Failure (Reply α) → Prop
  | .error (.refused _) | .error (.fault .keysExhausted) | .ok (.found none) | .ok (.flag false) =>
      True
  | _ => False

/-- A step of a cursor that was declined, or found the end, has not moved it. -/
theorem Cursor.Shows.eq_of_declined {c d : Cursor} {h : Heap α} {answer : Except Failure (Reply α)}
    (hs : c.Shows h answer d) (hd : Declined answer) : d = c := by
  have hnone : Walk.shownBy answer = [] := by
    unfold Declined at hd
    split at hd
    · rfl
    · rfl
    · rfl
    · rfl
    · exact hd.elim
  rw [hs.1, hnone]
  rfl

namespace Op.Effect

variable [BEq α] {h : Heap α} {m : Mint} {o : Outcome α (Reply α)}

/-- Adding elements is never declined. -/
theorem not_declined_extend {values : List α} (he : (Op.extend values).Effect h m o) :
    ¬ Declined o.answer := by
  induction values generalizing h o with
  | nil =>
      cases he
      exact not_false
  | cons value rest ih =>
      cases he with
      | extendMore hs ho => exact fun hd => ih ho hd
      | extendFull hl => exact not_false

/-- What is declined leaves the heap and the mint as they were, and tells nothing. -/
theorem eq_of_declined {op : Op α} (he : op.Effect h m o) (hd : Declined o.answer) :
    o = ⟨h, m, [], o.answer⟩ := by
  cases he with
  | extendMore hs ho => exact (not_declined_extend ho hd).elim
  | pushFull | extendFull | insertFull | insertWithFull => exact hd.elim
  | extended | pushed | reserved | inserted | released | insertedWith | popped | removed
  | removedFirst | removedValue | updated | cleared | trimmed | untrimmed => exact hd.elim
  | exhausted | insertExhausted | releaseRefused | insertWithRefused | popEmpty | removeRefused
  | noneFirst | noValue | updateRefused => rfl

/-! ### Requests that found no room -/

theorem eq_of_push_full {value : α} (he : (Op.push value).Effect h m o)
    (ha : o.answer = .error (.fault .capacityOverflow)) :
    o = .failed h m (.fault .capacityOverflow) := by
  cases he with
  | pushed hs => cases ha
  | pushFull hl => rfl

/-- The handle was judged before there turned out to be no room for the element. -/
theorem eq_of_insertWith_full {x : Handle} {value : α} (he : (Op.insertWith x value).Effect h m o)
    (ha : o.answer = .error (.fault .capacityOverflow)) :
    o = .failed h m (.fault .capacityOverflow) ∧ h.registry.unboundKey x = .ok x.key := by
  cases he with
  | insertedWith hu hs => cases ha
  | insertWithFull hu hl => exact ⟨rfl, hu⟩
  | insertWithRefused hu => cases ha

end Op.Effect

namespace Heap

/-- `h'` is `h` with the handle `x` issued, and no element under it yet. -/
structure Reserves (h : Heap α) (x : Handle) (h' : Heap α) : Prop where
  eq_with : h' = { h with registry := h'.registry }
  grants : h.registry.Grants x h'.registry
  issued_eq : h'.issued = h.issued + 1
  wellFormed : h'.WellFormed

/-- Both heaps judge a handle alike, and read the same under it. -/
def AnswersAlike (h h' : Heap α) (y : Handle) : Prop :=
  h'.registry.statusOf y = h.registry.statusOf y ∧ h'.get y = h.get y

namespace Reserves

variable {h h' : Heap α} {x : Handle}

theorem statusOf_eq (hr : h.Reserves x h') : h'.registry.statusOf x = .ok .reserved := by
  have hg := hr.grants
  simp [Registry.statusOf, hg.handle_owner, hg.owner_eq, hg.record_eq]

/-- A handle that was issued is not the new one. -/
theorem ne_of_issues (hr : h.Reserves x h') {y : Handle} (hy : h.registry.Issues y) : y ≠ x := by
  intro heq
  exact hr.grants.not_isIssued (heq ▸ hy.isIssued)

/-- Nothing changes for another handle, if it is one of another owner or its key is known. -/
theorem answersAlike (hr : h.Reserves x h') {y : Handle} (hne : y ≠ x)
    (hy : y.owner = h.owner → h.registry.records[y.key]?.isSome = true) : h.AnswersAlike h' y := by
  have hg := hr.grants
  have hstatus : h'.registry.statusOf y = h.registry.statusOf y := by
    by_cases ho : y.owner = h.registry.owner
    · by_cases hk : y.key = x.key
      · -- The key was vacant, so both registries find the handle stale.
        have hgen : x.generation ≠ y.generation := by
          intro heq
          refine hne ?_
          rcases x with ⟨owner, key, generation⟩
          rcases y with ⟨owner', key', generation'⟩
          cases hk
          cases heq
          cases ho.trans hg.handle_owner.symm
          rfl
        have hbefore : h.registry.records[x.key]? = some ⟨x.generation, .vacant⟩ := by
          rcases hg.before with hb | ⟨hb, -⟩
          · exact hb
          · have hsome := hy ho
            rw [hk, hb] at hsome
            cases hsome
        simp [Registry.statusOf, ho, hg.owner_eq, hk, hg.record_eq, hbefore, hgen]
      · simp [Registry.statusOf, ho, hg.owner_eq, hg.records_ne y.key hk]
    · rw [Registry.statusOf_of_owner_ne ho, Registry.statusOf_of_owner_ne (hg.owner_eq ▸ ho)]
  have hslots : h'.slots = h.slots := by rw [hr.eq_with]
  exact ⟨hstatus, by simp only [Heap.get, Registry.position, hstatus, hslots]⟩

end Reserves

end Heap

/-- An insertion that found no room has issued a handle. -/
theorem Op.Effect.exists_reserves [BEq α] {h : Heap α} {m : Mint} {o : Outcome α (Reply α)}
    {value : α} (hw : h.WellFormed) (he : (Op.insert value).Effect h m o)
    (ha : o.answer = .error (.fault .capacityOverflow)) :
    ∃ x, h.Reserves x o.heap ∧ o.mint = m ∧ o.events = [] := by
  cases he with
  | inserted hres hr hg hs => cases ha
  | @insertFull _ _ _ x r hres hr hg hl =>
      have hissued := (Registry.reserve_eq_ok hres).2.2
      exact ⟨x, ⟨rfl, hg, hissued, hw.of_grants hr hg⟩, rfl, rfl⟩
  | insertExhausted he => cases ha

namespace Heap

variable {β : Type} (h : Heap α)

/-- A handle that is issued and names no element is not declined. -/
theorem insertWith_ne_refused {m : Mint} {x : Handle} {value : α} {key : Nat} {cause : Refusal}
    (hu : h.registry.unboundKey x = .ok key) :
    ((h.insertWith m x value).map fun _ => Reply.done (α := α)).answer ≠
      .error (.refused cause) := by
  intro ha
  simp only [insertWith, hu] at ha
  cases happend : h.append m ⟨value, some key⟩ <;> rw [happend] at ha <;> cases ha

theorem target_copyTo_of_error {target : List α} {offset : Nat} {cause : Refusal}
    (ha : (h.copyTo target offset).answer = .error cause) :
    (h.copyTo target offset).target = target := (h.copyTo_of target offset).unchanged cause ha

/-- Also when the conversion fails only after some elements were converted. -/
theorem target_copyConverted_of_error {convert : α → Option β} {target : List β} {offset : Nat}
    {cause : Refusal} (ha : (h.copyConverted convert target offset).answer = .error cause) :
    (h.copyConverted convert target offset).target = target :=
  (h.copyConverted_of convert target offset).unchanged cause ha

end Heap

/-! ### In a world -/

/-- Putting back what is there changes nothing. -/
theorem setIfInBounds_of_getElem? {β : Type} {xs : Array β} {i : Nat} {x : β}
    (hx : xs[i]? = some x) : xs.setIfInBounds i x = xs := by
  refine Array.ext_getElem? fun j => ?_
  rw [Array.getElem?_setIfInBounds]
  split
  · next hij =>
      subst hij
      rw [if_pos (Array.getElem?_eq_some_iff.mp hx).1, hx]
  · rfl

namespace World

variable {w : World α} {n : Nat} {h : Heap α}

theorem setHeap_self (hn : w.heap? n = some h) : w.setHeap n (some h) = w := by
  rw [setHeap, setIfInBounds_of_getElem? (heap?_eq_some_iff.mp hn)]

theorem setHeap_setHeap (w : World α) (n : Nat) (x y : Option (Heap α)) :
    (w.setHeap n x).setHeap n y = w.setHeap n y := by
  simp only [setHeap, Array.setIfInBounds_setIfInBounds]

theorem setCursor_self {j : Nat} {c : Cursor} (hc : w.cursors[j]? = some c) :
    w.setCursor j c = w := by
  rw [setCursor, setIfInBounds_of_getElem? hc]

variable [BEq α]

/-- A request that left the heap and the mint as they were has left the world so. -/
theorem exec_act_of_eq {op : Op α} (hn : w.heap? n = some h) {answer : Except Failure (Reply α)}
    (ho : op.run h w.mint = ⟨h, w.mint, [], answer⟩) {s : Step α (Reply α)}
    (hx : w.exec (.act n op) = some s) : s.world = w ∧ s.events = [] := by
  obtain ⟨h', hn', rfl⟩ := exec_act_eq_some.mp hx
  cases hn.symm.trans hn'
  rw [ho]
  exact ⟨setHeap_self hn, rfl⟩

omit [BEq α] in
theorem not_declined_create (w : World α) (policy : StoragePolicy) (priority : Priority α)
    (size : SlotSize) :
    ¬ Declined (w.create policy priority size).answer := by
  unfold World.create
  split
  · exact not_false
  · next fault hc =>
      rw [Heap.create_eq_error hc]
      exact not_false

theorem not_declined_collect (w : World α) (priority : Priority α) (promised : Nat)
    (values : List α) (size : SlotSize) :
    ¬ Declined (w.collect priority promised values size).answer := by
  unfold World.collect
  dsimp only
  split
  · next h m hc =>
      split
      · exact not_false
      · next failure hans =>
          have hextend := Op.effect (Heap.wellFormed_create hc) m (.extend values)
          have hnot := hextend.not_declined_extend
          simp only [Op.run, Outcome.map, hans, Except.map] at hnot
          exact hnot
  · next fault hc =>
      rw [Heap.create_eq_error hc]
      exact not_false

/-- **What is declined changes nothing**, in no heap, cursor or mint, and tells nothing. -/
theorem eq_of_declined (hw : w.WellFormed) {command : Command α} {s : Step α (Reply α)}
    (hx : w.exec command = some s) (hd : Declined s.answer) : s.world = w ∧ s.events = [] := by
  cases command with
  | create policy priority size =>
      cases hx
      exact absurd hd (not_declined_create w policy priority size)
  | collect priority promised values size =>
      cases hx
      exact absurd hd (not_declined_collect w priority promised values size)
  | act n op =>
      obtain ⟨h, hn, rfl⟩ := exec_act_eq_some.mp hx
      exact exec_act_of_eq hn ((Op.effect (hw n h hn) w.mint op).eq_of_declined hd) hx
  | consume n =>
      obtain ⟨h, hn, hs⟩ := Option.bind_eq_some_iff.mp hx
      cases hs
      exact hd.elim
  | drain n =>
      obtain ⟨h, hn, hs⟩ := Option.bind_eq_some_iff.mp hx
      cases hs
      obtain ⟨values, hans, -⟩ := (hw n h hn).drain_values w.mint
      rw [hans] at hd
      exact hd.elim
  | openCursor n =>
      obtain ⟨h, hn, rfl⟩ := exec_openCursor_eq_some.mp hx
      exact hd.elim
  | copyCursor j =>
      obtain ⟨c, hj, rfl⟩ := exec_copyCursor_eq_some.mp hx
      exact hd.elim
  | step j n =>
      obtain ⟨c, h, hj, hn, rfl⟩ := exec_step_eq_some.mp hx
      have hsame := (c.shows_next h).eq_of_declined hd
      exact ⟨by rw [hsame, setCursor_self hj], rfl⟩
  | stepToEnd j n =>
      obtain ⟨c, h, hj, hn, rfl⟩ := exec_stepToEnd_eq_some.mp hx
      have hsame := (c.shows_rest h).eq_of_declined hd
      exact ⟨by rw [hsame, setCursor_self hj], rfl⟩
  | restart j n =>
      obtain ⟨c, h, hj, hn, rfl⟩ := exec_restart_eq_some.mp hx
      exact hd.elim

/-- A row of elements that was cut off: the elements before the one that found no room have been
added one by one, and the world is as they left it. -/
theorem exists_pushes_of_extend (hn : w.heap? n = some h) (hw : h.WellFormed) {values : List α}
    {failure : Failure} (ha : (h.extend w.mint values).answer = .error failure) :
    ∃ done value rest, values = done ++ value :: rest ∧
      w.run (done.map fun v => .act n (.push v)) =
        some { w.setHeap n (some (h.extend w.mint values).heap) with
          mint := (h.extend w.mint values).mint } ∧
      w.answers (done.map fun v => .act n (.push v)) = done.map (fun _ => .ok .done) ∧
      (h.extend w.mint values).heap.AtLimit := by
  -- The induction is on the row; the world is the one that the elements before have led to.
  induction values generalizing w h with
  | nil => cases ha
  | cons value rest ih =>
      rcases hw.push_cases w.mint value with ⟨h', events, hs, hpush⟩ | ⟨hl, hpush⟩
      · have hx : w.exec (.act n (.push value)) =
            some ⟨w.setHeap n (some h'), events, .ok .done⟩ := by
          refine exec_act_eq_some.mpr ⟨h, hn, ?_⟩
          rw [Op.run, hpush]
          rfl
        have hn' : (w.setHeap n (some h')).heap? n = some h' := by
          rw [heap?_of_set rfl (lt_size_of_heap? hn), if_pos rfl]
        have hextend : h.extend w.mint (value :: rest) =
            { h'.extend w.mint rest with
              events := events ++ (h'.extend w.mint rest).events } := by
          simp only [Heap.extend, hpush, Outcome.andThen]
        rw [hextend] at ha ⊢
        obtain ⟨done, value', rest', rfl, hrun, hans, hl⟩ := ih hn' (hs.wellFormed hw) ha
        refine ⟨value :: done, value', rest', rfl, ?_, ?_, hl⟩
        · rw [setHeap_setHeap] at hrun
          exact run_cons_eq_some.mpr ⟨_, hx, hrun⟩
        · simp only [List.map_cons, answers, hx, hans]
      · refine ⟨[], value, rest, rfl, ?_, rfl, ?_⟩
        · simp only [Heap.extend, hpush, Outcome.failed, Outcome.andThen, setHeap_self hn]
          rfl
        · simpa only [Heap.extend, hpush, Outcome.failed, Outcome.andThen] using hl

/-- The same of the command. The element behind those that were added would be refused again. -/
theorem exists_pushes_of_full (hw : w.WellFormed) {values : List α} {s : Step α (Reply α)}
    (hx : w.exec (.act n (.extend values)) = some s)
    (ha : s.answer = .error (.fault .capacityOverflow)) :
    ∃ done value rest s', values = done ++ value :: rest ∧
      w.run (done.map fun v => .act n (.push v)) = some s.world ∧
      w.answers (done.map fun v => .act n (.push v)) = done.map (fun _ => .ok .done) ∧
      s.world.exec (.act n (.push value)) = some s' ∧
      s'.answer = .error (.fault .capacityOverflow) := by
  have hwell := (turn_of_exec hw hx).wellFormed hw
  obtain ⟨h, hn, rfl⟩ := exec_act_eq_some.mp hx
  have hfail : (h.extend w.mint values).answer = .error (.fault .capacityOverflow) := by
    simp only [Op.run, Outcome.map] at ha
    cases hans : (h.extend w.mint values).answer with
    | ok _ => simp [hans, Except.map] at ha
    | error failure => simpa [hans, Except.map] using ha
  obtain ⟨done, value, rest, hvalues, hpushes, hans, hl⟩ :=
    exists_pushes_of_extend hn (hw n h hn) hfail
  obtain ⟨s, hx', -, -, hn'⟩ := exists_exec_act hn (.extend values)
  cases hx'.symm.trans hx
  obtain ⟨s', hlast, hans', -⟩ := exists_exec_act hn' (.push value)
  refine ⟨done, value, rest, s', hvalues, hpushes, hans, hlast, ?_⟩
  rcases (hwell n _ hn').push_cases _ value with ⟨h', events, hs, -⟩ | ⟨-, hpush⟩
  · exact absurd hl hs.not_atLimit
  · rw [hans', Op.run, hpush]
    rfl

/-- An insertion that found no room changes nothing for a handle that was issued before on any
heap, be it current or dead. -/
theorem answersAlike_of_mem_issues {commands : List (Command α)}
    (hrun : World.run {} commands = some w)
    (hlt : World.minted {} commands < 0x10000000000000000) (hn : w.heap? n = some h) {h' : Heap α}
    {x y : Handle} (hr : h.Reserves x h') (hy : y ∈ World.issues {} commands) :
    y ≠ x ∧ h.AnswersAlike h' y := by
  have htraced := Traced.empty.run hrun (by simpa using hlt)
  have hdated := Traced.empty.dated_run Dated.empty hrun (by simpa using hlt)
  simp only [List.nil_append] at htraced hdated
  obtain ⟨k, hk⟩ := exists_mem_chronicle_of_mem_issues hy
  -- An owner belongs to one heap, so the chronicle that tells of `y` is the one of this heap.
  have hheap : y.owner = h.owner → k = n := fun ho =>
    htraced.opened_unique k n y.owner (htraced.opened_of_issued k y hk)
      (ho ▸ htraced.opened_owner n h hn)
  have hne : y ≠ x := by
    intro heq
    cases hheap (heq ▸ hr.grants.handle_owner)
    exact (hdated.heap n h hn).notMem_of_grants hr.grants (heq ▸ hk)
  refine ⟨hne, hr.answersAlike hne fun ho => ?_⟩
  cases hheap ho
  exact ((htraced.recounts n h hn).wasIssued_iff y.key).mp ⟨y, hk, ho, rfl⟩

/-- **Failures are contained.** In a world that a run reaches:

* a command that is declined leaves the world as it was and tells nothing, and a copy that is
  declined leaves its target as it was;
* so does a `push` or an `insertWith` that finds no room, and the handle of the latter is still
  reserved, so that it is not declined when it is tried again;
* an `insert` that finds no room has issued a handle and has changed nothing else: handles that
  are current are judged as before, and while fewer than `2 ^ 64` tokens have been drawn, so are
  those that any heap issued before, dead ones included;
* an `extend` that finds no room has added the elements before the one that found none, as if
  they had been pushed one by one. -/
theorem failures_contained {commands : List (Command α)} (hrun : World.run {} commands = some w) :
    (∀ command s, w.exec command = some s → Declined s.answer → s.world = w ∧ s.events = []) ∧
    (∀ n h, w.heap? n = some h →
      (∀ target offset cause, (h.copyTo target offset).answer = .error cause →
        (h.copyTo target offset).target = target) ∧
      ∀ (β : Type) (convert : α → Option β) target offset cause,
        (h.copyConverted convert target offset).answer = .error cause →
          (h.copyConverted convert target offset).target = target) ∧
    (∀ n value s, w.exec (.act n (.push value)) = some s →
      s.answer = .error (.fault .capacityOverflow) → s.world = w ∧ s.events = []) ∧
    (∀ n x value s, w.exec (.act n (.insertWith x value)) = some s →
      s.answer = .error (.fault .capacityOverflow) → s.world = w ∧ s.events = [] ∧
        (∃ h, s.world.heap? n = some h ∧ h.registry.statusOf x = .ok .reserved) ∧
        ∀ value' s', s.world.exec (.act n (.insertWith x value')) = some s' →
          ∀ cause, s'.answer ≠ .error (.refused cause)) ∧
    (∀ n value s, w.exec (.act n (.insert value)) = some s →
      s.answer = .error (.fault .capacityOverflow) → ∃ h h' x, w.heap? n = some h ∧
        s.world = w.setHeap n (some h') ∧ s.events = [] ∧ h.Reserves x h' ∧
        h'.registry.statusOf x = .ok .reserved ∧ h'.Agrees ∧
        ∀ y, h.registry.Issues y ∨
          World.minted {} commands < 0x10000000000000000 ∧ y ∈ World.issues {} commands →
            y ≠ x ∧ h.AnswersAlike h' y) ∧
    ∀ n values s, w.exec (.act n (.extend values)) = some s →
      s.answer = .error (.fault .capacityOverflow) → ∃ done value rest s',
        values = done ++ value :: rest ∧
        w.run (done.map fun v => .act n (.push v)) = some s.world ∧
        w.answers (done.map fun v => .act n (.push v)) = done.map (fun _ => .ok .done) ∧
        s.world.exec (.act n (.push value)) = some s' ∧
        s'.answer = .error (.fault .capacityOverflow) := by
  have hw : w.WellFormed := fun n h hn => heap_wellFormed hrun hn
  refine ⟨fun command s => eq_of_declined hw, ?_, ?_, ?_, ?_, ?_⟩
  · intro n h _
    exact ⟨fun target offset cause => h.target_copyTo_of_error,
      fun β convert target offset cause => h.target_copyConverted_of_error⟩
  · intro n value s hx ha
    obtain ⟨h, hn, rfl⟩ := exec_act_eq_some.mp hx
    exact exec_act_of_eq hn ((Op.effect (hw n h hn) w.mint _).eq_of_push_full ha) hx
  · intro n x value s hx ha
    obtain ⟨h, hn, rfl⟩ := exec_act_eq_some.mp hx
    obtain ⟨ho, hu⟩ := (Op.effect (hw n h hn) w.mint _).eq_of_insertWith_full ha
    obtain ⟨hworld, hevents⟩ := exec_act_of_eq hn ho hx
    obtain ⟨hissued, hfree, -⟩ := (hw n h hn).unboundKey_eq_ok_iff.mp hu
    rw [hworld]
    refine ⟨rfl, hevents, ⟨h, hn, (hw n h hn).statusOf_of_not_mem_keys hissued hfree⟩, ?_⟩
    intro value' s' hx' cause
    obtain ⟨h', hn', rfl⟩ := exec_act_eq_some.mp hx'
    cases hn.symm.trans hn'
    exact h.insertWith_ne_refused hu
  · intro n value s hx ha
    obtain ⟨h, hn, rfl⟩ := exec_act_eq_some.mp hx
    obtain ⟨x, hr, hm, hevents⟩ := (Op.effect (hw n h hn) w.mint _).exists_reserves (hw n h hn) ha
    refine ⟨h, _, x, hn, ?_, hevents, hr, hr.statusOf_eq, hr.wellFormed.agrees, ?_⟩
    · rw [hm]
      rfl
    · intro y hy
      rcases hy with hy | ⟨hlt, hy⟩
      · obtain ⟨record, hrec, -⟩ := hy.isIssued
        exact ⟨hr.ne_of_issues hy, hr.answersAlike (hr.ne_of_issues hy) fun _ => by simp [hrec]⟩
      · exact answersAlike_of_mem_issues hrun hlt hn hr hy
  · intro n values s hx ha
    exact exists_pushes_of_full hw hx ha

/-- A run to which this applies. The first heap is full and cannot grow, and its one handle is
reserved; the second heap has room for two elements. -/
theorem failures_contained_of_two : ∃ (w : World Nat) (s₁ s₂ s₃ s₄ : Step Nat (Reply Nat)),
    World.run {} [.create { floor := 1, minGrowth := SlotSize.maxLimit } .natural,
      .create { floor := 2, minGrowth := SlotSize.maxLimit } .natural,
      .act 0 (.push 5), .act 0 .reserve] = some w ∧
    (w.exec (.act 0 (.remove ⟨⟨2⟩, 0, 0⟩)) = some s₁ ∧
      s₁.answer = .error (.refused .unboundHandle) ∧ s₁.world = w) ∧
    (w.exec (.act 0 (.insertWith ⟨⟨2⟩, 0, 0⟩ 6)) = some s₂ ∧
      s₂.answer = .error (.fault .capacityOverflow) ∧ s₂.world = w) ∧
    (w.exec (.act 0 (.insert 7)) = some s₃ ∧ s₃.answer = .error (.fault .capacityOverflow) ∧
      ∃ h h' x, w.heap? 0 = some h ∧ s₃.world = w.setHeap 0 (some h') ∧ h.Reserves x h' ∧
        h.AnswersAlike h' ⟨⟨2⟩, 0, 0⟩) ∧
    w.exec (.act 1 (.extend [6, 7, 8])) = some s₄ ∧
      s₄.answer = .error (.fault .capacityOverflow) ∧
      ∃ done value rest, [6, 7, 8] = done ++ value :: rest ∧
        w.run (done.map fun v => .act 1 (.push v)) = some s₄.world := by
  have hcheck : (World.run ({} : World Nat)
      [.create { floor := 1, minGrowth := SlotSize.maxLimit } .natural,
        .create { floor := 2, minGrowth := SlotSize.maxLimit } .natural,
        .act 0 (.push 5), .act 0 .reserve]).any (fun w =>
      (w.exec (.act 0 (.remove ⟨⟨2⟩, 0, 0⟩))).any (fun s =>
        s.answer = .error (.refused .unboundHandle)) &&
      (w.exec (.act 0 (.insertWith ⟨⟨2⟩, 0, 0⟩ 6))).any (fun s =>
        s.answer = .error (.fault .capacityOverflow)) &&
      (w.exec (.act 0 (.insert 7))).any (fun s =>
        s.answer = .error (.fault .capacityOverflow)) &&
      (w.exec (.act 1 (.extend [6, 7, 8]))).any (fun s =>
        s.answer = .error (.fault .capacityOverflow))) = true := by decide +kernel
  have hissues : World.minted ({} : World Nat)
      [.create { floor := 1, minGrowth := SlotSize.maxLimit } .natural,
        .create { floor := 2, minGrowth := SlotSize.maxLimit } .natural,
        .act 0 (.push 5), .act 0 .reserve] < 0x10000000000000000 ∧
      ⟨⟨2⟩, 0, 0⟩ ∈ World.issues ({} : World Nat)
        [.create { floor := 1, minGrowth := SlotSize.maxLimit } .natural,
          .create { floor := 2, minGrowth := SlotSize.maxLimit } .natural,
          .act 0 (.push 5), .act 0 .reserve] := by decide +kernel
  obtain ⟨w, hrun, hw⟩ := (Option.any_eq_true ..).mp hcheck
  simp only [Bool.and_eq_true, Option.any_eq_true, decide_eq_true_eq] at hw
  obtain ⟨⟨⟨⟨s₁, hx₁, ha₁⟩, ⟨s₂, hx₂, ha₂⟩⟩, ⟨s₃, hx₃, ha₃⟩⟩, ⟨s₄, hx₄, ha₄⟩⟩ := hw
  obtain ⟨hdeclined, -, -, hinsertWith, hinsert, hextend⟩ := failures_contained hrun
  have hsame₁ := (hdeclined _ s₁ hx₁ (ha₁ ▸ trivial)).1
  have hsame₂ := (hinsertWith 0 _ 6 s₂ hx₂ ha₂).1
  obtain ⟨h, h', x, hn, hworld, -, hr, -, -, halike⟩ := hinsert 0 7 s₃ hx₃ ha₃
  obtain ⟨done, value, rest, -, hvalues, hpushes, -⟩ := hextend 1 _ s₄ hx₄ ha₄
  exact ⟨w, s₁, s₂, s₃, s₄, hrun, ⟨hx₁, ha₁, hsame₁⟩, ⟨hx₂, ha₂, hsame₂⟩,
    ⟨hx₃, ha₃, h, h', x, hn, hworld, hr, (halike _ (Or.inr hissues)).2⟩, hx₄, ha₄,
    done, value, rest, hvalues, hpushes⟩

end World

end TrackedHeap
