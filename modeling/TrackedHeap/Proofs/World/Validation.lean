import TrackedHeap.Proofs.World.Recount

/-!
# TrackedHeap.Proofs.World.Validation

**Handles are judged by their history**: what a heap answers about a handle, from three
fields and the records of the moment, is what the chronicle of the run says of it.

A handle may be live, dead, of another heap or made up; the answers do not depend on how it
was come by. A made-up handle that agrees with an issued one in its three fields is that
one, and one that guesses a generation yet to come is stale until it is issued.
-/

namespace TrackedHeap

open HandleEvent

variable {α β : Type}

/-! ### What the chronicle says -/

/-- An answer about a handle follows from the chronicle of a heap with this owner: it is
granted, or withheld for the one cause a current handle may be refused for, or the handle is
not current and is refused for what it is instead. -/
structure Judged (log : List HandleEvent) (owner : Token) (x : Handle) (granted withheld : Prop)
    (cause : Refusal) (answer : Except Failure β) : Prop where
  ok_iff : (∃ b, answer = .ok b) ↔ granted
  withheld_iff : answer = .error (.refused cause) ↔ withheld
  foreign_iff : answer = .error (.refused .foreignHandle) ↔ ¬ Current log x ∧ x.owner ≠ owner
  malformed_iff : ∀ key, answer = .error (.refused (.malformedHandle key)) ↔
    key = x.key ∧ ¬ Current log x ∧ x.owner = owner ∧ ¬ WasIssued log owner x.key
  stale_iff : answer = .error (.refused .staleHandle) ↔
    ¬ Current log x ∧ x.owner = owner ∧ WasIssued log owner x.key

/-- What a heap answers about a handle follows from its chronicle. -/
structure Heap.Judges (h : Heap α) (m : Mint) (log : List HandleEvent) (x : Handle) :
    Prop where
  get : Judged log h.owner x (Bound log x) (Reserved log x) .unboundHandle (h.get x)
  update : ∀ value, Judged log h.owner x (Bound log x) (Reserved log x) .unboundHandle
    (h.update m x value).answer
  remove : Judged log h.owner x (Bound log x) (Reserved log x) .unboundHandle
    (h.remove m x).answer
  release : Judged log h.owner x (Reserved log x) (Bound log x) .handleInUse
    (h.release m x).answer
  insertWith : ∀ value, Judged log h.owner x (Reserved log x ∧ ¬ h.AtLimit) (Bound log x)
    .handleInUse (h.insertWith m x value).answer
  /-- A reserved handle is of no use to a heap that cannot grow. -/
  insertWith_full_iff : ∀ value, (h.insertWith m x value).answer =
    .error (.fault .capacityOverflow) ↔ Reserved log x ∧ h.AtLimit

namespace Judged

variable {log : List HandleEvent} {owner : Token} {x : Handle} {granted withheld : Prop}
  {cause : Refusal} {answer : Except Failure β}

theorem of_granted (hx : Current log x) (hg : granted) (hw : ¬ withheld)
    (ha : ∃ b, answer = .ok b) : Judged log owner x granted withheld cause answer := by
  obtain ⟨b, rfl⟩ := ha
  exact ⟨by simp [hg], by simp [hw], by simp [hx], by simp [hx], by simp [hx]⟩

theorem of_withheld (hx : Current log x) (hg : ¬ granted) (hw : withheld)
    (hcause : cause = .unboundHandle ∨ cause = .handleInUse)
    (ha : answer = .error (.refused cause)) :
    Judged log owner x granted withheld cause answer := by
  subst ha
  rcases hcause with rfl | rfl <;>
    exact ⟨by simp [hg], by simp [hw], by simp [hx], by simp [hx], by simp [hx]⟩

theorem of_fault (hx : Current log x) (hg : ¬ granted) (hw : ¬ withheld) {fault : Fault}
    (ha : answer = .error (.fault fault)) : Judged log owner x granted withheld cause answer := by
  subst ha
  exact ⟨by simp [hg], by simp [hw], by simp [hx], by simp [hx], by simp [hx]⟩

open Classical in
theorem of_not_current (hx : ¬ Current log x) (hg : ¬ granted) (hw : ¬ withheld)
    (hcause : cause = .unboundHandle ∨ cause = .handleInUse)
    (ha : answer = .error (.refused (if x.owner ≠ owner then .foreignHandle
      else if WasIssued log owner x.key then .staleHandle else .malformedHandle x.key))) :
    Judged log owner x granted withheld cause answer := by
  subst ha
  by_cases ho : x.owner = owner <;> by_cases hk : WasIssued log owner x.key <;>
    rcases hcause with rfl | rfl <;>
    exact ⟨by simp [ho, hk, hg], by simp [ho, hk, hw], by simp [ho, hk, hx],
      by simp [ho, hk, hx, eq_comm], by simp [ho, hk, hx]⟩

end Judged

/-! ### What the heap answers -/

section Answers

variable {h : Heap α} {m : Mint} {x : Handle} {log : List HandleEvent}

/-- A refusal by the registry is the answer to all five questions. -/
theorem Heap.answers_of_refused {cause : Refusal} (hs : h.registry.statusOf x = .error cause) :
    h.get x = .error (.refused cause) ∧
    (∀ value, (h.update m x value).answer = .error (.refused cause)) ∧
    (h.remove m x).answer = .error (.refused cause) ∧
    (h.release m x).answer = .error (.refused cause) ∧
    ∀ value, (h.insertWith m x value).answer = .error (.refused cause) := by
  simp [Heap.get, Heap.update, Heap.remove, Heap.release, Heap.insertWith, Registry.position,
    Registry.unboundKey, hs, Outcome.failed]

/-- The answers about a handle under which an element is stored. -/
theorem Heap.WellFormed.answers_of_bound (hw : h.WellFormed) (hx : h.registry.Issues x)
    (hk : some x.key ∈ h.keys) :
    (∃ value, h.get x = .ok value) ∧
    (∀ value, ∃ old, (h.update m x value).answer = .ok old) ∧
    (∃ value, (h.remove m x).answer = .ok value) ∧
    (h.release m x).answer = .error (.refused .handleInUse) ∧
    ∀ value, (h.insertWith m x value).answer = .error (.refused .handleInUse) := by
  obtain ⟨i, hi, hs, -⟩ := hw.statusOf_of_mem_keys hx hk
  have hp : h.registry.position x = .ok i := by simp [Registry.position, hs]
  have hu : h.registry.unboundKey x = .error .handleInUse := by simp [Registry.unboundKey, hs]
  refine ⟨⟨h.slots[i].value, by simp [Heap.get, hp, hi]⟩, ?_, ?_,
    by simp [Heap.release, hu, Outcome.failed],
    fun value => by simp [Heap.insertWith, hu, Outcome.failed]⟩
  · intro value
    obtain ⟨h', -, hrep⟩ := hw.replaceAt hi m value
    exact ⟨h.slots[i].value, by simp [Heap.update, hp, hrep]⟩
  · obtain ⟨c, hrem, -⟩ := hw.removeAt hi m
    exact ⟨c.answer, by simp [Heap.remove, hp, hrem]⟩

/-- The answers about a handle that is issued and names no element. -/
theorem Heap.WellFormed.answers_of_reserved (hw : h.WellFormed) (hx : h.registry.Issues x)
    (hk : some x.key ∉ h.keys) :
    h.get x = .error (.refused .unboundHandle) ∧
    (∀ value, (h.update m x value).answer = .error (.refused .unboundHandle)) ∧
    (h.remove m x).answer = .error (.refused .unboundHandle) ∧
    (h.release m x).answer = .ok () ∧
    ∀ value, ¬ h.AtLimit ∧ (h.insertWith m x value).answer = .ok () ∨
      h.AtLimit ∧ (h.insertWith m x value).answer = .error (.fault .capacityOverflow) := by
  have hs := hw.statusOf_of_not_mem_keys hx hk
  have hp : h.registry.position x = .error .unboundHandle := by simp [Registry.position, hs]
  have hu : h.registry.unboundKey x = .ok x.key := by simp [Registry.unboundKey, hs]
  refine ⟨by simp [Heap.get, hp], fun value => by simp [Heap.update, hp, Outcome.failed],
    by simp [Heap.remove, hp, Outcome.failed], ?_, ?_⟩
  · obtain ⟨r, hret, -⟩ := hw.registry.retire hx.isIssued
    simp [Heap.release, hu, hret, Outcome.done]
  · intro value
    have hfree : ∀ key, some x.key = some key → h.registry.IsIssued key ∧ some key ∉ h.keys := by
      intro key hkey
      cases hkey
      exact ⟨hx.isIssued, hk⟩
    rcases hw.append ⟨value, some x.key⟩ hfree m with
      ⟨h', events, hstores, happ⟩ | ⟨hl, happ⟩
    · exact Or.inl ⟨hstores.not_atLimit, by simp [Heap.insertWith, hu, happ]⟩
    · exact Or.inr ⟨hl, by simp [Heap.insertWith, hu, happ, Outcome.failed]⟩

/-- **The registry judges as the chronicle does.** -/
theorem Heap.Recounts.judges (hr : h.Recounts log) (hw : h.WellFormed) : h.Judges m log x := by
  classical
  by_cases hx : Current log x
  · have hissued := (hr.current_iff x).mp hx
    by_cases hb : Bound log x
    · have hnr : ¬ Reserved log x := fun h => h.2 hb
      obtain ⟨hget, hupdate, hremove, hrelease, hinsert⟩ :=
        hw.answers_of_bound (m := m) hissued ((hr.bound_iff x).mp hb).2
      exact
        { get := .of_granted hx hb hnr hget
          update := fun value => .of_granted hx hb hnr (hupdate value)
          remove := .of_granted hx hb hnr hremove
          release := .of_withheld hx hnr hb (Or.inr rfl) hrelease
          insertWith := fun value =>
            .of_withheld hx (fun h => hnr h.1) hb (Or.inr rfl) (hinsert value)
          insertWith_full_iff := fun value => by simp [hinsert value, hnr] }
    · have hres : Reserved log x := ⟨hx, hb⟩
      obtain ⟨hget, hupdate, hremove, hrelease, hinsert⟩ :=
        hw.answers_of_reserved (m := m) hissued fun hk => hb ((hr.bound_iff x).mpr ⟨hissued, hk⟩)
      refine
        { get := .of_withheld hx hb hres (Or.inl rfl) hget
          update := fun value => .of_withheld hx hb hres (Or.inl rfl) (hupdate value)
          remove := .of_withheld hx hb hres (Or.inl rfl) hremove
          release := .of_granted hx hres hb ⟨(), hrelease⟩
          insertWith := ?_
          insertWith_full_iff := ?_ }
      · intro value
        rcases hinsert value with ⟨hl, ha⟩ | ⟨hl, ha⟩
        · exact .of_granted hx ⟨hres, hl⟩ hb ⟨(), ha⟩
        · exact .of_fault hx (fun h => h.2 hl) hb ha
      · intro value
        rcases hinsert value with ⟨hl, ha⟩ | ⟨hl, ha⟩
        · simp [ha, hl]
        · simp [ha, hl, hres]
  · have hnb : ¬ Bound log x := fun hb => hx hb.current
    have hnr : ¬ Reserved log x := fun h => hx h.1
    have hs := Registry.statusOf_of_not_issues fun h => hx ((hr.current_iff x).mpr h)
    simp only [← hr.wasIssued_iff] at hs
    obtain ⟨hget, hupdate, hremove, hrelease, hinsert⟩ := Heap.answers_of_refused (m := m) hs
    exact
      { get := .of_not_current hx hnb hnr (Or.inl rfl) hget
        update := fun value => .of_not_current hx hnb hnr (Or.inl rfl) (hupdate value)
        remove := .of_not_current hx hnb hnr (Or.inl rfl) hremove
        release := .of_not_current hx hnr hnb (Or.inr rfl) hrelease
        insertWith := fun value =>
          .of_not_current hx (fun h => hnr h.1) hnb (Or.inr rfl) (hinsert value)
        insertWith_full_iff := fun value => by simp [hinsert value, hnr] }

end Answers

namespace World

variable [BEq α]

/-- **Handles are judged by their history.** After any run of commands over any number of
heaps, in which fewer than `2 ^ 64` tokens were drawn, each heap answers about any handle what
its chronicle says, and to any heap a handle that another one issued is foreign. -/
theorem heap_judges {commands : List (Command α)} {w : World α}
    (hrun : World.run {} commands = some w)
    (hlt : World.minted {} commands < 0x10000000000000000) {n : Nat} {h : Heap α}
    (hn : w.heap? n = some h) (m : Mint) (x : Handle) :
    h.Judges m (World.chronicle {} n commands) x ∧
    ∀ k, k ≠ n → .issued x ∈ World.chronicle {} k commands → x.owner ≠ h.owner := by
  have ht := Traced.empty.run hrun (by simpa using hlt)
  simp only [List.nil_append] at ht
  refine ⟨(ht.recounts n h hn).judges (ht.wellFormed n h hn), fun k hk hx ho => hk ?_⟩
  exact ht.opened_unique k n x.owner (ht.opened_of_issued k x hx) (ho ▸ ht.opened_owner n h hn)

/-- A run to which this applies: the first heap's handle is retired while another of its
handles keeps the registry from being renewed, and the second heap has issued one too. -/
theorem heap_judges_of_two : ∃ (w : World Nat) (h : Heap Nat),
    World.run {} [.create {} .natural, .create {} .natural, .act 0 (.insert 5), .act 0 .reserve,
      .act 1 (.insert 7), .act 0 .pop] = some w ∧
    World.minted ({} : World Nat) [.create {} .natural, .create {} .natural, .act 0 (.insert 5),
      .act 0 .reserve, .act 1 (.insert 7), .act 0 .pop] < 0x10000000000000000 ∧
    w.heap? 0 = some h ∧
    World.chronicle ({} : World Nat) 0 [.create {} .natural, .create {} .natural,
      .act 0 (.insert 5), .act 0 .reserve, .act 1 (.insert 7), .act 0 .pop] =
        [.opened ⟨2⟩, .issued ⟨⟨2⟩, 0, 0⟩, .stored 0, .issued ⟨⟨2⟩, 1, 0⟩, .retired 0] ∧
    h.get ⟨⟨2⟩, 0, 0⟩ = .error (.refused .staleHandle) ∧
    ∀ x, h.Judges w.mint [.opened ⟨2⟩, .issued ⟨⟨2⟩, 0, 0⟩, .stored 0, .issued ⟨⟨2⟩, 1, 0⟩,
      .retired 0] x := by
  obtain ⟨w, h, hrun, hn, hcheck⟩ := exists_of_any_run (α := Nat)
    [.create {} .natural, .create {} .natural, .act 0 (.insert 5), .act 0 .reserve,
      .act 1 (.insert 7), .act 0 .pop] 0
    (fun h => decide (h.get ⟨⟨2⟩, 0, 0⟩ = .error (.refused .staleHandle)))
    (by decide +kernel)
  have hlt : World.minted ({} : World Nat) [.create {} .natural, .create {} .natural,
      .act 0 (.insert 5), .act 0 .reserve, .act 1 (.insert 7), .act 0 .pop] <
        0x10000000000000000 := by decide +kernel
  have hlog : World.chronicle ({} : World Nat) 0 [.create {} .natural, .create {} .natural,
      .act 0 (.insert 5), .act 0 .reserve, .act 1 (.insert 7), .act 0 .pop] =
        [.opened ⟨2⟩, .issued ⟨⟨2⟩, 0, 0⟩, .stored 0, .issued ⟨⟨2⟩, 1, 0⟩, .retired 0] := by
    decide +kernel
  exact ⟨w, h, hrun, hlt, hn, hlog, of_decide_eq_true hcheck,
    fun x => hlog ▸ (heap_judges hrun hlt hn w.mint x).1⟩

end World

end TrackedHeap
