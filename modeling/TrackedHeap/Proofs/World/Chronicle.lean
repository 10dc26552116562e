import TrackedHeap.Proofs.World.Runs

/-!
# TrackedHeap.Proofs.World.Chronicle

**Chronicles**: what happened to the handles of one heap in the course of a run.

A chronicle is read off the requests and their answers. It knows nothing of records,
generations and vacancy: a handle is current if it was issued and its key has not been
retired since, and bound if besides an element was stored under it. That the registry,
which keeps no history, comes to the same verdict is proved elsewhere.
-/

namespace TrackedHeap

variable {α : Type}

/-! ### Reading a chronicle -/

namespace HandleEvent

/-- A handle is current if it was issued and its key has not been retired since. -/
def Current (log : List HandleEvent) (x : Handle) : Prop :=
  ∃ before since, log = before ++ .issued x :: since ∧ .retired x.key ∉ since

/-- A current handle is bound if an element was stored under it since it was issued. -/
def Bound (log : List HandleEvent) (x : Handle) : Prop :=
  ∃ before since, log = before ++ .issued x :: since ∧ .retired x.key ∉ since ∧
    .stored x.key ∈ since

/-- A current handle is reserved if it is not bound. -/
def Reserved (log : List HandleEvent) (x : Handle) : Prop := Current log x ∧ ¬ Bound log x

/-- A key was issued under an owner, whatever has become of it. -/
def WasIssued (log : List HandleEvent) (owner : Token) (key : Nat) : Prop :=
  ∃ x, .issued x ∈ log ∧ x.owner = owner ∧ x.key = key

variable {log : List HandleEvent} {x : Handle}

theorem Bound.current (h : Bound log x) : Current log x := by
  obtain ⟨before, since, heq, hret, -⟩ := h
  exact ⟨before, since, heq, hret⟩

theorem not_current_nil : ¬ Current [] x := by
  intro hx
  obtain ⟨before, since, heq, -⟩ := hx
  cases before <;> cases heq

/-- Where an event stands in a chronicle with one more at the end: there, or earlier. -/
theorem concat_eq_append_cons {before since : List HandleEvent} {e y : HandleEvent}
    (h : log ++ [e] = before ++ y :: since) :
    log = before ∧ e = y ∧ since = [] ∨
      ∃ early, log = before ++ y :: early ∧ since = early ++ [e] := by
  rcases List.eq_nil_or_concat since with rfl | ⟨early, last, rfl⟩
  · obtain ⟨rfl, hlast⟩ := List.append_inj' h rfl
    cases hlast
    exact Or.inl ⟨rfl, rfl, rfl⟩
  · rw [List.concat_eq_append, ← List.cons_append, ← List.append_assoc] at h
    obtain ⟨rfl, hlast⟩ := List.append_inj' h rfl
    cases hlast
    exact Or.inr ⟨early, rfl, List.concat_eq_append⟩

/-- How one more event decides about a handle. -/
theorem current_concat {e : HandleEvent} :
    Current (log ++ [e]) x ↔ Current log x ∧ e ≠ .retired x.key ∨ e = .issued x := by
  constructor
  · intro hx
    obtain ⟨before, since, heq, hret⟩ := hx
    rcases concat_eq_append_cons heq with ⟨rfl, rfl, rfl⟩ | ⟨early, rfl, rfl⟩
    · exact Or.inr rfl
    · simp only [List.mem_append, List.mem_singleton, not_or] at hret
      exact Or.inl ⟨⟨before, early, rfl, hret.1⟩, fun h => hret.2 h.symm⟩
  · intro hx
    rcases hx with ⟨⟨before, since, rfl, hret⟩, hne⟩ | rfl
    · refine ⟨before, since ++ [e], by simp, ?_⟩
      simp [hret, Ne.symm hne]
    · exact ⟨log, [], rfl, List.not_mem_nil⟩

theorem bound_concat {e : HandleEvent} :
    Bound (log ++ [e]) x ↔
      Bound log x ∧ e ≠ .retired x.key ∨ Current log x ∧ e = .stored x.key := by
  constructor
  · intro hx
    obtain ⟨before, since, heq, hret, hstored⟩ := hx
    rcases concat_eq_append_cons heq with ⟨rfl, rfl, rfl⟩ | ⟨early, rfl, rfl⟩
    · exact absurd hstored List.not_mem_nil
    · simp only [List.mem_append, List.mem_singleton, not_or] at hret hstored
      rcases hstored with hstored | rfl
      · exact Or.inl ⟨⟨before, early, rfl, hret.1, hstored⟩, fun h => hret.2 h.symm⟩
      · exact Or.inr ⟨⟨before, early, rfl, hret.1⟩, rfl⟩
  · intro hx
    rcases hx with ⟨⟨before, since, rfl, hret, hstored⟩, hne⟩ | ⟨⟨before, since, rfl, hret⟩, rfl⟩
    · refine ⟨before, since ++ [e], by simp, ?_, by simp [hstored]⟩
      simp [hret, Ne.symm hne]
    · exact ⟨before, since ++ [.stored x.key], by simp, by simp [hret], by simp⟩

/-- Retiring keys ends what was current under them and touches no other handle. -/
theorem current_retired {keys : List Nat} :
    Current (log ++ keys.map .retired) x ↔ Current log x ∧ x.key ∉ keys := by
  induction keys generalizing log with
  | nil => simp
  | cons key keys ih =>
      rw [List.map_cons, ← List.singleton_append, ← List.append_assoc, ih, current_concat]
      simp only [ne_eq, HandleEvent.retired.injEq, reduceCtorEq, or_false, List.mem_cons, not_or,
        eq_comm (a := key), and_assoc]

theorem bound_retired {keys : List Nat} :
    Bound (log ++ keys.map .retired) x ↔ Bound log x ∧ x.key ∉ keys := by
  induction keys generalizing log with
  | nil => simp
  | cons key keys ih =>
      rw [List.map_cons, ← List.singleton_append, ← List.append_assoc, ih, bound_concat]
      simp only [ne_eq, HandleEvent.retired.injEq, reduceCtorEq, and_false, or_false,
        List.mem_cons, not_or, eq_comm (a := key), and_assoc]

/-- Only issuing a handle makes a key issued. -/
theorem wasIssued_append {es : List HandleEvent} {owner : Token} {key : Nat} :
    WasIssued (log ++ es) owner key ↔ WasIssued log owner key ∨ WasIssued es owner key := by
  simp only [WasIssued, List.mem_append, or_and_right, exists_or]

/-- A registry has been opened if its owner is another one than before. -/
def opening (before : Option Token) (after : Token) : List HandleEvent :=
  if before = some after then [] else [.opened after]

@[simp] theorem opening_self (owner : Token) : opening (some owner) owner = [] := by
  simp [opening]

end HandleEvent

/-! ### Writing a chronicle -/

/-- What a command that led to `s` means to the handles of the heap with number `n`. A heap
that is not there afterwards has no handles any more. -/
def Command.handleEvents [BEq α] (command : Command α) (w : World α) (s : Step α (Reply α))
    (n : Nat) : List HandleEvent :=
  match s.world.heap? n with
  | none => []
  | some h' =>
      (match command.request?, w.heap? n with
        | some (k, op), some h => if k = n then op.handleEvents h s.answer else []
        | _, _ => []) ++
      HandleEvent.opening ((w.heap? n).map Heap.owner) h'.owner

namespace Command

variable [BEq α] {command : Command α} {w : World α} {s : Step α (Reply α)} {n : Nat}

/-- Nothing happens to the handles of a heap that is left alone. -/
theorem handleEvents_of_unasked (hreq : ∀ op, command.request? ≠ some (n, op))
    (hheap : ∀ h', s.world.heap? n = some h' → w.heap? n = some h') :
    command.handleEvents w s n = [] := by
  unfold handleEvents
  split
  · rfl
  · next h' hn' =>
      rw [hheap h' hn']
      split
      · next k op h hc hn =>
          have hne : k ≠ n := fun hk => hreq op (hk ▸ hc)
          cases hn
          simp [hne]
      · simp

theorem handleEvents_of_asked {op : Op α} {h h' : Heap α} (hc : command.request? = some (n, op))
    (hn : w.heap? n = some h) (hn' : s.world.heap? n = some h') :
    command.handleEvents w s n =
      op.handleEvents h s.answer ++ HandleEvent.opening (some h.owner) h'.owner := by
  simp [handleEvents, hc, hn, hn']

theorem handleEvents_of_made {h' : Heap α} (hc : command.request? = none)
    (hn : w.heap? n = none) (hn' : s.world.heap? n = some h') :
    command.handleEvents w s n = [.opened h'.owner] := by
  simp [handleEvents, hc, hn, hn', HandleEvent.opening]

end Command

namespace World

/-- **What a command means to the handles of one heap**: nothing, and if the heap is still there
it is as it was; or the heap made moves and perhaps renewed its registry; or it was made. -/
theorem Turn.handleEvents_cases [BEq α] {w : World α} {command : Command α}
    {s : Step α (Reply α)} (ht : w.Turn command s) (hw : w.WellFormed) (n : Nat) :
    (command.handleEvents w s n = [] ∧ ∀ h', s.world.heap? n = some h' → w.heap? n = some h') ∨
      (∃ h es h₁ h', w.heap? n = some h ∧ s.world.heap? n = some h' ∧ h.Moves es h₁ ∧
        h₁.MayRenew w.mint h' s.world.mint ∧
        command.handleEvents w s n = es ++ HandleEvent.opening (some h.owner) h'.owner) ∨
      ∃ policy priority size h h', n = w.heaps.size ∧ s.world.heap? n = some h' ∧
        Heap.create policy priority size w.mint = .ok (h, s.world.mint) ∧ h.Moves [] h' ∧
        command.handleEvents w s n = [.opened h'.owner] := by
  cases ht with
  | rested hc hh =>
      have hheap : ∀ h', s.world.heap? n = some h' → w.heap? n = some h' :=
        fun h' hn' => heap?_congr hh n ▸ hn'
      exact Or.inl ⟨Command.handleEvents_of_unasked (by simp [hc]) hheap, hheap⟩
  | dropped hc hh =>
      have hheap : ∀ h', s.world.heap? n = some h' → w.heap? n = some h' :=
        fun h' hn' => heap?_of_drop hh hn'
      exact Or.inl ⟨Command.handleEvents_of_unasked (by simp [hc]) hheap, hheap⟩
  | @acted k op h o hc hk he hh hm ha =>
      have hheap := heap?_of_set hh (lt_size_of_heap? hk) n
      by_cases hnk : n = k
      · subst hnk
        rw [if_pos rfl] at hheap
        obtain ⟨h₁, hms, hren⟩ := he.moves (hw n h hk)
        rw [← hm] at hren
        rw [← ha] at hms
        exact Or.inr (Or.inl ⟨h, _, h₁, o.heap, hk, hheap, hms, hren,
          Command.handleEvents_of_asked hc hk hheap⟩)
      · rw [if_neg hnk] at hheap
        have hsame : ∀ h', s.world.heap? n = some h' → w.heap? n = some h' :=
          fun h' hn' => hheap ▸ hn'
        exact Or.inl ⟨Command.handleEvents_of_unasked (by simp [hc, Ne.symm hnk]) hsame, hsame⟩
  | @made policy priority size h h' hc hmade hms hh =>
      have hheap := heap?_of_push hh n
      by_cases hn : n = w.heaps.size
      · rw [if_pos hn] at hheap
        have hfree : w.heap? n = none := by simp [heap?, hn]
        exact Or.inr (Or.inr ⟨policy, priority, size, h, h', hn, hheap, hmade, hms,
          Command.handleEvents_of_made hc hfree hheap⟩)
      · rw [if_neg hn] at hheap
        have hsame : ∀ h', s.world.heap? n = some h' → w.heap? n = some h' :=
          fun h' hn' => hheap ▸ hn'
        exact Or.inl ⟨Command.handleEvents_of_unasked (by simp [hc]) hsame, hsame⟩

/-- What happens to the handles of the heap with number `n` while commands are carried out. -/
def chronicle [BEq α] (w : World α) (n : Nat) : List (Command α) → List HandleEvent
  | [] => []
  | command :: rest =>
      match w.exec command with
      | none => []
      | some s => command.handleEvents w s n ++ s.world.chronicle n rest

/-- How many tokens are drawn while commands are carried out. One command draws two at most,
so the distance the supply moves is their number. -/
def minted [BEq α] (w : World α) : List (Command α) → Nat
  | [] => 0
  | command :: rest =>
      match w.exec command with
      | none => 0
      | some s => (s.world.mint.next.val - w.mint.next.val).toNat + s.world.minted rest

end World

end TrackedHeap
