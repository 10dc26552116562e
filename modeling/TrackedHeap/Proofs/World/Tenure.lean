import Mathlib.Order.Bounds.Basic
import TrackedHeap.Proofs.Heap.Tenure
import TrackedHeap.Proofs.World.Validation

/-!
# TrackedHeap.Proofs.World.Tenure

**A registry is renewed when it is idle, and is never larger than it had to be.**

`World.tenure` writes down the states of one heap since its present owner was drawn. A command
continues that list or begins it anew, as `Heap.Tenures` says, and so the list spans the registry
at the end of every run. That a handle of an earlier tenure is foreign for good is a matter of
tokens: its owner was drawn before the present one, and no owner comes back.
-/

namespace TrackedHeap

open HandleEvent

variable {α : Type}

/-- All that can be done with a handle is refused because another heap has issued it, or this heap
at another time. -/
structure Heap.FindsForeign (h : Heap α) (m : Mint) (x : Handle) : Prop where
  get : h.get x = .error (.refused .foreignHandle)
  update : ∀ value, (h.update m x value).answer = .error (.refused .foreignHandle)
  remove : (h.remove m x).answer = .error (.refused .foreignHandle)
  release : (h.release m x).answer = .error (.refused .foreignHandle)
  insertWith : ∀ value, (h.insertWith m x value).answer = .error (.refused .foreignHandle)

theorem Heap.findsForeign_of_owner_ne {h : Heap α} {x : Handle} (ho : x.owner ≠ h.owner)
    (m : Mint) : h.FindsForeign m x := by
  obtain ⟨hget, hupdate, hremove, hrelease, hinsert⟩ :=
    h.answers_of_refused (m := m) (Registry.statusOf_of_owner_ne ho)
  exact ⟨hget, hupdate, hremove, hrelease, hinsert⟩

/-- The states of the heap with number `n` since its owner was drawn, the latest first, once a
command has led to `s`. The list begins anew with the heap, and where a request to the heap has
drawn a token. -/
def Command.tenure (command : Command α) (w : World α) (s : Step α (Reply α)) (n : Nat)
    (past : List (Heap α)) : List (Heap α) :=
  match w.heap? n, s.world.heap? n with
  | _, none => []
  | none, some h' => [h']
  | some _, some h' =>
      if command.request?.map Prod.fst = some n ∧ s.world.mint ≠ w.mint then [h'] else h' :: past

namespace World

variable [BEq α]

/-- The same once commands are carried out. -/
def tenure (w : World α) (n : Nat) (past : List (Heap α)) : List (Command α) → List (Heap α)
  | [] => past
  | command :: rest =>
      match w.exec command with
      | none => past
      | some s => s.world.tenure n (command.tenure w s n past) rest

theorem tenure_append {w v : World α} {n : Nat} {commands : List (Command α)}
    (hrun : w.run commands = some v) (past : List (Heap α)) (rest : List (Command α)) :
    w.tenure n past (commands ++ rest) = v.tenure n (w.tenure n past commands) rest := by
  induction commands generalizing w past with
  | nil =>
      cases hrun
      rfl
  | cons command commands ih =>
      obtain ⟨s, hx, hrest⟩ := run_cons_eq_some.mp hrun
      simp only [List.cons_append, tenure, hx]
      exact ih hrest _

/-! ### One command -/

omit [BEq α] in
/-- A command that does not ask this heap for anything. -/
theorem request?_ne_of_ne {command : Command α} {n : Nat} (hne : ∀ op, command ≠ .act n op) :
    command.request?.map Prod.fst ≠ some n := by
  cases command with
  | act k op =>
      intro hk
      cases hk
      exact hne op rfl
  | create | collect | consume | drain | openCursor | copyCursor | step | stepToEnd | restart =>
      exact nofun

/-- **One command** keeps the states of a tenure spanning the registry. -/
theorem spans_of_exec {w : World α} (hw : w.WellFormed) {n : Nat} {past : List (Heap α)}
    (hspans : ∀ h, w.heap? n = some h → h.Spans past) {command : Command α}
    {s : Step α (Reply α)} (hx : w.exec command = some s) :
    ∀ h', s.world.heap? n = some h' → h'.Spans (command.tenure w s n past) := by
  intro h' hn'
  have hsound := ((turn_of_exec hw hx).wellFormed hw n h' hn').registry
  unfold Command.tenure
  rcases heap?_of_exec hx hn' with ⟨hn, hne⟩ | ⟨op, h, rfl, hn, rfl, hm, -⟩ |
    ⟨policy, priority, size, h, m, values, hsize, -, hc, rfl, -⟩
  · rw [hn, hn']
    dsimp only
    rw [if_neg fun hask => request?_ne_of_ne hne hask.1]
    exact (hspans h' hn).follows (.refl _) hsound
  · rw [hn, hn']
    dsimp only
    cases (Op.effect (hw n h hn) w.mint op).tenures with
    | continues hf hdraw _ =>
        rw [if_neg fun hask => hask.2 (hm.trans hdraw)]
        exact (hspans h hn).follows hf hsound
    | ends _ _ hr hdraw _ _ =>
        have hdrawn : s.world.mint ≠ w.mint := by
          rw [hm, hdraw]
          exact w.mint.draw_snd_ne
        rw [if_pos ⟨rfl, hdrawn⟩]
        exact Heap.spans_of_new hsound (by rw [hr, Registry.tracked_new])
  · have hnone : w.heap? n = none := by simp [heap?, hsize]
    rw [hnone, hn']
    -- A heap is filled without handles.
    have hu := (Op.effect (Heap.wellFormed_create hc) m (.extend values)).unplaced_extend.1
    refine Heap.spans_of_new hsound ?_
    rw [← Registry.unplaced_tracked]
    refine (congrArg Registry.tracked hu).trans ?_
    rw [Registry.unplaced_tracked, (Heap.create_eq_ok hc).2.1, Registry.tracked_new]

/-- The induction is on the commands that are left; what is past comes along. -/
theorem spans_of_run {w w' : World α} (hw : w.WellFormed) {n : Nat} {past : List (Heap α)}
    (hspans : ∀ h, w.heap? n = some h → h.Spans past) {commands : List (Command α)}
    (hrun : w.run commands = some w') :
    ∀ h, w'.heap? n = some h → h.Spans (w.tenure n past commands) := by
  induction commands generalizing w past with
  | nil =>
      cases hrun
      exact hspans
  | cons command commands ih =>
      obtain ⟨s, hx, hrest⟩ := run_cons_eq_some.mp hrun
      simp only [World.tenure, hx]
      exact ih ((turn_of_exec hw hx).wellFormed hw) (spans_of_exec hw hspans hx) hrest

/-! ### Renewals -/

/-- What a command does to the tenure of a heap that is there. -/
theorem tenures_of_exec {w : World α} (hw : w.WellFormed) {n : Nat} {h h' : Heap α}
    (hn : w.heap? n = some h) {command : Command α} {s : Step α (Reply α)}
    (hx : w.exec command = some s) (hn' : s.world.heap? n = some h') :
    (h' = h ∧ ∀ op, command ≠ .act n op) ∨ ∃ op, command = .act n op ∧
      h.Tenures w.mint (op.tookOut s.answer = true) h' s.world.mint := by
  rcases heap?_of_exec hx hn' with ⟨hsame, hne⟩ | ⟨op, g, rfl, hg, rfl, hm, ha⟩ |
    ⟨-, -, -, -, -, -, hsize, -⟩
  · exact Or.inl ⟨Option.some.inj (hsame.symm.trans hn), hne⟩
  · cases hn.symm.trans hg
    rw [hm, ha]
    exact Or.inr ⟨op, rfl, (Op.effect (hw n h hn) w.mint op).tenures⟩
  · exact absurd (lt_size_of_heap? hn) (by omega)

section Tokens

variable {commands : List (Command α)} {w : World α} {n : Nat}

/-- No owner is the next token, unless the supply has come round. -/
theorem owner_ne_next (hrun : World.run {} commands = some w)
    (hlt : World.minted {} commands + 1 < 0x10000000000000000) {h : Heap α}
    (hn : w.heap? n = some h) : h.owner ≠ w.mint.next := by
  have htraced := Traced.empty.run hrun (by omega)
  simp only [Nat.zero_add, List.nil_append] at htraced
  intro heq
  exact htraced.not_opened_next hlt n (heq ▸ htraced.opened_owner n h hn)

/-- **A handle of an earlier tenure** is not of the owner of this heap at any later time: its owner
was drawn before the renewal, and whatever owner the heap has later was drawn at it or after. -/
theorem owner_ne_of_renewed (hrun : World.run {} commands = some w) {command : Command α}
    {s : Step α (Reply α)} (hx : w.exec command = some s) {h' : Heap α}
    (hn' : s.world.heap? n = some h') (howner : h'.owner = w.mint.next)
    (hm : s.world.mint = w.mint.draw.2) {later : List (Command α)} {w'' : World α}
    (hlater : s.world.run later = some w'')
    (hlt : World.minted {} (commands ++ command :: later) < 0x10000000000000000) {h'' : Heap α}
    (hn'' : w''.heap? n = some h'') {x : Handle}
    (hissued : .issued x ∈ World.chronicle {} n commands) : x.owner ≠ h''.owner := by
  have hone := w.mint.distance_draw
  rw [← hm] at hone
  rw [minted_append hrun, minted, hx] at hlt
  dsimp only at hlt
  rw [hone] at hlt
  have htraced := Traced.empty.run hrun (by omega)
  have hsupplied := (Supplied.empty.run hrun (by omega)).1
  simp only [Nat.zero_add, List.nil_append] at htraced hsupplied
  have hstep := (hsupplied.step hx (by omega)).1
  rw [hone] at hstep
  have hrest := (hstep.run hlater (by omega)).2
  have hold : x.owner.val.toNat ≤ World.minted {} commands :=
    htraced.opened_le n x.owner (htraced.opened_of_issued n x hissued)
  have hnew : World.minted {} commands < h''.owner.val.toNat := by
    rcases hrest n .owner h''.owner (token?_eq_some_iff.mpr ⟨h'', hn'', rfl⟩) with hsame | hlt'
    · obtain ⟨g, hg, hgo⟩ := token?_eq_some_iff.mp hsame
      cases hn'.symm.trans hg
      have hnext : h''.owner = w.mint.next := hgo.symm.trans howner
      rw [hnext, Mint.toNat_next hsupplied.next_eq (by omega)]
      exact Nat.lt_succ_self _
    · omega
  intro heq
  rw [heq] at hold
  omega

/-- **A registry is renewed when it is idle.** Of a heap that a run reaches,

* the number of records is the largest number of handles that were issued at once since the present
  owner was drawn, unless some key has come to the end of its count, and all issued keys are below
  it;
* a command changes the owner exactly if it is a request that has taken elements out, or has
  cleared the heap, and leaves no element and no issued handle, where some handle was issued since
  the present owner was drawn;
* if it does, it draws one token, forgets all records, and has left no handle without an element
  behind; and every handle that the heap has issued before is foreign to it at any later time.

Tokens are words, so what tells two of them apart is asked for only while the supply has not come
round. -/
theorem registry_renewed_idle (hrun : World.run {} commands = some w) {h : Heap α}
    (hn : w.heap? n = some h) :
    (h.registry.Unspent → IsGreatest {k | ∃ g ∈ World.tenure {} n [] commands, g.issued = k}
      h.registry.tracked) ∧
    (∀ key, h.registry.IsIssued key → key < h.registry.tracked) ∧
    ∀ command s h', w.exec command = some s → s.world.heap? n = some h' →
      (World.minted {} (commands ++ [command]) < 0x10000000000000000 →
        (h'.owner ≠ h.owner ↔ ∃ op, command = .act n op ∧ op.tookOut s.answer = true ∧
          h'.slots = #[] ∧ h'.issued = 0 ∧
          ∃ g ∈ World.tenure {} n [] commands, 0 < g.issued)) ∧
      (h'.owner ≠ h.owner →
        h'.owner = w.mint.next ∧ s.world.mint = w.mint.draw.2 ∧
        h'.registry.tracked = 0 ∧ h'.registry.free = [] ∧
        h'.slots = #[] ∧ (∀ x, h.registry.Issues x → some x.key ∈ h.keys) ∧
        ∀ later w'' h'', s.world.run later = some w'' → w''.heap? n = some h'' →
          World.minted {} (commands ++ command :: later) < 0x10000000000000000 →
          ∀ x, .issued x ∈ World.chronicle {} n commands → ∀ m, h''.FindsForeign m x) := by
  have hw : w.WellFormed := fun n h hn => heap_wellFormed hrun hn
  have hempty : ∀ g, ({} : World α).heap? n = some g → g.Spans [] := fun g hg => by
    simp [heap?] at hg
  have hspans := spans_of_run wellFormed_empty hempty hrun h hn
  refine ⟨?_, fun key => Registry.lt_tracked_of_isIssued, ?_⟩
  · intro hunspent
    refine ⟨hspans.exists_peak hunspent, ?_⟩
    rintro k ⟨g, hg, rfl⟩
    exact hspans.issued_le g hg
  · intro command s h' hx hn'
    have hcases := tenures_of_exec hw hn hx hn'
    refine ⟨?_, ?_⟩
    · intro hlt
      constructor
      · intro hne
        rcases hcases with ⟨rfl, -⟩ | ⟨op, hc, ⟨hf, -, -⟩ | ⟨ht, he, hr, -, htracked, -⟩⟩
        · exact absurd rfl hne
        · exact absurd hf.owner_eq hne
        · refine ⟨op, hc, ht, he, ?_, hspans.exists_issued htracked⟩
          rw [Heap.issued, hr]
      · intro hidle
        obtain ⟨op, hc, ht, he, h0, g, hg, hpos⟩ := hidle
        have hle := hspans.issued_le g hg
        rcases hcases with ⟨-, hne⟩ | ⟨op', hc', ⟨-, -, hn⟩ | ⟨-, -, hr, hm, -, -⟩⟩
        · exact absurd hc (hne op)
        · cases hc.symm.trans hc'
          exact absurd ⟨ht, he, h0, by omega⟩ hn
        · have hone := w.mint.distance_draw
          rw [← hm] at hone
          rw [minted_append hrun, minted, hx] at hlt
          simp only [minted, hone] at hlt
          have hnext : h'.owner = w.mint.next := by rw [Heap.owner, hr]
          rw [hnext]
          exact (owner_ne_next hrun hlt hn).symm
    · intro hne
      rcases hcases with ⟨rfl, -⟩ | ⟨op, hc, ⟨hf, -, -⟩ | ⟨-, he, hr, hm, -, hkeys⟩⟩
      · exact absurd rfl hne
      · exact absurd hf.owner_eq hne
      · have hnext : h'.owner = w.mint.next := by rw [Heap.owner, hr]
        refine ⟨hnext, hm, by rw [hr, Registry.tracked_new], by rw [hr], he,
          fun x hissued => hkeys x.key hissued.isIssued, ?_⟩
        intro later w'' h'' hlater hn'' hlt x hissued
        exact Heap.findsForeign_of_owner_ne
          (owner_ne_of_renewed hrun hx hn' hnext hm hlater hlt hn'' hissued)

/-- A run to which this applies: two handles were issued at once, one was given back, and taking
out the element of the other one renews the registry. -/
theorem registry_renewed_idle_of_two : ∃ (w : World Nat) (h h' : Heap Nat)
    (s : Step Nat (Reply Nat)),
    World.run {} [.create {} .natural, .act 0 (.insert 5), .act 0 .reserve,
      .act 0 (.release ⟨⟨2⟩, 1, 0⟩)] = some w ∧ w.heap? 0 = some h ∧
    IsGreatest {k | ∃ g ∈ World.tenure {} 0 [] [.create {} .natural, .act 0 (.insert 5),
      .act 0 .reserve, .act 0 (.release ⟨⟨2⟩, 1, 0⟩)], g.issued = k} h.registry.tracked ∧
    w.exec (.act 0 .pop) = some s ∧ s.world.heap? 0 = some h' ∧ h'.owner ≠ h.owner ∧
    h'.registry.tracked = 0 ∧ h'.FindsForeign s.world.mint ⟨⟨2⟩, 1, 0⟩ := by
  have hcheck : ((World.run ({} : World Nat) [.create {} .natural, .act 0 (.insert 5),
      .act 0 .reserve, .act 0 (.release ⟨⟨2⟩, 1, 0⟩)]).any fun w => (w.heap? 0).any fun h =>
      h.registry.records.all (fun record => record.generation < Registry.lastGeneration) &&
      (w.exec (.act 0 .pop)).any fun s => Op.pop.tookOut s.answer &&
        (s.world.heap? 0).any fun h' => h'.slots = #[] && h'.issued = 0) = true := by
    decide +kernel
  have hissued : ((World.tenure ({} : World Nat) 0 [] [.create {} .natural, .act 0 (.insert 5),
      .act 0 .reserve, .act 0 (.release ⟨⟨2⟩, 1, 0⟩)]).any fun g => 0 < g.issued) = true := by
    decide +kernel
  have hfresh : World.minted ({} : World Nat) [.create {} .natural, .act 0 (.insert 5),
      .act 0 .reserve, .act 0 (.release ⟨⟨2⟩, 1, 0⟩), .act 0 .pop] < 0x10000000000000000 ∧
      .issued ⟨⟨2⟩, 1, 0⟩ ∈ World.chronicle ({} : World Nat) 0 [.create {} .natural,
        .act 0 (.insert 5), .act 0 .reserve, .act 0 (.release ⟨⟨2⟩, 1, 0⟩)] := by
    decide +kernel
  simp only [Option.any_eq_true, Bool.and_eq_true, decide_eq_true_eq, Array.all_eq_true'] at hcheck
  obtain ⟨w, hrun, h, hn, hunspent, s, hx, ht, h', hn', he, h0⟩ := hcheck
  simp only [List.any_eq_true, decide_eq_true_eq] at hissued
  obtain ⟨hpeak, -, hstep⟩ := registry_renewed_idle hrun hn
  obtain ⟨hiff, hrenewed⟩ := hstep _ s h' hx hn'
  have hne := (hiff hfresh.1).mpr ⟨.pop, rfl, ht, he, h0, hissued⟩
  obtain ⟨-, -, htracked, -, -, -, hforeign⟩ := hrenewed hne
  exact ⟨w, h, h', s, hrun, hn, hpeak hunspent, hx, hn', hne, htracked,
    hforeign [] s.world h' rfl hn' hfresh.1 _ hfresh.2 _⟩

end Tokens

end World

end TrackedHeap
