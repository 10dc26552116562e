import TrackedHeap.Proofs.World.Tokens

/-!
# TrackedHeap.Proofs.World.Recount

**The registry recounts the chronicle**: the handles it calls issued are the current ones,
those of its keys that slots hold are the bound ones, and the keys it has records of are
those issued under its present owner.

The first two are kept by every move, for each move does to the records what its label says
of the history. The third needs an owner that no handle carries yet when the registry is
renewed. That comes from the supply of tokens: `Traced` numbers the owners a run has seen,
up to the number of tokens drawn, and as long as the supply has not come round the next
token is a new one.
-/

namespace TrackedHeap

open HandleEvent

variable {α : Type}

namespace Heap

/-! ### One move -/

/-- What the registry says of handles and keys is what the chronicle says. -/
structure Recounts (h : Heap α) (log : List HandleEvent) : Prop where
  current_iff : ∀ x, Current log x ↔ h.registry.Issues x
  bound_iff : ∀ x, Bound log x ↔ h.registry.Issues x ∧ some x.key ∈ h.keys
  wasIssued_iff : ∀ key, WasIssued log h.owner key ↔ h.registry.records[key]?.isSome = true

variable {h h' : Heap α} {log : List HandleEvent}

/-- A heap that gave up some keys, or none, and is otherwise the same to handles. -/
theorem Recounts.retire (hr : h.Recounts log) (keys : List Nat) (ho : h'.owner = h.owner)
    (hissues : ∀ x, h'.registry.Issues x ↔ h.registry.Issues x ∧ x.key ∉ keys)
    (hkeys : ∀ key, key ∉ keys → (some key ∈ h'.keys ↔ some key ∈ h.keys))
    (hrec : ∀ key : Nat, h'.registry.records[key]?.isSome = h.registry.records[key]?.isSome) :
    h'.Recounts (log ++ keys.map .retired) := by
  refine ⟨?_, ?_, ?_⟩
  · intro x
    rw [current_retired, hr.current_iff, hissues]
  · intro x
    rw [bound_retired, hr.bound_iff, hissues]
    by_cases hk : x.key ∈ keys
    · simp [hk]
    · simp [hk, hkeys x.key hk]
  · intro key
    rw [wasIssued_append, ho, hr.wasIssued_iff, hrec]
    simp [WasIssued]

/-- A heap that is the same to handles. -/
theorem Recounts.congr (hr : h.Recounts log) (hu : h'.registry.unplaced = h.registry.unplaced)
    (hkeys : ∀ key, some key ∈ h'.keys ↔ some key ∈ h.keys) : h'.Recounts log := by
  have hretire : h'.Recounts (log ++ [].map .retired) := hr.retire [] (Registry.owner_congr hu)
    (fun x => by simp [Registry.issues_congr hu]) (fun key _ => hkeys key)
    (Registry.isSome_records_congr hu)
  simpa using hretire

/-- Opening a registry says nothing of any handle. -/
theorem Recounts.opening (hr : h.Recounts log) (before : Option Token) (after : Token) :
    h.Recounts (log ++ opening before after) := by
  unfold HandleEvent.opening
  split
  · simpa using hr
  · refine ⟨?_, ?_, ?_⟩
    · intro x
      simp [current_concat, hr.current_iff]
    · intro x
      simp [bound_concat, hr.bound_iff]
    · intro key
      rw [wasIssued_append, ← hr.wasIssued_iff]
      simp [WasIssued]

/-- Dropping elements retires their keys. -/
theorem Drops.recounts {dropped : List (Slot α)} (hd : h.Drops dropped h') (hr : h.Recounts log) :
    h'.Recounts (log ++ (dropped.map (·.key)).reduceOption.map .retired) := by
  refine hr.retire _ hd.owner_eq ?_ ?_ hd.isSome_records
  · intro x
    rw [hd.issues_iff, List.reduceOption_mem_iff]
  · intro key hk
    rw [List.reduceOption_mem_iff] at hk
    rw [hd.mem_keys, or_iff_right hk]

/-- Storing an element under a reserved key binds it. -/
theorem Stores.recounts {slot : Slot α} {events : List Event} (hs : h.Stores slot events h')
    (hr : h.Recounts log) : h'.Recounts (log ++ slot.key.toList.map .stored) := by
  cases hk : slot.key with
  | none => simpa using hr.congr hs.unplaced_eq fun key => by simp [hs.mem_keys, hk]
  | some key =>
      refine ⟨?_, ?_, ?_⟩
      · intro x
        simp [current_concat, hr.current_iff, Registry.issues_congr hs.unplaced_eq]
      · intro x
        simp only [Option.toList_some, List.map_cons, List.map_nil, bound_concat, hr.bound_iff,
          hr.current_iff, Registry.issues_congr hs.unplaced_eq, hs.mem_keys, hk]
        simp only [ne_eq, reduceCtorEq, not_false_eq_true, and_true, HandleEvent.stored.injEq,
          Option.some.injEq, ← and_or_left, or_comm]
      · intro k
        rw [wasIssued_append, hs.owner_eq, hr.wasIssued_iff,
          Registry.isSome_records_congr hs.unplaced_eq]
        simp [WasIssued]

/-- **One move**: what it does to the registry is what its label says. -/
theorem Move.recounts {e : List HandleEvent} (hm : h.Move e h') (hw : h.WellFormed)
    (hr : h.Recounts log) : h'.Recounts (log ++ e) := by
  cases hm with
  | @issue x r hsound hg =>
      have hnot : some x.key ∉ h.keys := fun hk => hg.not_isIssued (hw.isIssued_of_mem_keys hk)
      refine ⟨?_, ?_, ?_⟩
      · intro y
        rw [current_concat, hr.current_iff, hg.issues_iff]
        simp [eq_comm, or_comm]
      · intro y
        rw [bound_concat, hr.bound_iff, hg.issues_iff]
        constructor
        · intro hcase
          rcases hcase with ⟨⟨hy, hk⟩, -⟩ | ⟨-, hs⟩
          · exact ⟨Or.inr hy, hk⟩
          · cases hs
        · intro hcase
          rcases hcase with ⟨rfl | hy, hk⟩
          · exact absurd hk hnot
          · exact Or.inl ⟨⟨hy, hk⟩, by simp⟩
      · intro key
        have howner : WasIssued [.issued x] h.owner key ↔ key = x.key := by
          simp [WasIssued, hg.handle_owner, Heap.owner, eq_comm]
        show WasIssued _ r.owner key ↔ _
        rw [hg.isSome_records, ← hr.wasIssued_iff, ← howner, or_comm, ← wasIssued_append,
          hg.owner_eq]
        rfl
  | @withdraw x r hsound hx hk hwith =>
      refine hr.retire [x.key] hwith.owner_eq ?_ (fun _ _ => Iff.rfl)
        hwith.isSome_records
      intro y
      simp [hwith.issues_iff]
  | store hs => exact hs.recounts hr
  | replace hrep => simpa using hr.congr hrep.unplaced_eq (Replaces.mem_keys hrep)
  | @takeOut i hi _ hd hs =>
      have hrec := hd.recounts hr
      rcases hkey : h.slots[i].key with _ | key <;> simpa [hkey] using hrec
  | clear hd => exact hd.recounts hr
  | resize capacity =>
      have hrec : Recounts { h with capacity := capacity } log := hr.congr rfl fun _ => Iff.rfl
      simpa using hrec

/-- A new heap has no handles yet. -/
theorem recounts_of_new (hreg : h.registry = { owner := h.owner }) : h.Recounts [] := by
  refine ⟨fun x => iff_of_false not_current_nil ?_, ?_, ?_⟩
  · rw [hreg]
    simp [Registry.Issues]
  · intro x
    refine iff_of_false (fun hb => not_current_nil hb.current) ?_
    rw [hreg]
    simp [Registry.Issues]
  · intro key
    rw [hreg]
    simp [WasIssued]

theorem Moves.recounts {es : List HandleEvent} (hms : h.Moves es h') (hw : h.WellFormed)
    (hr : h.Recounts log) : h'.Recounts (log ++ es) := by
  induction hms generalizing log with
  | none => simpa using hr
  | next first rest ih =>
      rw [← List.append_assoc]
      exact ih (first.wellFormed hw) (first.recounts hw hr)

/-- **Renewing** the registry of an idle heap, under an owner no handle was issued under. -/
theorem MayRenew.recounts {m m' : Mint} (hren : h.MayRenew m h' m') (hw : h.WellFormed)
    (hr : h.Recounts log) (hfresh : m' = m.draw.2 → ∀ key, ¬ WasIssued log m.next key) :
    h'.Recounts (log ++ opening (some h.owner) h'.owner) := by
  cases hren with
  | kept => simpa using hr
  | renewed he ht h0 =>
      have hnone : ∀ x, ¬ Current log x := fun x hx =>
        hw.registry.not_isIssued h0 x.key ((hr.current_iff x).mp hx).isIssued
      have hrec : Recounts { h with registry := { owner := m.next } } log := by
        refine ⟨?_, ?_, ?_⟩
        · intro x
          simp [hnone x, Registry.Issues]
        · intro x
          refine iff_of_false (fun hb => hnone x hb.current) ?_
          intro hx
          simp [Registry.Issues] at hx
        · intro key
          exact iff_of_false (hfresh rfl key) (by simp)
      exact hrec.opening _ _

/-- If renewing opens a registry, it does so under the next token. -/
theorem MayRenew.of_mem_opening {m m' : Mint} (hren : h.MayRenew m h' m') {o : Token}
    (ho : .opened o ∈ opening (some h.owner) h'.owner) : o = m.next ∧ m' = m.draw.2 := by
  cases hren with
  | kept => simp at ho
  | renewed he ht h0 =>
      unfold HandleEvent.opening at ho
      split at ho
      · cases ho
      · simp only [List.mem_singleton, HandleEvent.opened.injEq] at ho
        exact ⟨ho, rfl⟩

end Heap

/-! ### One command -/

namespace Heap

/-- No move opens a registry, and handles are issued under the owner there is. -/
theorem Move.of_mem {h h' : Heap α} {e : List HandleEvent} (hm : h.Move e h') :
    (∀ o, .opened o ∉ e) ∧ ∀ x, .issued x ∈ e → x.owner = h.owner := by
  cases hm with
  | issue hr hg =>
      simp only [List.mem_singleton, reduceCtorEq, not_false_eq_true, implies_true, true_and,
        HandleEvent.issued.injEq, forall_eq]
      exact hg.handle_owner
  | withdraw | store | replace | takeOut | clear | resize => simp

theorem Moves.of_mem {h h' : Heap α} {es : List HandleEvent} (hms : h.Moves es h') :
    (∀ o, .opened o ∉ es) ∧ ∀ x, .issued x ∈ es → x.owner = h.owner := by
  induction hms with
  | none => simp
  | next first rest ih =>
      obtain ⟨hopen, hissued⟩ := first.of_mem
      obtain ⟨hopen', hissued'⟩ := ih
      rw [first.owner_eq] at hissued'
      simp only [List.mem_append, not_or]
      exact ⟨fun o => ⟨hopen o, hopen' o⟩, fun x hx => hx.elim (hissued x) (hissued' x)⟩

end Heap

namespace World

/-- The chronicles of all heaps, and the tokens drawn, fit a world. -/
structure Traced (w : World α) (log : Nat → List HandleEvent) (drawn : Nat) : Prop where
  wellFormed : w.WellFormed
  next_eq : w.mint.next.val = UInt64.ofNat (drawn + 1)
  recounts : ∀ n h, w.heap? n = some h → h.Recounts (log n)
  /-- The owners seen so far are tokens drawn so far. -/
  opened_le : ∀ n o, .opened o ∈ log n → o.val.toNat ≤ drawn
  /-- No two heaps have had one owner. -/
  opened_unique : ∀ n k o, .opened o ∈ log n → .opened o ∈ log k → n = k
  opened_of_issued : ∀ n x, .issued x ∈ log n → .opened x.owner ∈ log n
  opened_owner : ∀ n h, w.heap? n = some h → .opened h.owner ∈ log n
  /-- The numbers not given yet have no chronicle. -/
  unused : ∀ n, w.heaps.size ≤ n → log n = []

namespace Traced

variable {w w' : World α} {log log' : Nat → List HandleEvent} {drawn drawn' : Nat}

theorem empty : ({} : World α).Traced (fun _ => []) 0 :=
  ⟨wellFormed_empty, rfl, by simp [heap?], by simp, by simp, by simp, by simp [heap?], by simp⟩

/-- A command that changed no heap, though it may have dropped one. -/
theorem of_rest (ht : w.Traced log drawn) (hw : w'.WellFormed)
    (hnext : w'.mint.next.val = UInt64.ofNat (drawn' + 1)) (hle : drawn ≤ drawn')
    (hheap : ∀ k h, w'.heap? k = some h → w.heap? k = some h)
    (hsize : w'.heaps.size = w.heaps.size) : w'.Traced log drawn' where
  wellFormed := hw
  next_eq := hnext
  recounts n h hn := ht.recounts n h (hheap n h hn)
  opened_le n o ho := Nat.le_trans (ht.opened_le n o ho) hle
  opened_unique := ht.opened_unique
  opened_of_issued := ht.opened_of_issued
  opened_owner n h hn := ht.opened_owner n h (hheap n h hn)
  unused n hn := ht.unused n (hsize ▸ hn)

/-- A command that changed one heap, or made it. -/
theorem of_change (ht : w.Traced log drawn) {n : Nat} {h' : Heap α} (es : List HandleEvent)
    (hw : w'.WellFormed) (hnext : w'.mint.next.val = UInt64.ofNat (drawn' + 1))
    (hle : drawn ≤ drawn') (hsize : ∀ k, w'.heaps.size ≤ k → w.heaps.size ≤ k ∧ k ≠ n)
    (hlog : ∀ k, log' k = if k = n then log n ++ es else log k)
    (hheap : ∀ k, w'.heap? k = if k = n then some h' else w.heap? k)
    (hopened : ∀ o, .opened o ∈ es → drawn < o.val.toNat ∧ o.val.toNat ≤ drawn')
    (hissued : ∀ x, .issued x ∈ es → .opened x.owner ∈ log n ++ es)
    (howner : .opened h'.owner ∈ log n ++ es) (hrec : h'.Recounts (log n ++ es)) :
    w'.Traced log' drawn' where
  wellFormed := hw
  next_eq := hnext
  recounts k h hk := by
    rw [hheap] at hk
    rw [hlog]
    split at hk
    · cases hk
      rwa [if_pos ‹_›]
    · rw [if_neg ‹_›]
      exact ht.recounts k h hk
  opened_le k o ho := by
    rw [hlog] at ho
    split at ho
    · rcases List.mem_append.mp ho with ho | ho
      · exact Nat.le_trans (ht.opened_le n o ho) hle
      · exact (hopened o ho).2
    · exact Nat.le_trans (ht.opened_le k o ho) hle
  opened_unique a b o ha hb := by
    -- An owner opened now has a greater number than all before.
    have hnew : ∀ k, .opened o ∈ log k → .opened o ∉ es := fun k hk ho =>
      absurd (hopened o ho).1 (Nat.not_lt.mpr (ht.opened_le k o hk))
    rw [hlog] at ha hb
    split at ha <;> split at hb
    · exact ‹a = n›.trans ‹b = n›.symm
    · rcases List.mem_append.mp ha with ha | ha
      · exact ‹a = n›.trans (ht.opened_unique n b o ha hb)
      · exact absurd ha (hnew b hb)
    · rcases List.mem_append.mp hb with hb | hb
      · exact (ht.opened_unique a n o ha hb).trans ‹b = n›.symm
      · exact absurd hb (hnew a ha)
    · exact ht.opened_unique a b o ha hb
  opened_of_issued k x hx := by
    rw [hlog] at hx ⊢
    split at hx
    · rw [if_pos ‹_›]
      rcases List.mem_append.mp hx with hx | hx
      · exact List.mem_append_left _ (ht.opened_of_issued n x hx)
      · exact hissued x hx
    · rw [if_neg ‹_›]
      exact ht.opened_of_issued k x hx
  opened_owner k h hk := by
    rw [hheap] at hk
    rw [hlog]
    split at hk
    · cases hk
      rwa [if_pos ‹_›]
    · rw [if_neg ‹_›]
      exact ht.opened_owner k h hk
  unused k hk := by
    obtain ⟨hsz, hne⟩ := hsize k hk
    rw [hlog, if_neg hne]
    exact ht.unused k hsz

/-- The next token is none of those seen, unless the supply has come round. -/
theorem not_opened_next (ht : w.Traced log drawn) (hlt : drawn + 1 < 0x10000000000000000)
    (n : Nat) : .opened w.mint.next ∉ log n := by
  intro ho
  have hle := ht.opened_le n _ ho
  rw [ht.next_eq, UInt64.toNat_ofNat_of_lt' hlt] at hle
  omega

/-- A heap made its moves, and perhaps renewed its registry. -/
theorem of_moves (ht : w.Traced log drawn) (hw : w'.WellFormed) {n : Nat} {h h₁ h' : Heap α}
    {es : List HandleEvent} (hn : w.heap? n = some h) (hms : h.Moves es h₁)
    (hren : h₁.MayRenew w.mint h' w'.mint)
    (hh : w'.heaps = w.heaps.setIfInBounds n (some h'))
    (hlog : ∀ k, log' k =
      if k = n then log n ++ (es ++ opening (some h.owner) h'.owner) else log k)
    (hlt : drawn + (w'.mint.next.val - w.mint.next.val).toNat < 0x10000000000000000) :
    w'.Traced log' (drawn + (w'.mint.next.val - w.mint.next.val).toNat) := by
  obtain ⟨hopen, hissued⟩ := hms.of_mem
  have hwf := ht.wellFormed n h hn
  have hsize : w'.heaps.size = w.heaps.size := by simp [hh]
  have howned : ∀ x, .issued x ∈ log n ++ es → .opened x.owner ∈ log n := fun x hx =>
    (List.mem_append.mp hx).elim (ht.opened_of_issued n x)
      fun hx => hissued x hx ▸ ht.opened_owner n h hn
  -- Drawing one token moves the supply by one, so the next token is a new one.
  have hnew : w'.mint = w.mint.draw.2 → drawn + 1 < 0x10000000000000000 ∧
      (w'.mint.next.val - w.mint.next.val).toNat = 1 := fun hm => by
    have hone : (w'.mint.next.val - w.mint.next.val).toNat = 1 := hm ▸ w.mint.distance_draw
    exact ⟨hone ▸ hlt, hone⟩
  have hrec : h'.Recounts (log n ++ (es ++ opening (some h.owner) h'.owner)) := by
    rw [← List.append_assoc, ← hms.owner_eq]
    refine hren.recounts (hms.wellFormed hwf) (hms.recounts hwf (ht.recounts n h hn)) ?_
    intro hm key hwas
    obtain ⟨x, hx, ho, -⟩ := hwas
    exact ht.not_opened_next (hnew hm).1 n (ho ▸ howned x hx)
  refine ht.of_change _ hw (Mint.next_eq_ofNat_add _ ht.next_eq) (Nat.le_add_right ..) ?_ hlog
    (heap?_of_set hh (lt_size_of_heap? hn)) ?_ ?_ ?_ hrec
  · intro k hk
    have hlt' := lt_size_of_heap? hn
    omega
  · intro o ho
    rw [← hms.owner_eq] at ho
    obtain ⟨rfl, hm⟩ := hren.of_mem_opening ((List.mem_append.mp ho).resolve_left (hopen o))
    obtain ⟨hlt', hone⟩ := hnew hm
    rw [hone, ht.next_eq, UInt64.toNat_ofNat_of_lt' hlt']
    omega
  · intro x hx
    rcases List.mem_append.mp hx with hx | hx
    · exact List.mem_append_left _ (howned x (List.mem_append_right _ hx))
    · simp [HandleEvent.opening] at hx
  · by_cases ho : some h.owner = some h'.owner
    · exact List.mem_append_left _ (Option.some.inj ho ▸ ht.opened_owner n h hn)
    · simp [HandleEvent.opening, ho]

/-- A heap was made, and filled without handles. -/
theorem of_made (ht : w.Traced log drawn) (hw : w'.WellFormed) {policy : StoragePolicy}
    {priority : Priority α} {size : SlotSize} {h h' : Heap α}
    (hmade : Heap.create policy priority size w.mint = .ok (h, w'.mint)) (hms : h.Moves [] h')
    (hh : w'.heaps = w.heaps.push (some h'))
    (hlog : ∀ k, log' k = if k = w.heaps.size then log k ++ [.opened h'.owner] else log k)
    (hlt : drawn + (w'.mint.next.val - w.mint.next.val).toNat < 0x10000000000000000) :
    w'.Traced log' (drawn + (w'.mint.next.val - w.mint.next.val).toNat) := by
  obtain ⟨-, hreg, -, hm⟩ := Heap.create_eq_ok hmade
  have htwo : (w'.mint.next.val - w.mint.next.val).toNat = 2 := hm ▸ w.mint.distance_draw_draw
  have howner : h'.owner = w.mint.next.succ := by
    rw [hms.owner_eq, Heap.owner, hreg]
  have hnumber : h'.owner.val.toNat = drawn + 2 := by
    rw [htwo] at hlt
    rw [howner, Token.succ, ht.next_eq, ← UInt64.ofNat_one, ← UInt64.ofNat_add,
      UInt64.toNat_ofNat_of_lt' hlt]
  have hnil := ht.unused w.heaps.size (Nat.le_refl _)
  have hrec : h'.Recounts ([] ++ [.opened h'.owner]) := by
    have hnew : h.Recounts [] := Heap.recounts_of_new (by rw [Heap.owner, hreg])
    have hall := (hms.recounts (Heap.wellFormed_create hmade) hnew).opening none h'.owner
    simpa [HandleEvent.opening] using hall
  refine ht.of_change (n := w.heaps.size) [.opened h'.owner] hw
    (Mint.next_eq_ofNat_add _ ht.next_eq) (Nat.le_add_right ..) ?_ ?_ (heap?_of_push hh) ?_
    (by simp) (by simp) (hnil ▸ hrec)
  · intro k hk
    simp only [hh, Array.size_push] at hk
    omega
  · intro k
    rw [hlog]
    split
    · next hk => rw [hk]
    · rfl
  · intro o ho
    simp only [List.mem_singleton, HandleEvent.opened.injEq] at ho
    subst ho
    omega

/-- **One command** keeps the chronicles fitting, if the supply does not come round. -/
theorem step [BEq α] (ht : w.Traced log drawn) {command : Command α} {s : Step α (Reply α)}
    (hx : w.exec command = some s)
    (hlt : drawn + (s.world.mint.next.val - w.mint.next.val).toNat < 0x10000000000000000) :
    s.world.Traced (fun n => log n ++ command.handleEvents w s n)
      (drawn + (s.world.mint.next.val - w.mint.next.val).toNat) := by
  have hturn := turn_of_exec ht.wellFormed hx
  have hw := hturn.wellFormed ht.wellFormed
  have hnext := Mint.next_eq_ofNat_add s.world.mint ht.next_eq
  cases hturn with
  | rested hc hh =>
      have hnone : ∀ n, command.handleEvents w s n = [] := fun n =>
        Command.handleEvents_of_unasked (by simp [hc]) fun h' hn' => heap?_congr hh n ▸ hn'
      simp only [hnone, List.append_nil]
      exact ht.of_rest hw hnext (Nat.le_add_right ..) (fun k h hk => heap?_congr hh k ▸ hk)
        (by rw [hh])
  | dropped hc hh =>
      have hnone : ∀ n, command.handleEvents w s n = [] := fun n =>
        Command.handleEvents_of_unasked (by simp [hc]) fun h' hn' => heap?_of_drop hh hn'
      simp only [hnone, List.append_nil]
      exact ht.of_rest hw hnext (Nat.le_add_right ..) (fun k h hk => heap?_of_drop hh hk)
        (by simp [hh])
  | @acted n op h o hc hn he hh hm ha =>
      have hheap := heap?_of_set hh (lt_size_of_heap? hn)
      obtain ⟨h₁, hms, hren⟩ := he.moves (ht.wellFormed n h hn)
      rw [← hm] at hren
      rw [← ha] at hms
      refine ht.of_moves hw hn hms hren hh ?_ hlt
      intro k
      by_cases hk : k = n
      · subst hk
        rw [if_pos rfl, Command.handleEvents_of_asked hc hn (by rw [hheap, if_pos rfl])]
      · rw [if_neg hk, Command.handleEvents_of_unasked, List.append_nil]
        · simp [hc, Ne.symm hk]
        · intro h' hk'
          rwa [hheap, if_neg hk] at hk'
  | @made policy priority size h h' hc hmade hms hh =>
      have hheap := heap?_of_push hh
      have hfree : w.heap? w.heaps.size = none := by simp [heap?]
      refine ht.of_made hw hmade hms hh ?_ hlt
      intro k
      by_cases hk : k = w.heaps.size
      · subst hk
        rw [if_pos rfl, Command.handleEvents_of_made hc hfree (by rw [hheap, if_pos rfl])]
      · rw [if_neg hk, Command.handleEvents_of_unasked (by simp [hc]), List.append_nil]
        intro h' hk'
        rwa [hheap, if_neg hk] at hk'

/-- **A whole run** keeps the chronicles fitting, if the supply does not come round. -/
theorem run [BEq α] {commands : List (Command α)} (ht : w.Traced log drawn)
    (hrun : w.run commands = some w') (hlt : drawn + w.minted commands < 0x10000000000000000) :
    w'.Traced (fun n => log n ++ w.chronicle n commands) (drawn + w.minted commands) := by
  induction commands generalizing w log drawn with
  | nil =>
      cases hrun
      simpa [chronicle, minted] using ht
  | cons command commands ih =>
      obtain ⟨s, hx, hrest⟩ := run_cons_eq_some.mp hrun
      simp only [minted, chronicle, hx, ← Nat.add_assoc, ← List.append_assoc] at hlt ⊢
      exact ih (ht.step hx (Nat.lt_of_le_of_lt (Nat.le_add_right ..) hlt)) hrest hlt

end Traced

end World

end TrackedHeap
