import TrackedHeap.Proofs.Bag.Runs
import TrackedHeap.Proofs.World.Recount

/-!
# TrackedHeap.Proofs.World.Issuance

**Handles are issued once**, and each tells how often its key had been retired before.

Keys and their counts start from zero whenever a registry is opened, so what is proved of the
counts of a registry concerns the part of the chronicle since it was opened (`Counts`). Within
that part the count of a key grows between two of its handles; handles from before carry
another owner.

A key whose count is at its end would be issued twice under one count. It is not, for it never
waits again: what the counts tell is asked of issued and of waiting keys only.
-/

namespace TrackedHeap

open HandleEvent

variable {α : Type}

/-! ### Numbered chronicles -/

namespace HandleEvent

/-- The handle that an event issues. -/
def handle? : HandleEvent → Option Handle
  | .issued x => some x
  | .opened _ | .stored _ | .retired _ => none

/-- The handles issued in a chronicle, in order. -/
def handles (log : List HandleEvent) : List Handle := log.filterMap handle?

/-- The handles of a chronicle are all different, and the count of each is the number of times
its key had been retired since the owner that it carries came in. -/
structure Numbered (log : List HandleEvent) : Prop where
  nodup : (handles log).Nodup
  generation_eq : ∀ before x since, log = before ++ .issued x :: since →
    ∃ earlier recent, before = earlier ++ .opened x.owner :: recent ∧
      x.generation = recent.count (.retired x.key)

variable {log es : List HandleEvent} {x : Handle}

@[simp] theorem mem_handles : x ∈ handles log ↔ .issued x ∈ log := by
  simp only [handles, List.mem_filterMap]
  constructor
  · intro hx
    obtain ⟨e, he, hex⟩ := hx
    cases e <;> cases hex
    exact he
  · intro hx
    exact ⟨_, hx, rfl⟩

@[simp] theorem handles_append : handles (log ++ es) = handles log ++ handles es :=
  List.filterMap_append

theorem handles_eq_nil (he : ∀ x, .issued x ∉ es) : handles es = [] :=
  List.eq_nil_iff_forall_not_mem.mpr fun x hx => he x (mem_handles.mp hx)

/-- Retiring keys, none of them twice, counts each of them once. -/
theorem count_retired_append (log : List HandleEvent) {keys : List (Option Nat)}
    (hnd : keys.reduceOption.Nodup) (key : Nat) :
    (log ++ keys.reduceOption.map HandleEvent.retired).count (.retired key) =
      log.count (.retired key) + if some key ∈ keys then 1 else 0 := by
  rw [List.count_append, List.count_map_of_injective _ _ (fun a b => HandleEvent.retired.inj),
    hnd.count]
  simp only [List.reduceOption_mem_iff]

/-- Where an event stands in a chronicle that went on with others: it was there before. -/
theorem exists_eq_append_cons_of_notMem {before since : List HandleEvent} {y : HandleEvent}
    (h : log ++ es = before ++ y :: since) (hy : y ∉ es) :
    ∃ early, log = before ++ y :: early := by
  rcases List.append_eq_append_iff.mp h with ⟨rest, rfl, hes⟩ | ⟨rest, rfl, hes⟩
  · exact absurd (hes ▸ List.mem_append_right _ (List.mem_cons_self ..)) hy
  · rcases List.cons_eq_append_iff.mp hes with ⟨rfl, rfl⟩ | ⟨early, rfl, -⟩
    · exact absurd (List.mem_cons_self ..) hy
    · exact ⟨early, rfl⟩

namespace Numbered

theorem nil : Numbered [] := ⟨List.nodup_nil, by simp⟩

/-- Events that issue nothing leave the handles as they are. -/
theorem append (hn : Numbered log) (he : ∀ x, .issued x ∉ es) : Numbered (log ++ es) where
  nodup := by
    rw [handles_append, handles_eq_nil he, List.append_nil]
    exact hn.nodup
  generation_eq before x since heq := by
    obtain ⟨early, hlog⟩ := exists_eq_append_cons_of_notMem heq (he x)
    exact hn.generation_eq before x early hlog

/-- One more handle, with the count that its key has come to under the present owner. -/
theorem issue (hn : Numbered log) {earlier recent : List HandleEvent}
    (hlog : log = earlier ++ .opened x.owner :: recent) (hx : .issued x ∉ log)
    (hg : x.generation = recent.count (.retired x.key)) : Numbered (log ++ [.issued x]) where
  nodup := by
    have hnew : handles [.issued x] = [x] := rfl
    rw [handles_append, hnew, ← List.concat_eq_append, List.nodup_concat]
    exact ⟨fun hmem => hx (mem_handles.mp hmem), hn.nodup⟩
  generation_eq before y since heq := by
    rcases concat_eq_append_cons heq with ⟨rfl, hxy, rfl⟩ | ⟨early, rfl, -⟩
    · cases hxy
      exact ⟨earlier, recent, hlog, hg⟩
    · exact hn.generation_eq before y early rfl

end Numbered

end HandleEvent

/-! ### What the counts of a registry tell -/

namespace Registry

/-- The counts of a registry are the numbers of retirements since it was opened. -/
structure Counts (r : Registry) (recent : List HandleEvent) : Prop where
  /-- A key that is issued, or waits to be, has been retired as often as its record says. -/
  generation_eq : ∀ key record, r.records[key]? = some record →
    record.status ≠ .vacant ∨ key ∈ r.free → record.generation = recent.count (.retired key)
  /-- A key without a record has never been retired. -/
  count_eq_zero : ∀ key, r.records[key]? = none → recent.count (.retired key) = 0
  /-- A handle issued before is the one its key is still issued as, or its count is behind. -/
  issues_or_lt : ∀ x, .issued x ∈ recent →
    r.Issues x ∨ x.generation < recent.count (.retired x.key)

namespace Counts

variable {r s : Registry} {recent : List HandleEvent} {x : Handle}

/-- A registry just opened has counted nothing. -/
theorem new (owner : Token) : ({ owner := owner } : Registry).Counts [] :=
  ⟨by simp, by simp, by simp⟩

/-- Positions, and events that neither issue nor retire, are of no matter. -/
theorem congr (hc : r.Counts recent) (hu : s.unplaced = r.unplaced) {es : List HandleEvent}
    (hissued : ∀ x, .issued x ∉ es) (hretired : ∀ key, .retired key ∉ es) :
    s.Counts (recent ++ es) := by
  have hcount : ∀ key, (recent ++ es).count (.retired key) = recent.count (.retired key) := by
    intro key
    rw [List.count_append, List.count_eq_zero.mpr (hretired key), Nat.add_zero]
  have hfree : s.free = r.free := by
    rw [← unplaced_free s, hu, unplaced_free]
  have hrecords : ∀ key : Nat, s.records[key]?.map Record.unplaced =
      r.records[key]?.map Record.unplaced := fun key => by
    rw [← unplaced_records, hu, unplaced_records]
  refine ⟨?_, ?_, ?_⟩
  · intro key record hr hkey
    have hsame := hrecords key
    rw [hr, Option.map_some, eq_comm, Option.map_eq_some_iff] at hsame
    obtain ⟨record', hr', hun⟩ := hsame
    have hg : record'.generation = record.generation := by
      simpa using congrArg Record.generation hun
    have hv : record'.status = .vacant ↔ record.status = .vacant := by
      rw [← Record.unplaced_status_eq_vacant, hun, Record.unplaced_status_eq_vacant]
    rw [hcount, ← hg]
    exact hc.generation_eq key record' hr' (by rwa [ne_eq, hv, ← hfree])
  · intro key hr
    have hsame := hrecords key
    rw [hr, Option.map_none, eq_comm, Option.map_eq_none_iff] at hsame
    rw [hcount]
    exact hc.count_eq_zero key hsame
  · intro x hx
    rw [hcount, issues_congr hu]
    exact hc.issues_or_lt x ((List.mem_append.mp hx).resolve_right (hissued x))

/-- A handle that is granted shows how often its key was retired. -/
theorem generation_of_grants (hc : r.Counts recent) (hg : r.Grants x s) :
    x.generation = recent.count (.retired x.key) := by
  rcases hg.before with hrec | ⟨hrec, hzero⟩
  · have hwaits : x.key ∈ r.free := by
      rcases hg.free_eq with hfree | ⟨hnone, -⟩
      · exact hfree ▸ List.mem_cons_self ..
      · rw [hrec] at hnone
        cases hnone
    exact hc.generation_eq x.key _ hrec (Or.inr hwaits)
  · rw [hzero, hc.count_eq_zero x.key hrec]

/-- A handle that is granted was not issued before. -/
theorem notMem_of_grants (hc : r.Counts recent) (hg : r.Grants x s) : .issued x ∉ recent := by
  intro hx
  rcases hc.issues_or_lt x hx with hissues | hlt
  · exact hg.not_isIssued hissues.isIssued
  · exact Nat.ne_of_lt hlt (hc.generation_of_grants hg)

theorem of_grants (hc : r.Counts recent) (hg : r.Grants x s) :
    s.Counts (recent ++ [.issued x]) := by
  have hcount : ∀ key, (recent ++ [HandleEvent.issued x]).count (.retired key) =
      recent.count (.retired key) := by simp
  refine ⟨?_, ?_, ?_⟩
  · intro key record hr hkey
    rw [hcount]
    -- The granted key shows its count; another key waits or is issued as it was before.
    by_cases hk : key = x.key
    · subst hk
      rw [hg.record_eq] at hr
      cases hr
      exact hc.generation_of_grants hg
    · rw [hg.records_ne key hk] at hr
      refine hc.generation_eq key record hr (hkey.imp_right fun hmem => ?_)
      rcases hg.free_eq with hfree | ⟨-, hfree⟩
      · exact hfree ▸ List.mem_cons_of_mem _ hmem
      · exact hfree ▸ hmem
  · intro key hr
    have hk : key ≠ x.key := by
      intro hk
      rw [hk, hg.record_eq] at hr
      cases hr
    rw [hcount]
    exact hc.count_eq_zero key (hg.records_ne key hk ▸ hr)
  · intro y hy
    rw [hcount, hg.issues_iff]
    rcases List.mem_append.mp hy with hy | hy
    · exact (hc.issues_or_lt y hy).imp_left Or.inr
    · cases List.mem_singleton.mp hy
      exact Or.inl (Or.inl rfl)

/-- Taking back issued keys, no two of them the same, counts each of them once more. -/
theorem of_withdraws (hc : r.Counts recent) (hs : r.Sound) {keys : List (Option Nat)}
    (hw : r.Withdraws keys s) (hnd : keys.reduceOption.Nodup)
    (hissued : ∀ key, some key ∈ keys → r.IsIssued key) :
    s.Counts (recent ++ keys.reduceOption.map .retired) := by
  have hcount := fun key => count_retired_append recent hnd key
  refine ⟨?_, ?_, ?_⟩
  · intro key record hr hkey
    rw [hcount]
    rw [hw.records_eq] at hr
    by_cases hmem : some key ∈ keys
    · rw [if_pos hmem, Option.map_eq_some_iff] at hr
      obtain ⟨old, hold, rfl⟩ := hr
      have hlt : old.generation < lastGeneration := by
        rcases hkey with hv | hfree
        · exact absurd (Record.retired_status old) hv
        · -- No issued key waits, so a key taken back that waits afterwards was counted up.
          rcases hw.mem_free key hfree with hfree | ⟨-, hlt⟩
          · exact absurd hfree (hs.notMem_free (hissued key hmem))
          · exact hlt old hold
      obtain ⟨record, hrec, hv⟩ := hissued key hmem
      rw [hold] at hrec
      cases hrec
      rw [if_pos hmem, Record.retired, if_pos hlt, hc.generation_eq key old hold (Or.inl hv)]
    · rw [if_neg hmem] at hr
      rw [if_neg hmem, Nat.add_zero]
      refine hc.generation_eq key record hr (hkey.imp_right fun hfree => ?_)
      exact (hw.mem_free key hfree).resolve_right fun h => hmem h.1
  · intro key hr
    rw [hw.records_eq] at hr
    have hnone : r.records[key]? = none := by
      split at hr
      · exact Option.map_eq_none_iff.mp hr
      · exact hr
    have hmem : some key ∉ keys := by
      intro hmem
      obtain ⟨record, hrec, -⟩ := hissued key hmem
      rw [hnone] at hrec
      cases hrec
    rw [hcount, if_neg hmem, hc.count_eq_zero key hnone]
  · intro x hx
    have hold : .issued x ∈ recent := (List.mem_append.mp hx).resolve_right (by simp)
    rw [hcount, hw.issues_iff]
    -- A handle that was current falls behind if its key is taken back, and stays so otherwise.
    rcases hc.issues_or_lt x hold with hissues | hlt
    · by_cases hmem : some x.key ∈ keys
      · have hg : x.generation = recent.count (.retired x.key) := by
          obtain ⟨-, record, hr, hgen, hv⟩ := hissues
          rw [← hgen]
          exact hc.generation_eq x.key record hr (Or.inl hv)
        exact Or.inr (by rw [if_pos hmem, hg]; exact Nat.lt_succ_self _)
      · exact Or.inl ⟨hissues, hmem⟩
    · exact Or.inr (Nat.lt_of_lt_of_le hlt (Nat.le_add_right ..))

end Counts

end Registry

/-! ### One move -/

namespace Heap

variable {h h' : Heap α} {log e : List HandleEvent}

/-- A chronicle has numbered its handles, and the registry goes on counting from there. -/
structure Dated (h : Heap α) (log : List HandleEvent) : Prop where
  numbered : Numbered log
  /-- Handles from before the registry was opened carry other owners. -/
  opened : ∃ earlier recent, log = earlier ++ .opened h.owner :: recent ∧
    (∀ x, .issued x ∈ earlier → x.owner ≠ h.owner) ∧ h.registry.Counts recent

/-- A change under the same owner in which no handle is issued. -/
theorem Dated.append (hd : h.Dated log) (ho : h'.owner = h.owner) (he : ∀ x, .issued x ∉ e)
    (hcounts : ∀ recent, h.registry.Counts recent → h'.registry.Counts (recent ++ e)) :
    h'.Dated (log ++ e) := by
  obtain ⟨earlier, recent, rfl, hearlier, hc⟩ := hd.opened
  refine ⟨hd.numbered.append he, earlier, recent ++ e, ?_, ?_, hcounts recent hc⟩
  · rw [ho, List.append_assoc, List.cons_append]
  · rwa [ho]

/-- Dropping elements counts their keys. -/
theorem Drops.counts {dropped : List (Slot α)} (hd : h.Drops dropped h') (hw : h.WellFormed)
    {recent : List HandleEvent} (hc : h.registry.Counts recent) :
    h'.registry.Counts (recent ++ (dropped.map (·.key)).reduceOption.map .retired) := by
  obtain ⟨r, hr, hwith, hu⟩ := hd.registry
  have hperm : (dropped.map (·.key) ++ h'.keys).reduceOption.Perm h.keys.reduceOption := by
    have hkeys := hd.perm.map (·.key)
    rw [List.map_append] at hkeys
    exact hkeys.filterMap fun key => key
  have hnd : (dropped.map (·.key)).reduceOption.Nodup := by
    have hall := hperm.nodup_iff.mpr hw.keys_nodup
    rw [List.reduceOption_append] at hall
    exact hall.of_append_left
  have hissued : ∀ key, some key ∈ dropped.map (·.key) → h.registry.IsIssued key :=
    fun key hkey => hw.isIssued_of_mem_keys ((hd.mem_keys key).mpr (Or.inl hkey))
  rw [← List.append_nil (recent ++ _)]
  exact (hc.of_withdraws hw.registry hwith hnd hissued).congr hu (by simp) (by simp)

/-- A handle that is granted has not been issued before. -/
theorem Dated.notMem_of_grants (hd : h.Dated log) {x : Handle} {r : Registry}
    (hg : h.registry.Grants x r) : .issued x ∉ log := by
  obtain ⟨earlier, recent, rfl, hearlier, hc⟩ := hd.opened
  simp only [List.mem_append, List.mem_cons, reduceCtorEq, false_or, not_or]
  exact ⟨fun hx => hearlier x hx hg.handle_owner, hc.notMem_of_grants hg⟩

/-- **One move**: a handle that is issued is a new one, and numbered by the events so far. -/
theorem Move.dated (hm : h.Move e h') (hw : h.WellFormed) (hd : h.Dated log) :
    h'.Dated (log ++ e) := by
  cases hm with
  | @issue x r hsound hg =>
      have hnew := hd.notMem_of_grants hg
      obtain ⟨earlier, recent, rfl, hearlier, hc⟩ := hd.opened
      have howner : x.owner = h.owner := hg.handle_owner
      refine ⟨hd.numbered.issue (by rw [howner]) hnew (hc.generation_of_grants hg), earlier,
        recent ++ [.issued x], ?_, ?_, hc.of_grants hg⟩
      · rw [List.append_assoc, List.cons_append]
        exact congrArg (fun o => earlier ++ .opened o :: (recent ++ _)) hg.owner_eq.symm
      · intro y hy
        exact fun ho => hearlier y hy (ho.trans hg.owner_eq)
  | @withdraw x r hsound hx hk hwith =>
      refine hd.append hwith.owner_eq (by simp) ?_
      intro recent hc
      exact hc.of_withdraws hw.registry hwith (by simp [List.reduceOption])
        (by simpa using hx.isIssued)
  | store hs =>
      refine hd.append hs.owner_eq (by simp) ?_
      intro recent hc
      exact hc.congr hs.unplaced_eq (by simp) (by simp)
  | replace hr =>
      refine hd.append (Registry.owner_congr hr.unplaced_eq) (by simp) ?_
      intro recent hc
      exact hc.congr hr.unplaced_eq (by simp) (by simp)
  | @takeOut i hi h' hdrop hs =>
      refine hd.append hdrop.owner_eq (by simp) ?_
      intro recent hc
      have hcounts := hdrop.counts hw hc
      rcases hkey : h.slots[i].key with _ | key <;> simpa [hkey] using hcounts
  | clear hdrop =>
      refine hd.append hdrop.owner_eq (by simp) ?_
      intro recent hc
      exact hdrop.counts hw hc
  | resize capacity =>
      refine hd.append rfl (by simp) ?_
      intro recent hc
      exact hc.congr rfl (by simp) (by simp)

theorem Moves.dated {es : List HandleEvent} (hms : h.Moves es h') (hw : h.WellFormed)
    (hd : h.Dated log) : h'.Dated (log ++ es) := by
  induction hms generalizing log with
  | none => simpa using hd
  | next first rest ih =>
      rw [← List.append_assoc]
      exact ih (first.wellFormed hw) (first.dated hw hd)

/-- **Renewing** the registry under an owner that no handle carries starts the counts again. -/
theorem MayRenew.dated {m m' : Mint} (hren : h.MayRenew m h' m') (hd : h.Dated log)
    (hnew : m' = m.draw.2 → ∀ x, .issued x ∈ log → x.owner ≠ m.next)
    (hother : m' = m.draw.2 → h.owner ≠ m.next) :
    h'.Dated (log ++ opening (some h.owner) h'.owner) := by
  cases hren with
  | kept => simpa using hd
  | renewed he ht h0 =>
      have hopened : opening (some h.owner) m.next = [.opened m.next] :=
        if_neg fun heq => hother rfl (Option.some.inj heq)
      show Dated { h with registry := { owner := m.next } } (log ++ opening (some h.owner) m.next)
      rw [hopened]
      exact ⟨hd.numbered.append (by simp), log, [], rfl, hnew rfl, .new m.next⟩

/-- A heap just made has issued nothing. -/
theorem dated_create {policy : StoragePolicy} {priority : Priority α} {size : SlotSize}
    {m m' : Mint} (hc : Heap.create policy priority size m = .ok (h, m')) :
    h.Dated [.opened h.owner] := by
  obtain ⟨-, hreg, -, -⟩ := create_eq_ok hc
  have hcounts : h.registry.Counts [] := by
    rw [hreg]
    exact .new m.next.succ
  exact ⟨Numbered.nil.append (by simp), [], [], rfl, by simp, hcounts⟩

end Heap

/-! ### Handles that are answers -/

namespace Op.Effect

variable [BEq α] {h : Heap α} {m : Mint} {o : Outcome α (Reply α)}

/-- Adding many elements is not answered with a handle. -/
theorem answer_ne_handle {values : List α} (he : (Op.extend values).Effect h m o) (x : Handle) :
    o.answer ≠ .ok (.handle x) := by
  induction values generalizing h o with
  | nil =>
      cases he
      exact nofun
  | cons value rest ih =>
      cases he with
      | extendMore hs ho =>
          have hrest := ih ho
          exact hrest
      | extendFull hl => exact nofun

/-- A handle that is an answer was issued. -/
theorem issued_of_answer {op : Op α} (he : op.Effect h m o) {x : Handle}
    (ha : o.answer = .ok (.handle x)) : .issued x ∈ op.handleEvents h o.answer := by
  cases he with
  | extendMore hs ho => exact absurd ha (ho.answer_ne_handle x)
  | reserved hres hr hg =>
      cases ha
      exact List.mem_singleton_self _
  | inserted hres hr hg hs =>
      cases ha
      simp [handleEvents, hres]
  | _ => cases ha

end Op.Effect

/-! ### One command -/

namespace World

/-- The chronicles of all heaps have numbered their handles. -/
structure Dated (w : World α) (log : Nat → List HandleEvent) : Prop where
  numbered : ∀ n, Numbered (log n)
  heap : ∀ n h, w.heap? n = some h → h.Dated (log n)

theorem Dated.empty : ({} : World α).Dated fun _ => [] :=
  ⟨fun _ => .nil, by simp [heap?]⟩

/-- **One command** keeps the chronicles numbered, if the supply of tokens does not come
round. -/
theorem Traced.dated_step [BEq α] {w : World α} {log : Nat → List HandleEvent} {drawn : Nat}
    (ht : w.Traced log drawn) (hd : w.Dated log) {command : Command α} {s : Step α (Reply α)}
    (hx : w.exec command = some s)
    (hlt : drawn + (s.world.mint.next.val - w.mint.next.val).toNat < 0x10000000000000000) :
    s.world.Dated fun n => log n ++ command.handleEvents w s n := by
  have hone : ∀ n, Numbered (log n ++ command.handleEvents w s n) ∧
      ∀ h, s.world.heap? n = some h → h.Dated (log n ++ command.handleEvents w s n) := by
    intro n
    rcases (turn_of_exec ht.wellFormed hx).handleEvents_cases ht.wellFormed n with
      ⟨hnone, hheap⟩ | ⟨h, es, h₁, h', hn, hn', hms, hren, hevents⟩ |
      ⟨policy, priority, size, h, h', rfl, hn', hmade, hms, hevents⟩
    · rw [hnone, List.append_nil]
      exact ⟨hd.numbered n, fun h hn => hd.heap n h (hheap h hn)⟩
    · have hmoved := hms.dated (ht.wellFormed n h hn) (hd.heap n h hn)
      have howned : ∀ x, .issued x ∈ log n ++ es → .opened x.owner ∈ log n := fun x hx =>
        (List.mem_append.mp hx).elim (ht.opened_of_issued n x)
          fun hx => hms.of_mem.2 x hx ▸ ht.opened_owner n h hn
      -- A token that is drawn now is the owner of nothing yet.
      have hfresh : s.world.mint = w.mint.draw.2 → .opened w.mint.next ∉ log n := by
        intro hm
        refine ht.not_opened_next ?_ n
        rwa [hm, w.mint.distance_draw] at hlt
      have hdated : h'.Dated (log n ++ command.handleEvents w s n) := by
        rw [hevents, ← List.append_assoc, ← hms.owner_eq]
        refine hren.dated hmoved ?_ ?_
        · intro hm x hx ho
          exact hfresh hm (ho ▸ howned x hx)
        · intro hm ho
          exact hfresh hm (ho ▸ hms.owner_eq ▸ ht.opened_owner n h hn)
      refine ⟨hdated.numbered, fun g hg => ?_⟩
      rw [hn'] at hg
      cases hg
      exact hdated
    · have hdated : h'.Dated (log w.heaps.size ++ command.handleEvents w s w.heaps.size) := by
        rw [hevents, ht.unused _ (Nat.le_refl _), hms.owner_eq]
        simpa using hms.dated (Heap.wellFormed_create hmade) (Heap.dated_create hmade)
      refine ⟨hdated.numbered, fun g hg => ?_⟩
      rw [hn'] at hg
      cases hg
      exact hdated
  exact ⟨fun n => (hone n).1, fun n => (hone n).2⟩

/-- **A whole run** keeps the chronicles numbered, if the supply of tokens does not come
round. -/
theorem Traced.dated_run [BEq α] {w w' : World α} {log : Nat → List HandleEvent} {drawn : Nat}
    (ht : w.Traced log drawn) (hd : w.Dated log) {commands : List (Command α)}
    (hrun : w.run commands = some w') (hlt : drawn + w.minted commands < 0x10000000000000000) :
    w'.Dated fun n => log n ++ w.chronicle n commands := by
  induction commands generalizing w log drawn with
  | nil =>
      cases hrun
      simpa [chronicle] using hd
  | cons command commands ih =>
      obtain ⟨s, hx, hrest⟩ := run_cons_eq_some.mp hrun
      simp only [minted, chronicle, hx, ← Nat.add_assoc, ← List.append_assoc] at hlt ⊢
      have hfirst := Nat.lt_of_le_of_lt (Nat.le_add_right ..) hlt
      exact ih (ht.step hx hfirst) (ht.dated_step hd hx hfirst) hrest hlt

/-! ### All handles of a run -/

variable [BEq α]

/-- The handles that a row of commands issues, on whatever heaps, in order. -/
def issues (w : World α) : List (Command α) → List Handle
  | [] => []
  | command :: rest =>
      match w.exec command with
      | none => []
      | some s =>
          (match command.request? with
            | some (n, _) => handles (command.handleEvents w s n)
            | none => []) ++ s.world.issues rest

/-- The handle that an answer hands out. -/
def handedBy : Except Failure (Reply α) → Option Handle
  | .ok (.handle x) => some x
  | _ => none

/-- The handles that answers hand out, in order. -/
def handed (answers : List (Except Failure (Reply α))) : List Handle := answers.filterMap handedBy

/-- A handle that is issued is in the chronicle of some heap. -/
theorem exists_mem_chronicle_of_mem_issues {w : World α} {commands : List (Command α)}
    {x : Handle} (hx : x ∈ w.issues commands) : ∃ n, .issued x ∈ w.chronicle n commands := by
  induction commands generalizing w with
  | nil => cases hx
  | cons command commands ih =>
      cases hs : w.exec command with
      | none => simp [issues, hs] at hx
      | some s =>
          simp only [issues, chronicle, hs, List.mem_append] at hx ⊢
          rcases hx with hx | hx
          · split at hx
            · next n op hc => exact ⟨n, Or.inl (mem_handles.mp hx)⟩
            · cases hx
          · obtain ⟨n, hn⟩ := ih hx
            exact ⟨n, Or.inr hn⟩

/-- The handles of a run are all different, if those of each heap are and no two heaps share
one. -/
theorem nodup_issues {w : World α} {commands : List (Command α)}
    (hnd : ∀ n, (handles (w.chronicle n commands)).Nodup)
    (hheap : ∀ n k x, .issued x ∈ w.chronicle n commands → .issued x ∈ w.chronicle k commands →
      n = k) : (w.issues commands).Nodup := by
  induction commands generalizing w with
  | nil => exact List.nodup_nil
  | cons command commands ih =>
      simp only [issues]
      cases hs : w.exec command with
      | none => exact List.nodup_nil
      | some s =>
          simp only [chronicle, hs, handles_append, List.nodup_append', List.mem_append]
            at hnd hheap
          refine List.nodup_append'.mpr ⟨?_, ih (fun n => (hnd n).2.1)
            (fun n k x hn hk => hheap n k x (Or.inr hn) (Or.inr hk)), ?_⟩
          · split
            · next n op hc => exact (hnd n).1
            · exact List.nodup_nil
          · -- A handle issued now and later is in two chronicles, or twice in one.
            intro x hx hrest
            obtain ⟨k, hk⟩ := exists_mem_chronicle_of_mem_issues hrest
            split at hx
            · next n op hc =>
                have hnk := hheap n k x (Or.inl (mem_handles.mp hx)) (Or.inr hk)
                exact (hnd n).2.2 hx (mem_handles.mpr (hnk ▸ hk))
            · cases hx

omit [BEq α] in
theorem handedBy_eq_some {answer : Except Failure (Reply α)} {x : Handle} :
    handedBy answer = some x ↔ answer = .ok (.handle x) := by
  unfold handedBy
  split <;> simp_all

/-- A handle that is an answer is one the command has issued. -/
theorem mem_handles_of_answer {w : World α} (hw : w.WellFormed) {command : Command α}
    {s : Step α (Reply α)} (hx : w.exec command = some s) {x : Handle}
    (ha : s.answer = .ok (.handle x)) :
    ∃ n op, command.request? = some (n, op) ∧ x ∈ handles (command.handleEvents w s n) := by
  cases command with
  | act n op =>
      obtain ⟨h, hn, rfl⟩ := exec_act_eq_some.mp hx
      refine ⟨n, op, rfl, ?_⟩
      rw [Command.handleEvents_of_asked rfl hn
        ((heap?_of_set rfl (lt_size_of_heap? hn) n).trans (if_pos rfl)), handles_append]
      exact List.mem_append_left _
        (mem_handles.mpr ((Op.effect (hw n h hn) w.mint op).issued_of_answer ha))
  | create policy priority size =>
      cases hx
      unfold World.create at ha
      split at ha <;> cases ha
  | collect priority promised values size =>
      cases hx
      unfold World.collect at ha
      dsimp only at ha
      split at ha
      · split at ha <;> cases ha
      · cases ha
  | consume n =>
      obtain ⟨h, hn, hs⟩ := Option.bind_eq_some_iff.mp hx
      cases hs
      cases ha
  | drain n =>
      obtain ⟨h, hn, hs⟩ := Option.bind_eq_some_iff.mp hx
      cases hs
      obtain ⟨values, hans, -⟩ := (hw n h hn).drain_values w.mint
      rw [hans] at ha
      cases ha
  | openCursor n =>
      obtain ⟨h, hn, rfl⟩ := exec_openCursor_eq_some.mp hx
      cases ha
  | copyCursor j =>
      obtain ⟨c, hj, rfl⟩ := exec_copyCursor_eq_some.mp hx
      cases ha
  | step j n =>
      obtain ⟨c, h, hj, hn, rfl⟩ := exec_step_eq_some.mp hx
      rcases hnext : (c.next h).1 with cause | shown <;>
        simp [hnext, Except.map, Except.mapError] at ha
  | stepToEnd j n =>
      obtain ⟨c, h, hj, hn, rfl⟩ := exec_stepToEnd_eq_some.mp hx
      rcases hrest : (c.rest h).1 with cause | shown <;>
        simp [hrest, Except.map, Except.mapError] at ha
  | restart j n =>
      obtain ⟨c, h, hj, hn, rfl⟩ := exec_restart_eq_some.mp hx
      cases ha

/-- The handles that are answers are among those issued, in the same order, and no handle is an
answer more often than it is issued. -/
theorem handed_sublist_issues {w w' : World α} (hw : w.WellFormed)
    {commands : List (Command α)} (hrun : w.run commands = some w') :
    (handed (w.answers commands)).Sublist (w.issues commands) := by
  induction commands generalizing w with
  | nil => exact List.nil_sublist _
  | cons command commands ih =>
      obtain ⟨s, hs, hrest⟩ := run_cons_eq_some.mp hrun
      have hlater := ih ((turn_of_exec hw hs).wellFormed hw) hrest
      simp only [answers, issues, hs]
      cases hx : handedBy s.answer with
      | none =>
          rw [handed, List.filterMap_cons_none hx]
          exact hlater.trans (List.sublist_append_right ..)
      | some x =>
          obtain ⟨n, op, hc, hmem⟩ := mem_handles_of_answer hw hs (handedBy_eq_some.mp hx)
          rw [handed, List.filterMap_cons_some hx, hc]
          exact (List.singleton_sublist.mpr hmem).append hlater

/-- **Handles are issued once.** In a run over any number of heaps, in which fewer than `2 ^ 64`
tokens are drawn:

* all handles that are issued, on all heaps, are different, and those that are answers are among
  them in the same order;
* each of them is in the chronicle of a heap, and the count of a handle in a chronicle is the
  number of times its key had been retired since the owner that the handle carries came in;
* a token that is in use at two times belongs to one heap, in one role;
* a token that went out of use does not come back. -/
theorem handles_issued_once {commands : List (Command α)} {w : World α}
    (hrun : World.run {} commands = some w)
    (hlt : World.minted {} commands < 0x10000000000000000) :
    (World.issues {} commands).Nodup ∧
    (handed (World.answers {} commands)).Sublist (World.issues {} commands) ∧
    (∀ x ∈ World.issues {} commands, ∃ n, .issued x ∈ World.chronicle {} n commands) ∧
    (∀ n before x since, World.chronicle {} n commands = before ++ .issued x :: since →
      ∃ earlier recent, before = earlier ++ .opened x.owner :: recent ∧
        x.generation = recent.count (.retired x.key)) ∧
    (∀ i j w₁ w₂, i ≤ j → World.run {} (commands.take i) = some w₁ →
      World.run {} (commands.take j) = some w₂ → w₁.Apart w₂) ∧
    ∀ i j l w₁ w₂ w₃, i ≤ j → j ≤ l → World.run {} (commands.take i) = some w₁ →
      World.run {} (commands.take j) = some w₂ → World.run {} (commands.take l) = some w₃ →
      ∀ t, w₁.Uses t → ¬ w₂.Uses t → ¬ w₃.Uses t := by
  have htraced := Traced.empty.run hrun (by simpa using hlt)
  have hdated := Traced.empty.dated_run Dated.empty hrun (by simpa using hlt)
  simp only [List.nil_append] at htraced hdated
  have hheap : ∀ n k x, .issued x ∈ World.chronicle {} n commands →
      .issued x ∈ World.chronicle {} k commands → n = k := fun n k x hn hk =>
    htraced.opened_unique n k x.owner (htraced.opened_of_issued n x hn)
      (htraced.opened_of_issued k x hk)
  refine ⟨nodup_issues (fun n => (hdated.numbered n).nodup) hheap,
    handed_sublist_issues wellFormed_empty hrun,
    fun x hx => exists_mem_chronicle_of_mem_issues hx,
    fun n => (hdated.numbered n).generation_eq, ?_, ?_⟩
  · intro i j w₁ w₂ hij h₁ h₂
    exact (supplied_of_run_take h₁ hlt).apart_later (later_of_run_take hij h₁ h₂ hlt).2
  · intro i j l w₁ w₂ w₃ hij hjl h₁ h₂ h₃ t ht
    exact (supplied_of_run_take h₁ hlt).not_uses_again (later_of_run_take hjl h₂ h₃ hlt).2
      (later_of_run_take hij h₁ h₂ hlt).1 ht

/-- A run to which this applies: two heaps issue handles under key zero, the first one is emptied
and renews its registry, and there a key comes back after it was given up. -/
theorem handles_issued_once_of_two : ∃ w : World Nat,
    World.run {} [.create {} .natural, .create {} .natural, .act 0 (.insert 5),
      .act 1 (.insert 7), .act 0 .pop, .act 0 (.insert 6), .act 0 .reserve,
      .act 0 (.release ⟨⟨5⟩, 1, 0⟩), .act 0 .reserve] = some w ∧
    World.minted ({} : World Nat) [.create {} .natural, .create {} .natural, .act 0 (.insert 5),
      .act 1 (.insert 7), .act 0 .pop, .act 0 (.insert 6), .act 0 .reserve,
      .act 0 (.release ⟨⟨5⟩, 1, 0⟩), .act 0 .reserve] < 0x10000000000000000 ∧
    World.issues ({} : World Nat) [.create {} .natural, .create {} .natural, .act 0 (.insert 5),
      .act 1 (.insert 7), .act 0 .pop, .act 0 (.insert 6), .act 0 .reserve,
      .act 0 (.release ⟨⟨5⟩, 1, 0⟩), .act 0 .reserve] =
        [⟨⟨2⟩, 0, 0⟩, ⟨⟨4⟩, 0, 0⟩, ⟨⟨5⟩, 0, 0⟩, ⟨⟨5⟩, 1, 0⟩, ⟨⟨5⟩, 1, 1⟩] ∧
    [(⟨⟨2⟩, 0, 0⟩ : Handle), ⟨⟨4⟩, 0, 0⟩, ⟨⟨5⟩, 0, 0⟩, ⟨⟨5⟩, 1, 0⟩, ⟨⟨5⟩, 1, 1⟩].Nodup ∧
    w.Apart w := by
  obtain ⟨w, h, hrun, -, -⟩ := exists_of_any_run (α := Nat)
    [.create {} .natural, .create {} .natural, .act 0 (.insert 5), .act 1 (.insert 7),
      .act 0 .pop, .act 0 (.insert 6), .act 0 .reserve, .act 0 (.release ⟨⟨5⟩, 1, 0⟩),
      .act 0 .reserve] 0 (fun _ => true) (by decide +kernel)
  have hlt : World.minted ({} : World Nat) [.create {} .natural, .create {} .natural,
      .act 0 (.insert 5), .act 1 (.insert 7), .act 0 .pop, .act 0 (.insert 6), .act 0 .reserve,
      .act 0 (.release ⟨⟨5⟩, 1, 0⟩), .act 0 .reserve] < 0x10000000000000000 := by decide +kernel
  have hissues : World.issues ({} : World Nat) [.create {} .natural, .create {} .natural,
      .act 0 (.insert 5), .act 1 (.insert 7), .act 0 .pop, .act 0 (.insert 6), .act 0 .reserve,
      .act 0 (.release ⟨⟨5⟩, 1, 0⟩), .act 0 .reserve] =
        [⟨⟨2⟩, 0, 0⟩, ⟨⟨4⟩, 0, 0⟩, ⟨⟨5⟩, 0, 0⟩, ⟨⟨5⟩, 1, 0⟩, ⟨⟨5⟩, 1, 1⟩] := by decide +kernel
  obtain ⟨hnodup, -, -, -, hapart, -⟩ := handles_issued_once hrun hlt
  exact ⟨w, hrun, hlt, hissues, hissues ▸ hnodup, hapart 9 9 w w (Nat.le_refl _) hrun hrun⟩

end World

end TrackedHeap
