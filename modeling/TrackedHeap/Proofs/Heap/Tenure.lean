import TrackedHeap.Proofs.Heap.Operations
import TrackedHeap.Proofs.Registry.Growth

/-!
# TrackedHeap.Proofs.Heap.Tenure

**The tenure of an owner**: what one period of a registry, from one renewal to the next, says of
the registry.

A request either continues the tenure or ends it (`Heap.Tenures`). It ends it if it took elements
out, left none, and left no handle issued, in a registry that had issued some; no other request
does. While a tenure continues the registry grows only when no key waits, so the number of its
records is the most that were issued at once, with those that were spent by then (`Heap.Spans`).
-/

namespace TrackedHeap

variable {α : Type}

/-- A mint that was drawn from is another one. -/
theorem Mint.draw_snd_ne (m : Mint) : m.draw.2 ≠ m := by
  intro heq
  have hval : m.next.val + 1 = m.next.val := congrArg (·.next.val) heq
  rw [UInt64.add_eq_left] at hval
  exact absurd hval (by decide)

/-- Whether a request, answered so, has taken elements out. Clearing counts also when there was
none. -/
def Op.tookOut : Op α → Except Failure (Reply α) → Bool
  | clear, _ => true
  | pop, answer | remove _, answer => answer.isOk
  | removeValue _, .ok (.flag found) => found
  | removeFirst _, .ok (.found value) => value.isSome
  | _, _ => false

namespace Heap

/-- What a request does to the tenure of the owner, where `taken` says whether it has taken
elements out. -/
inductive Tenures (h : Heap α) (m : Mint) (taken : Prop) (h' : Heap α) (m' : Mint) : Prop
  /-- The owner stays. -/
  | continues (hf : h.registry.Follows h'.registry) (hm : m' = m)
      (hn : ¬ (taken ∧ h'.slots = #[] ∧ h'.issued = 0 ∧ h.registry.tracked ≠ 0))
  /-- The registry begins afresh under the next token. Each handle that was issued before named an
  element, and is gone with it. -/
  | ends (ht : taken) (he : h'.slots = #[]) (hr : h'.registry = { owner := m.next })
      (hm : m' = m.draw.2) (htracked : h.registry.tracked ≠ 0)
      (hkeys : ∀ key, h.registry.IsIssued key → some key ∈ h.keys)

/-- What the states of a heap since its owner was drawn say about its registry. -/
structure Spans (h : Heap α) (past : List (Heap α)) : Prop where
  sound : h.registry.Sound
  /-- The registry was sound before, and had no more records than now. -/
  past_le : ∀ g ∈ past, g.registry.Sound ∧ g.registry.tracked ≤ h.registry.tracked
  /-- There are records because handles were issued. -/
  exists_issued : h.registry.tracked ≠ 0 → ∃ g ∈ past, 0 < g.issued
  /-- There are no more records than when no key waited. -/
  exists_full : ∃ g ∈ past, g.registry.tracked = h.registry.tracked ∧ g.registry.free = [] ∧
    (h.registry.Unspent → g.registry.Unspent)

variable {h h' : Heap α} {m m' : Mint} {past : List (Heap α)}

/-- A heap whose registry has no records is at the beginning of a tenure. -/
theorem spans_of_new (hs : h.registry.Sound) (htracked : h.registry.tracked = 0) :
    h.Spans [h] := by
  have hfree : h.registry.free = [] := by
    have hcount := hs.issued_add_spent
    exact List.eq_nil_of_length_eq_zero (by omega)
  refine ⟨hs, ?_, fun hne => absurd htracked hne, h, List.mem_singleton_self h, rfl, hfree,
    fun hu => hu⟩
  intro g hg
  rw [List.mem_singleton.mp hg]
  exact ⟨hs, Nat.le_refl _⟩

/-- **A tenure that continues** spans one state more. The registry has grown only if no key waited,
and then none waits in the new state either. -/
theorem Spans.follows (hs : h.Spans past) (hf : h.registry.Follows h'.registry)
    (hsound : h'.registry.Sound) : h'.Spans (h' :: past) := by
  refine ⟨hsound, ?_, ?_, ?_⟩
  · intro g hg
    rcases List.mem_cons.mp hg with rfl | hg
    · exact ⟨hsound, Nat.le_refl _⟩
    · obtain ⟨hg, hle⟩ := hs.past_le g hg
      exact ⟨hg, Nat.le_trans hle hf.tracked_le⟩
  · intro hne
    rcases hf.tracked_cases with heq | ⟨-, -, -, hissued⟩
    · obtain ⟨g, hg, hpos⟩ := hs.exists_issued (heq ▸ hne)
      exact ⟨g, List.mem_cons_of_mem _ hg, hpos⟩
    · exact ⟨h', List.mem_cons_self .., by rw [issued, hissued]; exact Nat.succ_pos _⟩
  · rcases hf.tracked_cases with heq | ⟨-, hfree, -, -⟩
    · obtain ⟨g, hg, htracked, hfree, hu⟩ := hs.exists_full
      exact ⟨g, List.mem_cons_of_mem _ hg, htracked.trans heq.symm, hfree, hu ∘ hf.unspent⟩
    · exact ⟨h', List.mem_cons_self .., rfl, hfree, fun hu => hu⟩

namespace Spans

/-- The registry has a record for every handle that was issued at once with others, and for every
key that was spent then. -/
theorem used_le (hs : h.Spans past) :
    ∀ g ∈ past, g.issued + g.registry.spent ≤ h.registry.tracked := by
  intro g hg
  obtain ⟨hsound, hle⟩ := hs.past_le g hg
  have hcount := hsound.issued_add_spent
  rw [issued]
  omega

theorem issued_le (hs : h.Spans past) : ∀ g ∈ past, g.issued ≤ h.registry.tracked :=
  fun g hg => Nat.le_trans (Nat.le_add_right ..) (hs.used_le g hg)

/-- There are no more records than keys that were issued or spent at once. -/
theorem exists_used (hs : h.Spans past) :
    ∃ g ∈ past, g.issued + g.registry.spent = h.registry.tracked := by
  obtain ⟨g, hg, htracked, hfree, -⟩ := hs.exists_full
  have hcount := (hs.past_le g hg).1.issued_add_spent
  rw [hfree] at hcount
  exact ⟨g, hg, hcount.trans htracked⟩

/-- There are no more records than handles that were issued at once, if no key is spent. -/
theorem exists_peak (hs : h.Spans past) (hu : h.registry.Unspent) :
    ∃ g ∈ past, g.issued = h.registry.tracked := by
  obtain ⟨g, hg, htracked, hfree, hunspent⟩ := hs.exists_full
  exact ⟨g, hg, ((hs.past_le g hg).1.issued_eq_tracked hfree (hunspent hu)).trans htracked⟩

end Spans

/-! ### Requests and tenures -/

/-- Taking keys back, and then perhaps renewing the registry, ends the tenure exactly if the
registry is renewed. -/
theorem tenures_of_mayRenew {keys : List (Option Nat)} {r : Registry} (hr : r.Sound)
    (hwith : h.registry.Withdraws keys r) (hkeys : ∀ key, some key ∈ keys → some key ∈ h.keys)
    (hren : r.MayRenew m (h'.slots = #[]) h'.registry m') : h.Tenures m True h' m' := by
  have htracked := hwith.tracked_eq
  generalize hs : h'.registry = s at hren
  cases hren with
  | kept hu hn =>
      refine .continues (hs ▸ (Registry.Follows.of_withdraws hwith).congr hu) rfl ?_
      intro hend
      obtain ⟨-, he, h0, hne⟩ := hend
      refine hn ⟨he, by omega, ?_⟩
      rw [← Registry.unplaced_issued r, ← hu, Registry.unplaced_issued, ← hs]
      exact h0
  | renewed he ht h0 =>
      refine .ends trivial he hs rfl (by omega) ?_
      intro key hissued
      by_contra hnot
      refine hr.not_isIssued h0 key ((hwith.isIssued_iff key).mpr ⟨hissued, ?_⟩)
      exact fun hmem => hnot (hkeys key hmem)

theorem TakesOut.tenures {i : Nat} {hi : i < h.slots.size} {c : Change α α}
    (ht : h.TakesOut m i hi c) : h.Tenures m True c.heap c.mint := by
  obtain ⟨r, hr, hwith, hren⟩ := ht.withdraws
  refine tenures_of_mayRenew hr hwith ?_ hren
  intro key hkey
  rw [List.mem_singleton] at hkey
  exact mem_keys.mpr ⟨i, (keyAt_getElem hi).trans hkey.symm⟩

theorem Clears.tenures {c : Change α Unit} (hc : h.Clears m c) :
    h.Tenures m True c.heap c.mint := by
  obtain ⟨r, hr, hwith, hren⟩ := hc.withdraws
  exact tenures_of_mayRenew hr hwith (fun _ hmem => hmem) hren

end Heap

namespace Op.Effect

open Heap

variable [BEq α] {h : Heap α} {m : Mint} {o : Outcome α (Reply α)}

theorem unplaced_extend {values : List α} (he : (Op.extend values).Effect h m o) :
    o.heap.registry.unplaced = h.registry.unplaced ∧ o.mint = m := by
  induction values generalizing h o with
  | nil =>
      cases he
      exact ⟨rfl, rfl⟩
  | cons value rest ih =>
      cases he with
      | extendMore hs ho =>
          obtain ⟨hu, hm⟩ := ih ho
          exact ⟨hu.trans hs.unplaced_eq, hm⟩
      | extendFull hl => exact ⟨rfl, rfl⟩

/-- **Requests and tenures**: a tenure ends exactly where elements were taken out, none is left, no
handle is issued, and there were records to forget. -/
theorem tenures {op : Op α} (he : op.Effect h m o) :
    h.Tenures m (op.tookOut o.answer = true) o.heap o.mint := by
  have hfollows : ∀ {h' : Heap α} {m' : Mint}, h.registry.Follows h'.registry → m' = m →
      h.Tenures m (false = true) h' m' := fun hf hm => .continues hf hm fun hend => nomatch hend.1
  have hkept : ∀ {h' : Heap α} {m' : Mint}, h'.registry.unplaced = h.registry.unplaced → m' = m →
      h.Tenures m (false = true) h' m' := fun hu => hfollows ((Registry.Follows.refl _).congr hu)
  have htaken : ∀ {h' : Heap α} {m' : Mint}, h.Tenures m True h' m' →
      h.Tenures m (true = true) h' m' := fun ht => (eq_self true).symm ▸ ht
  cases he with
  | pushed hs | insertedWith hu hs => exact hkept hs.unplaced_eq rfl
  | extendMore hs ho =>
      obtain ⟨hu, hm⟩ := unplaced_extend ho
      exact hkept (hu.trans hs.unplaced_eq) hm
  | reserved hres hr hg | insertFull hres hr hg hl => exact hfollows (.of_reserve hres) rfl
  | inserted hres hr hg hs =>
      exact hfollows ((Registry.Follows.of_reserve hres).congr hs.unplaced_eq) rfl
  | released hu hr hwith => exact hfollows (.of_withdraws hwith) rfl
  | popped ht | removed hp ht | removedFirst hf ht | removedValue hf ht => exact htaken ht.tenures
  | cleared hc => exact htaken hc.tenures
  | updated hp hr => exact hkept hr.unplaced_eq rfl
  | pushFull | extended | extendFull | exhausted | insertExhausted | releaseRefused
  | insertWithFull | insertWithRefused | popEmpty | removeRefused | noneFirst | noValue
  | updateRefused | trimmed | untrimmed => exact hkept rfl rfl

end Op.Effect

end TrackedHeap
