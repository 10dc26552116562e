import TrackedHeap.Proofs.Heap.Storage
import TrackedHeap.Proofs.Heap.Tenure

/-!
# TrackedHeap.Proofs.Heap.Account

**What a heap reports is what happens to it.**

Reports of new capacities, put one behind the other, lead from the capacity before an operation to
the one after it (`Chained`). Each operation that touches the storage makes one report at most, so
there is one link to check for each; operations that follow one another put their chains together.
Reports about the registry are made by the operation that renews it, of what it was before.
-/

namespace TrackedHeap

variable {α β : Type}

/-- The capacity before and after, where a report tells of a change of the storage. -/
def Event.resizing? : Event → Option (Nat × Nat)
  | grew before after | trimmed before after _ | released before after => some (before, after)
  | registryReleased _ _ => none

/-- The changes lead from `first` to `last`: each begins where the one before it ended. -/
def Chained (first : Nat) : List (Nat × Nat) → Nat → Prop
  | [], last => last = first
  | (before, after) :: rest, last => before = first ∧ Chained after rest last

namespace Chained

variable {first middle last : Nat} {changes later : List (Nat × Nat)}

@[simp] theorem nil_iff : Chained first [] last ↔ last = first := Iff.rfl

@[simp] theorem cons_iff {change : Nat × Nat} :
    Chained first (change :: changes) last ↔
      change.1 = first ∧ Chained change.2 changes last := Iff.rfl

theorem append (hc : Chained first changes middle) (hl : Chained middle later last) :
    Chained first (changes ++ later) last := by
  induction changes generalizing first with
  | nil => exact nil_iff.mp hc ▸ hl
  | cons change changes ih => exact ⟨hc.1, ih hc.2⟩

/-- Changes that lead somewhere else end there. -/
theorem exists_of_ne (hc : Chained first changes last) (hne : last ≠ first) :
    ∃ before, (before, last) ∈ changes := by
  induction changes generalizing first with
  | nil => exact absurd (nil_iff.mp hc) hne
  | cons change changes ih =>
      obtain ⟨before, after⟩ := change
      obtain ⟨-, hc⟩ := cons_iff.mp hc
      by_cases heq : last = after
      · exact ⟨before, heq ▸ List.mem_cons_self ..⟩
      · obtain ⟨x, hx⟩ := ih hc heq
        exact ⟨x, List.mem_cons_of_mem _ hx⟩

end Chained

namespace Heap

/-- The reports of an operation that makes `h'` of `h`, and `m'` of the mint `m`, are true. -/
structure Accounts (h : Heap α) (m : Mint) (events : List Event) (h' : Heap α) (m' : Mint) :
    Prop where
  chained : Chained h.capacity (events.filterMap Event.resizing?) h'.capacity
  /-- A report of a renewal tells how many records there were, and who the new owner is. -/
  renewed : ∀ tracked owner, .registryReleased tracked owner ∈ events →
    tracked = h.registry.tracked ∧ owner = m.next ∧ h'.owner = owner ∧ m' = m.draw.2

variable {h g h' : Heap α} {m m₁ m' : Mint} {events later : List Event}

/-- Nothing is reported where the capacity stays. -/
theorem accounts_nil (hc : h'.capacity = h.capacity) : h.Accounts m [] h' m' := ⟨hc, nofun⟩

/-- One operation after another, the first of which does not renew the registry. -/
theorem Accounts.append (ha : h.Accounts m events g m) (hb : g.Accounts m later h' m')
    (hrecords : g.registry.tracked = h.registry.tracked)
    (hkept : ∀ tracked owner, .registryReleased tracked owner ∉ events) :
    h.Accounts m (events ++ later) h' m' := by
  refine ⟨List.filterMap_append ▸ ha.chained.append hb.chained, ?_⟩
  intro tracked owner hmem
  obtain ⟨ht, hrest⟩ := hb.renewed tracked owner
    ((List.mem_append.mp hmem).resolve_left (hkept tracked owner))
  exact ⟨ht.trans hrecords, hrest⟩

/-! ### Making room -/

/-- A heap makes room without a report, or grows and reports that. -/
theorem makeRoom_events (hroom : h.makeRoom = .ok (g, events)) :
    events = [] ∧ g.capacity = h.capacity ∨ events = [.grew h.capacity g.capacity] := by
  unfold makeRoom at hroom
  split at hroom
  · cases hroom
    exact Or.inl ⟨rfl, rfl⟩
  · dsimp only at hroom
    split at hroom
    · cases hroom
      exact Or.inr rfl
    · cases hroom

theorem Stores.events_cases {slot : Slot α} (hs : h.Stores slot events h') :
    events = [] ∧ h'.capacity = h.capacity ∨ events = [.grew h.capacity h'.capacity] := by
  obtain ⟨capacity, hroom, ha⟩ := hs.room
  rw [show h'.capacity = capacity by rw [ha.eq_with]]
  exact makeRoom_events hroom

theorem Stores.accounts {slot : Slot α} (hs : h.Stores slot events h') (m : Mint) :
    h.Accounts m events h' m := by
  rcases hs.events_cases with ⟨rfl, hc⟩ | rfl
  · exact accounts_nil hc
  · exact ⟨⟨rfl, rfl⟩, by simp⟩

/-! ### Releasing -/

theorem accounts_releaseEmpty (h : Heap α) (m : Mint) :
    h.Accounts m (h.releaseEmpty m).events (h.releaseEmpty m).heap (h.releaseEmpty m).mint := by
  have hstorage : h.Accounts m (h.releaseStorage m).events (h.releaseStorage m).heap m := by
    unfold releaseStorage
    split
    · exact ⟨⟨rfl, rfl⟩, by simp⟩
    · exact accounts_nil rfl
  have hregistry : ∀ g : Heap α,
      g.Accounts m (g.releaseRegistry m).events (g.releaseRegistry m).heap
        (g.releaseRegistry m).mint := by
    intro g
    unfold releaseRegistry
    split
    · dsimp only
      split
      · refine ⟨rfl, ?_⟩
        intro tracked owner hmem
        cases List.mem_singleton.mp hmem
        exact ⟨rfl, rfl, rfl, rfl⟩
      · exact accounts_nil rfl
    · exact accounts_nil rfl
  have hfirst : (h.releaseStorage m).mint = m ∧ (h.releaseStorage m).heap.registry = h.registry ∧
      ∀ tracked owner, .registryReleased tracked owner ∉ (h.releaseStorage m).events := by
    unfold releaseStorage
    split <;> simp
  obtain ⟨hm, hr, hkept⟩ := hfirst
  unfold releaseEmpty
  dsimp only
  rw [hm]
  exact hstorage.append (hregistry _) (congrArg Registry.tracked hr) hkept

/-- Dropping elements before a release makes no difference to what is reported of it. -/
theorem Accounts.congr (ha : g.Accounts m events h' m') (hc : g.capacity = h.capacity)
    (hrecords : g.registry.tracked = h.registry.tracked) : h.Accounts m events h' m' :=
  ⟨hc ▸ ha.chained, fun tracked owner hmem => hrecords ▸ ha.renewed tracked owner hmem⟩

theorem TakesOut.accounts {i : Nat} {hi : i < h.slots.size} {c : Change α α}
    (ht : h.TakesOut m i hi c) : h.Accounts m c.events c.heap c.mint := by
  obtain ⟨r, hr, hwith, hc⟩ := ht
  cases hc with
  | refilled hs ha => exact accounts_nil (by rw [ha.eq_with])
  | last hs hne => exact accounts_nil rfl
  | emptied hs he => exact (accounts_releaseEmpty _ m).congr rfl hwith.tracked_eq

theorem Clears.accounts {c : Change α Unit} (hc : h.Clears m c) :
    h.Accounts m c.events c.heap c.mint := by
  obtain ⟨r, released, hr, hwith, rfl, rfl⟩ := hc
  have ha := accounts_releaseEmpty ({ h with slots := #[], registry := r } : Heap α) m
  exact Accounts.congr ⟨ha.chained, ha.renewed⟩ rfl hwith.tracked_eq

/-- A heap that still has elements has nothing to report. -/
theorem TakesOut.silent {i : Nat} {hi : i < h.slots.size} {c : Change α α}
    (ht : h.TakesOut m i hi c) (hne : c.heap.slots ≠ #[]) : c.events = [] ∧ c.mint = m ∧
      c.heap.capacity = h.capacity ∧ c.heap.registry.tracked = h.registry.tracked := by
  obtain ⟨r, hr, hwith, hc⟩ := ht
  cases hc with
  | refilled hs ha =>
      refine ⟨rfl, rfl, by rw [ha.eq_with], ?_⟩
      rw [← Registry.unplaced_tracked, ha.unplaced_eq, Registry.unplaced_tracked]
      exact hwith.tracked_eq
  | last hs hne => exact ⟨rfl, rfl, rfl, hwith.tracked_eq⟩
  | emptied hs he => exact absurd ((slots_releaseEmpty _ m).trans he) hne

/-- A row of removals reports what the one reports that leaves the heap empty, if it is among
them. -/
theorem PopsMany.accounts {count : Nat} {o : Outcome α (List α × Option Refusal)}
    (hp : h.PopsMany m count o) : h.Accounts m o.events o.heap o.mint := by
  induction hp with
  | done | stopped => exact accounts_nil rfl
  | @next h m count hi c o ht ho ih =>
      by_cases he : c.heap.slots = #[]
      · cases ho with
        | next ht' => exact absurd he (Array.size_pos_iff.mp (by assumption))
        | done | stopped => simpa only [Outcome.done, List.append_nil] using ht.accounts
      · obtain ⟨hevents, hm, hc, hrecords⟩ := ht.silent he
        rw [hevents, List.nil_append]
        exact (hm ▸ ih).congr hc hrecords

/-! ### Trimming is reported by trimming alone -/

section Untrimmed

variable (before after live : Nat)

theorem Stores.not_trimmed {slot : Slot α} (hs : h.Stores slot events h') :
    .trimmed before after live ∉ events := by
  rcases hs.events_cases with ⟨rfl, -⟩ | rfl <;> simp

theorem not_trimmed_releaseEmpty (h : Heap α) (m : Mint) :
    .trimmed before after live ∉ (h.releaseEmpty m).events := by
  simp only [releaseEmpty, releaseStorage, releaseRegistry]
  repeat' split
  all_goals simp

theorem TakesOut.not_trimmed {i : Nat} {hi : i < h.slots.size} {c : Change α α}
    (ht : h.TakesOut m i hi c) : .trimmed before after live ∉ c.events := by
  obtain ⟨r, -, -, hc⟩ := ht
  cases hc with
  | refilled | last => exact List.not_mem_nil
  | emptied => exact not_trimmed_releaseEmpty before after live _ m

theorem Clears.not_trimmed {c : Change α Unit} (hc : h.Clears m c) :
    .trimmed before after live ∉ c.events := by
  obtain ⟨r, released, -, -, rfl, rfl⟩ := hc
  exact not_trimmed_releaseEmpty before after live _ m

theorem PopsMany.not_trimmed {count : Nat} {o : Outcome α (List α × Option Refusal)}
    (hp : h.PopsMany m count o) : .trimmed before after live ∉ o.events := by
  induction hp with
  | done | stopped => exact List.not_mem_nil
  | next ht ho ih =>
      rw [List.mem_append, not_or]
      exact ⟨ht.not_trimmed before after live, ih⟩

end Untrimmed

end Heap

/-! ### Any request -/

namespace Op.Effect

open Heap

variable [BEq α] {h : Heap α} {m : Mint} {o : Outcome α (Reply α)}

/-- Adding many elements reports each growth. -/
theorem accounts_extend {values : List α} (he : (Op.extend values).Effect h m o) :
    h.Accounts m o.events o.heap o.mint := by
  induction values generalizing h o with
  | nil =>
      cases he
      exact accounts_nil rfl
  | cons value rest ih =>
      cases he with
      | extendMore hs ho =>
          refine (hs.accounts m).append (ih ho) ?_ ?_
          · rw [← Registry.unplaced_tracked, hs.unplaced_eq, Registry.unplaced_tracked]
          · rcases hs.events_cases with ⟨rfl, -⟩ | rfl <;> simp
      | extendFull hl => exact accounts_nil rfl

/-- **What a request reports is true.** -/
theorem accounts {op : Op α} (he : op.Effect h m o) : h.Accounts m o.events o.heap o.mint := by
  cases he with
  | pushed hs | insertedWith hu hs => exact hs.accounts m
  | inserted hres hr hg hs =>
      refine ⟨(hs.accounts m).chained, ?_⟩
      intro tracked owner hmem
      rcases hs.events_cases with ⟨rfl, -⟩ | rfl <;> simp at hmem
  | extendMore hs ho => exact accounts_extend (.extendMore hs ho)
  | popped ht | removed hp ht | removedFirst hf ht | removedValue hf ht => exact ht.accounts
  | updated hp hr => exact accounts_nil (by rw [hr.eq_with])
  | cleared hc => exact hc.accounts
  | trimmed ht => exact ⟨⟨rfl, rfl⟩, by simp⟩
  | pushFull | extended | extendFull | reserved | exhausted | insertFull | insertExhausted
  | released | releaseRefused | insertWithFull | insertWithRefused | popEmpty | removeRefused
  | noneFirst | noValue | updateRefused | untrimmed => exact accounts_nil rfl

theorem not_trimmed_extend {values : List α} (he : (Op.extend values).Effect h m o)
    (before after live : Nat) : .trimmed before after live ∉ o.events := by
  induction values generalizing h o with
  | nil =>
      cases he
      exact List.not_mem_nil
  | cons value rest ih =>
      cases he with
      | extendMore hs ho =>
          rw [List.mem_append, not_or]
          exact ⟨hs.not_trimmed before after live, ih ho⟩
      | extendFull hl => exact List.not_mem_nil

/-- Only trimming is reported as such, with the number of elements that there are before it and
after. -/
theorem live_eq {op : Op α} (he : op.Effect h m o) {before after live : Nat}
    (hmem : .trimmed before after live ∈ o.events) :
    op = .trim ∧ live = h.size ∧ o.heap.slots = h.slots := by
  cases he with
  | pushed hs | inserted _ _ _ hs | insertedWith _ hs =>
      exact absurd hmem (hs.not_trimmed before after live)
  | extendMore hs ho =>
      exact absurd hmem (not_trimmed_extend (.extendMore hs ho) before after live)
  | popped ht | removed _ ht | removedFirst _ ht | removedValue _ ht =>
      exact absurd hmem (ht.not_trimmed before after live)
  | cleared hc => exact absurd hmem (hc.not_trimmed before after live)
  | trimmed ht =>
      cases List.mem_singleton.mp hmem
      exact ⟨rfl, rfl, rfl⟩
  | pushFull | extended | extendFull | reserved | exhausted | insertFull | insertExhausted
  | released | releaseRefused | insertWithFull | insertWithRefused | popEmpty | removeRefused
  | noneFirst | noValue | updated | updateRefused | untrimmed => cases hmem

end Op.Effect

namespace Heap

/-- What an operation reports is true, also of the elements that there are when it trims. -/
structure Faithful (h : Heap α) (m : Mint) (events : List Event) (h' : Heap α) (m' : Mint) : Prop
    extends h.Accounts m events h' m' where
  live_eq : ∀ before after live, .trimmed before after live ∈ events →
    live = h.size ∧ h'.slots = h.slots

theorem faithful_nil (h : Heap α) (m m' : Mint) : h.Faithful m [] h m' := ⟨accounts_nil rfl, nofun⟩

/-- **What a request reports is true.** -/
theorem WellFormed.faithful_run [BEq α] {h : Heap α} (hw : h.WellFormed) (m : Mint) (op : Op α) :
    h.Faithful m (op.run h m).events (op.run h m).heap (op.run h m).mint := by
  have he := Op.effect hw m op
  exact ⟨he.accounts, fun before after live hmem => (he.live_eq hmem).2⟩

theorem WellFormed.faithful_drain {h : Heap α} (hw : h.WellFormed) (m : Mint) :
    h.Faithful m (h.drain m).events (h.drain m).heap (h.drain m).mint := by
  have hp := hw.popsMany m h.size
  exact ⟨hp.accounts, fun before after live hmem => absurd hmem (hp.not_trimmed before after live)⟩

end Heap

end TrackedHeap
