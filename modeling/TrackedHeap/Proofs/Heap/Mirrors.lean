import TrackedHeap.Heap.Copy
import TrackedHeap.Proofs.Heap.Account
import TrackedHeap.Proofs.Sift.Related

/-!
# TrackedHeap.Proofs.Heap.Mirrors

**Handles have no part in the order.** Two heaps that hold the same elements in the same places go
on doing so when they are asked for the same things, whichever of the elements are stored under
handles in the one and in the other.

Some elements may have a handle in both heaps. For a list of such pairs of handles the heaps say
more: the two name the same place (`Heap.Mirrors`). Sifting does not look at keys, so the relation
of the slots is carried through every request by the sifts themselves; the registries are not
compared at all. An element is added in one of three ways, which come to one
(`Heap.Adds.run_cases`).
-/

namespace TrackedHeap

variable {α β γ : Type}

/-- Whether a report tells of a change of the storage. -/
def Event.concernsStorage (event : Event) : Bool := event.resizing?.isSome

/-- What is answered apart from the handle that was issued and the number that was given. -/
def Reply.unnamed : Reply α → Reply α
  | handle _ | number _ => done
  | reply => reply

/-- The handle under which a request, answered so, has stored an element. -/
def Op.names : Op α → Except Failure (Reply α) → Option Handle
  | insert _, .ok (.handle x) => some x
  | insertWith x _, .ok _ => some x
  | _, _ => none

/-- Whether a request has to do with handles alone, and not with elements. -/
def Op.handlesOnly : Op α → Bool
  | reserve | release _ => true
  | _ => false

/-- The pair of two things, where there are two. -/
def pairOf : Option β → Option β → List (β × β)
  | some x, some y => [(x, y)]
  | _, _ => []

theorem mem_pairOf {x y : Option β} {p : β × β} :
    p ∈ pairOf x y ↔ x = some p.1 ∧ y = some p.2 := by
  obtain ⟨a, b⟩ := p
  rcases x with _ | x <;> rcases y with _ | y <;> simp [pairOf, eq_comm]

@[simp] theorem pairOf_none (y : Option β) : pairOf none y = [] := by
  cases y <;> rfl

/-- Nothing is stored by a request that fails. -/
theorem Op.names_error (op : Op α) (failure : Failure) : op.names (.error failure) = none := by
  cases op <;> rfl

/-- Two slots with the same element, that have both the keys of a pair or neither. -/
structure Slot.Mirrors (named : List (Handle × Handle)) (s t : Slot α) : Prop where
  value_eq : t.value = s.value
  key_iff : ∀ p ∈ named, s.key = some p.1.key ↔ t.key = some p.2.key

namespace Heap

/-- Two heaps that differ at most in their identities, their slots and their registries. -/
structure Frames (h k : Heap α) : Prop where
  priority_eq : k.priority = h.priority
  policy_eq : k.policy = h.policy
  slotSize_eq : k.slotSize = h.slotSize
  capacity_eq : k.capacity = h.capacity
  version_eq : k.version = h.version

/-- Two heaps with the same elements in the same places. The handles of a pair name the same place,
if they name one. -/
structure Mirrors (named : List (Handle × Handle)) (h k : Heap α) : Prop extends h.Frames k where
  slots : Related (Slot.Mirrors named) h.slots k.slots

/-- The keys of all pairs are held by slots. -/
def Hold (named : List (Handle × Handle)) (h k : Heap α) : Prop :=
  ∀ p ∈ named, some p.1.key ∈ h.keys ∧ some p.2.key ∈ k.keys

/-- What can be asked of a heap to add an element to it: each request needs a key for it, or none,
and none of them is turned down for want of one. -/
inductive Adds (h : Heap α) (value : α) : Op α → Prop
  | push : Adds h value (.push value)
  | insert (hkey : h.registry.reserve ≠ .error .keysExhausted) : Adds h value (.insert value)
  | insertWith {x : Handle} (hx : h.registry.unboundKey x = .ok x.key) :
      Adds h value (.insertWith x value)

variable {h k h' k' : Heap α} {m m' : Mint} {named fresh : List (Handle × Handle)}
  {events events' : List Event}

/-! ### Reading -/

theorem indexOf?_eq_findIdx? (h : Heap α) (holds : α → Bool) :
    h.indexOf? holds = h.values.findIdx? holds := by
  unfold indexOf? values
  rw [List.findIdx?_map, ← List.findIdx?_toArray]
  rfl

namespace Mirrors

theorem values_eq (hm : h.Mirrors named k) : k.values = h.values :=
  hm.slots.values_eq fun _ _ => Slot.Mirrors.value_eq

theorem size_eq (hm : h.Mirrors named k) : k.size = h.size := hm.slots.size_eq

/-- What is found where is decided by the elements. -/
theorem indexOf?_eq (hm : h.Mirrors named k) (holds : α → Bool) :
    k.indexOf? holds = h.indexOf? holds := by
  rw [indexOf?_eq_findIdx?, indexOf?_eq_findIdx?, hm.values_eq]

theorem keyAt_iff (hm : h.Mirrors named k) {p : Handle × Handle} (hp : p ∈ named) (i : Nat) :
    keyAt h.slots i = some p.1.key ↔ keyAt k.slots i = some p.2.key := by
  have hrel := hm.slots i
  unfold keyAt
  generalize h.slots[i]? = x at hrel
  generalize k.slots[i]? = y at hrel
  cases hrel with
  | none => simp
  | some hs => exact hs.key_iff p hp

theorem mono (hm : h.Mirrors named k) (hsub : ∀ p ∈ fresh, p ∈ named) : h.Mirrors fresh k :=
  ⟨hm.toFrames, hm.slots.imp fun _ _ _ hs =>
    ⟨hs.value_eq, fun p hp => hs.key_iff p (hsub p hp)⟩⟩

end Mirrors

/-! ### Adding -/

namespace Frames

/-- Two heaps that take over sifts along the same path. -/
theorem adopts {R : Slot α → Slot α → Prop} (hf : h.Frames k) {s t : Sifted α}
    (hs : s.Related R t) (ha : h.Adopts s h') (ha' : k.Adopts t k') : h'.Frames k' := by
  refine ⟨?_, ?_, ?_, ?_, ?_⟩
  · rw [ha'.priority_eq, ha.priority_eq, hf.priority_eq]
  · rw [ha'.eq_with, ha.eq_with]
    exact hf.policy_eq
  · rw [ha'.eq_with, ha.eq_with]
    exact hf.slotSize_eq
  · rw [ha'.eq_with, ha.eq_with]
    exact hf.capacity_eq
  · rw [ha'.version_eq, ha.version_eq, hf.version_eq, Sifted.moved, Sifted.moved, hs.path_eq]

end Frames

/-- Room is made as the number of elements, the capacity and the policy say. -/
theorem map_makeRoom (h : Heap α) :
    h.makeRoom.map (fun roomy => (roomy.1.capacity, roomy.2)) =
      if h.size < h.capacity then .ok (h.capacity, [])
      else if h.policy.grown h.capacity < h.slotSize.limit then
        .ok (h.policy.grown h.capacity, [.grew h.capacity (h.policy.grown h.capacity)])
      else .error .capacityOverflow := by
  unfold makeRoom
  split
  · rfl
  · dsimp only
    split <;> rfl

theorem Mirrors.atLimit_iff (hm : h.Mirrors named k) : k.AtLimit ↔ h.AtLimit := by
  unfold AtLimit
  rw [hm.size_eq, hm.capacity_eq, hm.policy_eq, hm.slotSize_eq]

/-- **The same element is added** to both, under any keys or none. If it has a key in both, one more
pair of handles names the same place. -/
theorem Mirrors.stores (hm : h.Mirrors named k) (hheld : h.Hold named k) {value : α}
    {a b : Option Nat} (hs : h.Stores ⟨value, a⟩ events h') (hs' : k.Stores ⟨value, b⟩ events' k')
    (hfresh : ∀ p ∈ fresh, a = some p.1.key ∧ b = some p.2.key) :
    events' = events ∧ h'.Mirrors (named ++ fresh) k' := by
  have hfree := hs.key_free
  have hfree' := hs'.key_free
  -- No slot holds a key of the new pair, and the new slot holds none of the old ones.
  have hold : Related (Slot.Mirrors (named ++ fresh)) h.slots k.slots := by
    refine hm.slots.imp fun i hi hi' hslot => ⟨hslot.value_eq, ?_⟩
    intro p hp
    rcases List.mem_append.mp hp with hp | hp
    · exact hslot.key_iff p hp
    · obtain ⟨ha, hb⟩ := hfresh p hp
      refine iff_of_false ?_ ?_
      · intro hkey
        exact (hfree _ ha).2 (mem_keys.mpr ⟨i, (keyAt_getElem hi).trans hkey⟩)
      · intro hkey
        exact (hfree' _ hb).2 (mem_keys.mpr ⟨i, (keyAt_getElem hi').trans hkey⟩)
  have hnew : Slot.Mirrors (named ++ fresh) (⟨value, a⟩ : Slot α) ⟨value, b⟩ := by
    refine ⟨rfl, fun p hp => ?_⟩
    rcases List.mem_append.mp hp with hp | hp
    · exact iff_of_false (fun ha => (hfree _ ha).2 (hheld p hp).1)
        (fun hb => (hfree' _ hb).2 (hheld p hp).2)
    · exact iff_of_true (hfresh p hp).1 (hfresh p hp).2
  obtain ⟨capacity, hroom, ha⟩ := hs.room
  obtain ⟨capacity', hroom', ha'⟩ := hs'.room
  have hmade : k.makeRoom.map (fun roomy => (roomy.1.capacity, roomy.2)) =
      h.makeRoom.map fun roomy => (roomy.1.capacity, roomy.2) := by
    rw [map_makeRoom, map_makeRoom, hm.size_eq, hm.capacity_eq, hm.policy_eq, hm.slotSize_eq]
  rw [hroom, hroom'] at hmade
  obtain ⟨rfl, rfl⟩ := Prod.mk.inj (Except.ok.inj hmade)
  have hup : ∀ p i hi, p = h.priority → i = h.slots.size →
      (Sift.up h.priority (h.slots.push ⟨value, a⟩) h.slots.size (size_lt_size_push ..)).Related
        (Slot.Mirrors (named ++ fresh)) (Sift.up p (k.slots.push ⟨value, b⟩) i hi) := by
    rintro _ _ hi rfl rfl
    exact (hold.push hnew).up (fun _ _ => Slot.Mirrors.value_eq) _ _ _ hi
  have hsifted := hup k.priority k.slots.size (size_lt_size_push ..) hm.priority_eq hm.slots.size_eq
  have hframes : Frames { h with capacity := capacity' } { k with capacity := capacity' } :=
    ⟨hm.priority_eq, hm.policy_eq, hm.slotSize_eq, rfl, hm.version_eq⟩
  refine ⟨rfl, hframes.adopts hsifted ha ha', ?_⟩
  rw [ha.slots_eq, ha'.slots_eq]
  exact hsifted.slots

/-- Elements are added without handles, one after another, for as long as there is room. -/
theorem Mirrors.extend [BEq α] (hm : h.Mirrors named k) (hheld : h.Hold named k) {values : List α}
    {o o' : Outcome α (Reply α)} (he : (Op.extend values).Effect h m o)
    (he' : (Op.extend values).Effect k m' o') :
    o'.events = o.events ∧ o'.answer = o.answer ∧ o.heap.Mirrors named o'.heap := by
  induction values generalizing h k o o' with
  | nil =>
      cases he
      cases he'
      exact ⟨rfl, rfl, hm⟩
  | cons value rest ih =>
      cases he with
      | extendMore hs ho =>
          cases he' with
          | extendMore hs' ho' =>
              have hnone : ∀ p ∈ ([] : List (Handle × Handle)), none = some p.1.key ∧
                  none = some p.2.key := nofun
              obtain ⟨rfl, hmore⟩ := hm.stores hheld hs hs' hnone
              rw [List.append_nil] at hmore
              have hheld' : Hold named _ _ := fun p hp =>
                ⟨(hs.mem_keys _).mpr (Or.inr (hheld p hp).1),
                  (hs'.mem_keys _).mpr (Or.inr (hheld p hp).2)⟩
              obtain ⟨hevents, hanswer, hrest⟩ := ih hmore hheld' ho ho'
              exact ⟨by rw [hevents], hanswer, hrest⟩
          | extendFull hl => exact absurd (hm.atLimit_iff.mp hl) hs.not_atLimit
      | extendFull hl =>
          cases he' with
          | extendMore hs' ho' => exact absurd (hm.atLimit_iff.mpr hl) hs'.not_atLimit
          | extendFull hl' => exact ⟨rfl, rfl, hm⟩

/-! ### Taking out and replacing -/

/-- What a heap that has become empty reports of its storage depends on its capacity alone. -/
theorem storage_releaseEmpty (h : Heap α) (m : Mint) :
    (h.releaseEmpty m).events.filter Event.concernsStorage =
      if h.policy.shouldRelease h.capacity then [.released h.capacity h.policy.floor] else [] := by
  simp only [releaseEmpty, releaseStorage, releaseRegistry]
  repeat' split
  all_goals rfl

theorem Frames.touched (hf : h.Frames k) (slots slots' : Array (Slot α)) (r r' : Registry) :
    (h.touched slots r).Frames (k.touched slots' r') :=
  ⟨hf.priority_eq, hf.policy_eq, hf.slotSize_eq, hf.capacity_eq, congrArg (· + 1) hf.version_eq⟩

theorem Frames.releaseEmpty (hf : h.Frames k) :
    (h.releaseEmpty m).heap.Frames (k.releaseEmpty m').heap := by
  refine ⟨?_, ?_, ?_, ?_, ?_⟩
  · rw [priority_releaseEmpty, priority_releaseEmpty, hf.priority_eq]
  · rw [policy_releaseEmpty, policy_releaseEmpty, hf.policy_eq]
  · rw [slotSize_releaseEmpty, slotSize_releaseEmpty, hf.slotSize_eq]
  · rw [capacity_releaseEmpty, capacity_releaseEmpty, hf.policy_eq, hf.capacity_eq]
  · rw [version_releaseEmpty, version_releaseEmpty, hf.version_eq]

theorem Frames.storage_releaseEmpty (hf : h.Frames k) :
    (k.releaseEmpty m').events.filter Event.concernsStorage =
      (h.releaseEmpty m).events.filter Event.concernsStorage := by
  rw [Heap.storage_releaseEmpty, Heap.storage_releaseEmpty, hf.policy_eq, hf.capacity_eq]

/-- **The elements at the same place are taken out** of both. -/
theorem Mirrors.takesOut (hm : h.Mirrors named k) {i : Nat} {hi : i < h.slots.size}
    {hi' : i < k.slots.size} {c d : Change α α} (ht : h.TakesOut m i hi c)
    (ht' : k.TakesOut m' i hi' d) :
    d.events.filter Event.concernsStorage = c.events.filter Event.concernsStorage ∧
      d.answer = c.answer ∧ c.heap.Mirrors named d.heap := by
  have hgap := hm.slots.withoutSlot hi hi'
  have hanswer : d.answer = c.answer := by
    rw [ht.answer_eq, ht'.answer_eq]
    exact (hm.slots.getElem hi hi').value_eq
  obtain ⟨r, -, -, hc⟩ := ht
  obtain ⟨r', -, -, hc'⟩ := ht'
  cases hc with
  | refilled hs ha =>
      cases hc' with
      | refilled hs' ha' =>
          have hsettle : ∀ p hs', p = h.priority →
              (Sift.settle h.priority (withoutSlot h.slots i hi) i hs).Related
                (Slot.Mirrors named) (Sift.settle p (withoutSlot k.slots i hi') i hs') := by
            rintro _ hs' rfl
            exact hgap.settle (fun _ _ => Slot.Mirrors.value_eq) _ i hs hs'
          have hsifted := hsettle k.priority hs' hm.priority_eq
          have hframes : Frames { h with slots := withoutSlot h.slots i hi, registry := r }
              { k with slots := withoutSlot k.slots i hi', registry := r' } :=
            ⟨hm.priority_eq, hm.policy_eq, hm.slotSize_eq, hm.capacity_eq, hm.version_eq⟩
          refine ⟨rfl, hanswer, hframes.adopts hsifted ha ha', ?_⟩
          rw [ha.slots_eq, ha'.slots_eq]
          exact hsifted.slots
      | last hs' hne => exact absurd (hgap.size_eq ▸ hs) hs'
      | emptied hs' he => exact absurd (hgap.size_eq ▸ hs) hs'
  | last hs hne =>
      cases hc' with
      | refilled hs' ha' => exact absurd (hgap.size_eq ▸ hs') hs
      | last hs' hne' => exact ⟨rfl, hanswer, hm.touched .., hgap⟩
      | emptied hs' he => exact absurd (hgap.eq_empty_iff.mp he) hne
  | emptied hs he =>
      cases hc' with
      | refilled hs' ha' => exact absurd (hgap.size_eq ▸ hs') hs
      | last hs' hne => exact absurd (hgap.eq_empty_iff.mpr he) hne
      | emptied hs' he' =>
          have hframes := hm.touched (withoutSlot h.slots i hi) (withoutSlot k.slots i hi') r r'
          refine ⟨hframes.storage_releaseEmpty, hanswer, hframes.releaseEmpty, ?_⟩
          rw [Change.answering, Change.answering, slots_releaseEmpty, slots_releaseEmpty]
          exact hgap

/-- **The elements at the same place are replaced** in both, each under the key that it has. -/
theorem Mirrors.replaces (hm : h.Mirrors named k) {i : Nat} {hi : i < h.slots.size}
    {hi' : i < k.slots.size} {value : α} (hr : h.Replaces i hi value h')
    (hr' : k.Replaces i hi' value k') : h'.Mirrors named k' := by
  have hslot := hm.slots.getElem hi hi'
  have hset := hm.slots.set hi hi' (s := ⟨value, h.slots[i].key⟩) (t := ⟨value, k.slots[i].key⟩)
    ⟨rfl, hslot.key_iff⟩
  have hsettle : ∀ (p : Priority α)
      (hlt : i < (k.slots.set i (⟨value, k.slots[i].key⟩ : Slot α)).size), p = h.priority →
      (Sift.settle h.priority (h.slots.set i ⟨value, h.slots[i].key⟩) i (by simpa using hi)).Related
        (Slot.Mirrors named) (Sift.settle p (k.slots.set i ⟨value, k.slots[i].key⟩) i hlt) := by
    rintro _ hlt rfl
    exact hset.settle (fun _ _ => Slot.Mirrors.value_eq) _ i _ hlt
  have hsifted := hsettle k.priority (by simpa using hi') hm.priority_eq
  refine ⟨hm.adopts hsifted hr hr', ?_⟩
  rw [Adopts.slots_eq hr, Adopts.slots_eq hr']
  exact hsifted.slots

theorem Mirrors.clears (hm : h.Mirrors named k) {c d : Change α Unit} (hc : h.Clears m c)
    (hc' : k.Clears m' d) :
    d.events.filter Event.concernsStorage = c.events.filter Event.concernsStorage ∧
      c.heap.Mirrors named d.heap := by
  have hslots := hc.slots_eq
  have hslots' := hc'.slots_eq
  obtain ⟨r, released, -, -, rfl, rfl⟩ := hc
  obtain ⟨r', released', -, -, rfl, rfl⟩ := hc'
  have hemptied : Frames { h with slots := #[], registry := r }
      { k with slots := #[], registry := r' } :=
    ⟨hm.priority_eq, hm.policy_eq, hm.slotSize_eq, hm.capacity_eq, hm.version_eq⟩
  have hframes : Frames (Heap.releaseEmpty _ m).heap (Heap.releaseEmpty _ m').heap :=
    hemptied.releaseEmpty
  refine ⟨hemptied.storage_releaseEmpty, ⟨hframes.priority_eq, hframes.policy_eq,
    hframes.slotSize_eq, hframes.capacity_eq, congrArg (· + 1) hm.version_eq⟩, ?_⟩
  rw [hslots, hslots']
  exact .empty

/-- A row of removals goes on, or ends, at the same place for both. -/
theorem Mirrors.popsMany (hm : h.Mirrors named k) {count : Nat}
    {o o' : Outcome α (List α × Option Refusal)} (hp : h.PopsMany m count o)
    (hp' : k.PopsMany m' count o') :
    o'.events.filter Event.concernsStorage = o.events.filter Event.concernsStorage ∧
      o'.answer = o.answer := by
  induction hp generalizing k m' o' with
  | done =>
      cases hp'
      exact ⟨rfl, rfl⟩
  | stopped he =>
      cases hp' with
      | stopped he' => exact ⟨rfl, rfl⟩
      | @next _ _ _ hi' =>
          rw [hm.slots.size_eq, he] at hi'
          exact absurd hi' (Nat.lt_irrefl 0)
  | @next h m count hi c o ht ho ih =>
      cases hp' with
      | stopped he' =>
          rw [hm.slots.eq_empty_iff.mp he'] at hi
          exact absurd hi (Nat.lt_irrefl 0)
      | next ht' ho' =>
          obtain ⟨hevents, hanswer, hrest⟩ := hm.takesOut ht ht'
          obtain ⟨hlater, hanswers⟩ := ih hrest ho'
          refine ⟨?_, by rw [hanswer, hanswers]⟩
          rw [List.filter_append, List.filter_append, hevents, hlater]

/-! ### Handles that name the same place -/

/-- The two handles of a pair name elements, one in each heap. -/
def BothName (h k : Heap α) (p : Handle × Handle) : Prop :=
  h.containsHandle p.1 = true ∧ k.containsHandle p.2 = true

instance (h k : Heap α) (p : Handle × Handle) : Decidable (h.BothName k p) :=
  inferInstanceAs (Decidable (_ ∧ _))

theorem containsHandle_iff {x : Handle} :
    h.containsHandle x = true ↔ ∃ i, h.registry.position x = .ok i := by
  unfold containsHandle
  cases h.registry.position x <;> simp [Except.isOk, Except.toBool]

theorem WellFormed.containsHandle_iff (hw : h.WellFormed) {x : Handle} :
    h.containsHandle x = true ↔ h.registry.Issues x ∧ some x.key ∈ h.keys := by
  simp only [Heap.containsHandle_iff, hw.position_eq_ok_iff, exists_and_left, mem_keys]

theorem hold_of_bothName (hw : h.WellFormed) (hw' : k.WellFormed)
    (hn : ∀ p ∈ named, h.BothName k p) : h.Hold named k := fun p hp =>
  ⟨(hw.containsHandle_iff.mp (hn p hp).1).2, (hw'.containsHandle_iff.mp (hn p hp).2).2⟩

/-- **The handles of a pair name the same place.** -/
theorem Mirrors.exists_position (hm : h.Mirrors named k) (hw : h.WellFormed) (hw' : k.WellFormed)
    {p : Handle × Handle} (hp : p ∈ named) (hn : h.BothName k p) :
    ∃ i, h.registry.position p.1 = .ok i ∧ k.registry.position p.2 = .ok i := by
  obtain ⟨i, hi⟩ := Heap.containsHandle_iff.mp hn.1
  obtain ⟨j, hj⟩ := Heap.containsHandle_iff.mp hn.2
  have hkey := (hm.keyAt_iff hp i).mp (hw.position_eq_ok_iff.mp hi).2
  exact ⟨i, hi, hw'.position_eq_ok_iff.mpr ⟨(hw'.position_eq_ok_iff.mp hj).1, hkey⟩⟩

end Heap

/-! ### Any request -/

/-- What is the same of two outcomes: the elements in their places, what was reported of the
storage, and the answers but for the names in them. -/
structure Outcome.Mirrors (named : List (Handle × Handle)) (o o' : Outcome α (Reply α)) : Prop where
  heap : o.heap.Mirrors named o'.heap
  events_eq : o'.events.filter Event.concernsStorage = o.events.filter Event.concernsStorage
  answer_eq : o'.answer.map Reply.unnamed = o.answer.map Reply.unnamed

/-- The same request to two heaps: each adds the same element in its own way, or takes out or
replaces the element that a pair of handles names, or neither request has to do with handles. -/
inductive Op.Corresponds (named : List (Handle × Handle)) (h k : Heap α) : Op α → Op α → Prop
  | add {value : α} {op op' : Op α} (hop : h.Adds value op) (hop' : k.Adds value op') :
      Corresponds named h k op op'
  | extend (values : List α) : Corresponds named h k (.extend values) (.extend values)
  | pop : Corresponds named h k .pop .pop
  | remove {p : Handle × Handle} (hp : p ∈ named) :
      Corresponds named h k (.remove p.1) (.remove p.2)
  | removeValue (value : α) : Corresponds named h k (.removeValue value) (.removeValue value)
  | removeFirst (holds : α → Bool) : Corresponds named h k (.removeFirst holds) (.removeFirst holds)
  | update {p : Handle × Handle} (hp : p ∈ named) (value : α) :
      Corresponds named h k (.update p.1 value) (.update p.2 value)
  | clear : Corresponds named h k .clear .clear
  | trim : Corresponds named h k .trim .trim

namespace Heap

variable [BEq α] {h k : Heap α} {m m' : Mint} {named : List (Handle × Handle)} {op op' : Op α}

/-- **The ways to add an element are one.** There is no room for it, or it is stored, under a key or
none. -/
theorem Adds.run_cases {value : α} (ha : h.Adds value op) (hw : h.WellFormed) (m : Mint) :
    (∃ r, h.AtLimit ∧ op.run h m = .failed { h with registry := r } m (.fault .capacityOverflow)) ∨
      ∃ r x events h', Stores { h with registry := r } ⟨value, Option.map Handle.key x⟩ events h' ∧
        (op.run h m).heap = h' ∧ (op.run h m).events = events ∧
        (op.run h m).answer.map Reply.unnamed = .ok .done ∧ op.names (op.run h m).answer = x := by
  have he := Op.effect hw m op
  generalize op.run h m = o at he
  cases ha with
  | push =>
      cases he with
      | pushed hs => exact Or.inr ⟨h.registry, none, _, _, hs, rfl, rfl, rfl, rfl⟩
      | pushFull hl => exact Or.inl ⟨h.registry, hl, rfl⟩
  | insert hkey =>
      cases he with
      | @inserted _ _ _ _ x r _ hres hr hg hs =>
          exact Or.inr ⟨r, some x, _, _, hs, rfl, rfl, rfl, rfl⟩
      | @insertFull _ _ _ _ r hres hr hg hl => exact Or.inl ⟨r, hl, rfl⟩
      | insertExhausted he => exact absurd he hkey
  | @insertWith x hx =>
      cases he with
      | insertedWith hu hs => exact Or.inr ⟨h.registry, some x, _, _, hs, rfl, rfl, rfl, rfl⟩
      | insertWithFull hu hl => exact Or.inl ⟨h.registry, hl, rfl⟩
      | insertWithRefused hu =>
          rw [hx] at hu
          cases hu

omit [BEq α] in
/-- A registry has no part in what is the same of two heaps. -/
theorem Mirrors.with_registry (hm : h.Mirrors named k) (r r' : Registry) :
    Mirrors named { h with registry := r } { k with registry := r' } :=
  ⟨⟨hm.priority_eq, hm.policy_eq, hm.slotSize_eq, hm.capacity_eq, hm.version_eq⟩, hm.slots⟩

theorem Mirrors.run_add {value : α} (hm : h.Mirrors named k) (hheld : h.Hold named k)
    (hw : h.WellFormed) (hw' : k.WellFormed) (ha : h.Adds value op) (ha' : k.Adds value op') :
    (op.run h m).Mirrors (named ++ pairOf (op.names (op.run h m).answer)
      (op'.names (op'.run k m').answer)) (op'.run k m') := by
  rcases ha.run_cases hw m with ⟨r, hl, hfull⟩ | ⟨r, x, events, h', hs, hh, hevents, hanswer, hx⟩
  · rcases ha'.run_cases hw' m' with ⟨r', -, hfull'⟩ | ⟨r', x', events', k', hs', -⟩
    · rw [hfull, hfull', Outcome.failed, Op.names_error, pairOf_none, List.append_nil]
      exact ⟨hm.with_registry r r', rfl, rfl⟩
    · exact absurd (hm.atLimit_iff.mpr hl) hs'.not_atLimit
  · rcases ha'.run_cases hw' m' with ⟨r', hl', -⟩ | ⟨r', x', events', k', hs', hk, hevents',
      hanswer', hx'⟩
    · exact absurd (hm.atLimit_iff.mp hl') hs.not_atLimit
    · have hkeys : ∀ p ∈ pairOf x x',
          x.map Handle.key = some p.1.key ∧ x'.map Handle.key = some p.2.key := by
        intro p hp
        obtain ⟨rfl, rfl⟩ := mem_pairOf.mp hp
        exact ⟨rfl, rfl⟩
      obtain ⟨heq, hstored⟩ := (hm.with_registry r r').stores hheld hs hs' hkeys
      rw [hx, hx']
      exact ⟨by rw [hh, hk]; exact hstored, by rw [hevents, hevents', heq],
        by rw [hanswer, hanswer']⟩

omit [BEq α] in
/-- Where the same has been taken out of both, it is answered with. -/
theorem Mirrors.taken (hm : h.Mirrors named k) (f : α → Reply α) {i : Nat} {hi : i < h.slots.size}
    {hi' : i < k.slots.size} {c d : Change α α} (ht : h.TakesOut m i hi c)
    (ht' : k.TakesOut m' i hi' d) :
    Outcome.Mirrors named ⟨c.heap, c.mint, c.events, .ok (f c.answer)⟩
      ⟨d.heap, d.mint, d.events, .ok (f d.answer)⟩ := by
  obtain ⟨hevents, hanswer, hheap⟩ := hm.takesOut ht ht'
  exact ⟨hheap, hevents, by rw [hanswer]⟩

theorem Mirrors.run_extend (hm : h.Mirrors named k) (hheld : h.Hold named k) (hw : h.WellFormed)
    (hw' : k.WellFormed) (values : List α) :
    ((Op.extend values).run h m).Mirrors named ((Op.extend values).run k m') := by
  obtain ⟨hevents, hanswer, hheap⟩ :=
    hm.extend hheld (Op.effect hw m (.extend values)) (Op.effect hw' m' (.extend values))
  exact ⟨hheap, congrArg _ hevents, congrArg _ hanswer⟩

theorem Mirrors.run_pop (hm : h.Mirrors named k) (hw : h.WellFormed) (hw' : k.WellFormed) :
    (Op.pop.run h m).Mirrors named (Op.pop.run k m') := by
  by_cases he : h.slots = #[]
  · simp only [Op.run, WellFormed.pop_of_empty he,
      WellFormed.pop_of_empty (hm.slots.eq_empty_iff.mpr he)]
    exact ⟨hm, rfl, rfl⟩
  · have he' : k.slots ≠ #[] := fun he' => he (hm.slots.eq_empty_iff.mp he')
    obtain ⟨c, hpop, ht⟩ := hw.pop_eq (Array.size_pos_iff.mpr he) m
    obtain ⟨d, hpop', ht'⟩ := hw'.pop_eq (Array.size_pos_iff.mpr he') m'
    simp only [Op.run, hpop, hpop']
    exact hm.taken .value ht ht'

theorem Mirrors.run_remove (hm : h.Mirrors named k) (hw : h.WellFormed) (hw' : k.WellFormed)
    {p : Handle × Handle} (hp : p ∈ named) (hn : h.BothName k p) :
    ((Op.remove p.1).run h m).Mirrors named ((Op.remove p.2).run k m') := by
  obtain ⟨i, hi, hi'⟩ := hm.exists_position hw hw' hp hn
  obtain ⟨c, hrem, ht⟩ := hw.removeAt (hw.lt_size_of_position hi) m
  obtain ⟨d, hrem', ht'⟩ := hw'.removeAt (hw'.lt_size_of_position hi') m'
  simp only [Op.run, Heap.remove, hi, hi', hrem, hrem']
  exact hm.taken .value ht ht'

omit [BEq α] in
/-- The first element with a property is taken out of both, or there is none in either. -/
theorem Mirrors.removeFirst_cases (hm : h.Mirrors named k) (hw : h.WellFormed)
    (hw' : k.WellFormed) (m m' : Mint) (holds : α → Bool) :
    (h.removeFirst m holds = .done h m none ∧ k.removeFirst m' holds = .done k m' none) ∨
      ∃ i, ∃ (hi : i < h.slots.size) (hi' : i < k.slots.size) (c d : Change α α),
        h.TakesOut m i hi c ∧ k.TakesOut m' i hi' d ∧
        h.removeFirst m holds = ⟨c.heap, c.mint, c.events, .ok (some c.answer)⟩ ∧
        k.removeFirst m' holds = ⟨d.heap, d.mint, d.events, .ok (some d.answer)⟩ := by
  have hfound := hm.indexOf?_eq holds
  unfold Heap.removeFirst
  rw [hfound]
  cases hf : h.indexOf? holds with
  | none => exact Or.inl ⟨rfl, rfl⟩
  | some i =>
      have hi := lt_size_of_indexOf? hf
      have hi' := lt_size_of_indexOf? (hfound.trans hf)
      obtain ⟨c, hrem, ht⟩ := hw.removeAt hi m
      obtain ⟨d, hrem', ht'⟩ := hw'.removeAt hi' m'
      refine Or.inr ⟨i, hi, hi', c, d, ht, ht', ?_, ?_⟩
      · simp only [hrem]
        rfl
      · simp only [hrem']
        rfl

theorem Mirrors.run_removeFirst (hm : h.Mirrors named k) (hw : h.WellFormed) (hw' : k.WellFormed)
    (holds : α → Bool) :
    ((Op.removeFirst holds).run h m).Mirrors named ((Op.removeFirst holds).run k m') := by
  rcases hm.removeFirst_cases hw hw' m m' holds with ⟨hl, hr⟩ |
    ⟨i, hi, hi', c, d, ht, ht', hl, hr⟩
  · simp only [Op.run, hl, hr]
    exact ⟨hm, rfl, rfl⟩
  · simp only [Op.run, hl, hr]
    exact hm.taken (fun value => .found (some value)) ht ht'

theorem Mirrors.run_removeValue (hm : h.Mirrors named k) (hw : h.WellFormed) (hw' : k.WellFormed)
    (value : α) :
    ((Op.removeValue value).run h m).Mirrors named ((Op.removeValue value).run k m') := by
  rcases hm.removeFirst_cases hw hw' m m' (· == value) with ⟨hl, hr⟩ |
    ⟨i, hi, hi', c, d, ht, ht', hl, hr⟩
  · simp only [Op.run, Heap.removeValue, hl, hr]
    exact ⟨hm, rfl, rfl⟩
  · simp only [Op.run, Heap.removeValue, hl, hr]
    exact hm.taken (fun _ => .flag true) ht ht'

theorem Mirrors.run_update (hm : h.Mirrors named k) (hw : h.WellFormed) (hw' : k.WellFormed)
    {p : Handle × Handle} (hp : p ∈ named) (hn : h.BothName k p) (value : α) :
    ((Op.update p.1 value).run h m).Mirrors named ((Op.update p.2 value).run k m') := by
  obtain ⟨i, hpos, hpos'⟩ := hm.exists_position hw hw' hp hn
  have hi := hw.lt_size_of_position hpos
  have hi' := hw'.lt_size_of_position hpos'
  obtain ⟨g, hr, hrep⟩ := hw.replaceAt hi m value
  obtain ⟨g', hr', hrep'⟩ := hw'.replaceAt hi' m' value
  simp only [Op.run, Heap.update, hpos, hpos', hrep, hrep']
  refine ⟨hm.replaces hr hr', rfl, ?_⟩
  simp only [Outcome.map, Outcome.ofChange_ok, (hm.slots.getElem hi hi').value_eq]

theorem Mirrors.run_clear (hm : h.Mirrors named k) (hw : h.WellFormed) (hw' : k.WellFormed) :
    (Op.clear.run h m).Mirrors named (Op.clear.run k m') := by
  obtain ⟨c, hc, hclear⟩ := hw.clear m
  obtain ⟨d, hc', hclear'⟩ := hw'.clear m'
  obtain ⟨hevents, hheap⟩ := hm.clears hc hc'
  simp only [Op.run, hclear, hclear']
  exact ⟨hheap, hevents, rfl⟩

theorem Mirrors.run_trim (hm : h.Mirrors named k) :
    (Op.trim.run h m).Mirrors named (Op.trim.run k m') := by
  have hleft : k.policy.trimmed k.size k.capacity = h.policy.trimmed h.size h.capacity := by
    rw [hm.policy_eq, hm.size_eq, hm.capacity_eq]
  have hmeasure : k.policy.shouldTrim k.size k.capacity =
      h.policy.shouldTrim h.size h.capacity := by
    rw [hm.policy_eq, hm.size_eq, hm.capacity_eq]
  simp only [Op.run, Heap.trim, hmeasure]
  split
  · refine ⟨⟨⟨hm.priority_eq, hm.policy_eq, hm.slotSize_eq, hleft, hm.version_eq⟩, hm.slots⟩, ?_,
      rfl⟩
    simp only [Outcome.map, hm.capacity_eq, hm.policy_eq, hm.size_eq]
  · exact ⟨hm, rfl, rfl⟩

end Heap

/-- **The same request to two heaps** with the same elements in the same places, where the handles
of each pair name elements: it is answered alike, and the same elements are in the same places
afterwards. -/
theorem Op.Corresponds.run [BEq α] {named : List (Handle × Handle)} {h k : Heap α} {op op' : Op α}
    (hc : Op.Corresponds named h k op op') (hm : h.Mirrors named k)
    (hn : ∀ p ∈ named, h.BothName k p) (hw : h.WellFormed) (hw' : k.WellFormed) (m m' : Mint) :
    (op.run h m).Mirrors (named ++ pairOf (op.names (op.run h m).answer)
      (op'.names (op'.run k m').answer)) (op'.run k m') := by
  have hheld := Heap.hold_of_bothName hw hw' hn
  have hnone : ∀ {o o' : Outcome α (Reply α)} (y : Option Handle), o.Mirrors named o' →
      o.Mirrors (named ++ pairOf none y) o' := by
    intro o o' y ho
    rwa [pairOf_none, List.append_nil]
  cases hc with
  | add hop hop' => exact hm.run_add hheld hw hw' hop hop'
  | extend values => exact hnone _ (hm.run_extend hheld hw hw' values)
  | pop => exact hnone _ (hm.run_pop hw hw')
  | remove hp => exact hnone _ (hm.run_remove hw hw' hp (hn _ hp))
  | removeValue value => exact hnone _ (hm.run_removeValue hw hw' value)
  | removeFirst holds => exact hnone _ (hm.run_removeFirst hw hw' holds)
  | update hp value => exact hnone _ (hm.run_update hw hw' hp (hn _ hp) value)
  | clear => exact hnone _ (hm.run_clear hw hw')
  | trim => exact hnone _ hm.run_trim

theorem Heap.Mirrors.drain {named : List (Handle × Handle)} {h k : Heap α}
    (hm : h.Mirrors named k) (hw : h.WellFormed) (hw' : k.WellFormed) (m m' : Mint) :
    (k.drain m').events.filter Event.concernsStorage =
        (h.drain m).events.filter Event.concernsStorage ∧
      (k.drain m').answer = (h.drain m).answer := by
  have hp := hw'.popsMany m' k.size
  rw [hm.size_eq] at hp
  obtain ⟨hevents, hanswer⟩ := hm.popsMany (hw.popsMany m h.size) hp
  unfold Heap.drain
  rw [hm.size_eq]
  exact ⟨hevents, congrArg (Except.map Prod.fst) hanswer⟩

/-- A request that has to do with handles alone changes the registry alone, and handles that name
elements go on doing so. -/
theorem Op.Effect.of_handlesOnly [BEq α] {h : Heap α} {m : Mint} {op : Op α}
    {o : Outcome α (Reply α)} (he : op.Effect h m o) (hw : h.WellFormed)
    (hop : op.handlesOnly = true) :
    (∃ r, o.heap = { h with registry := r }) ∧
      ∀ x, h.containsHandle x = true → o.heap.containsHandle x = true := by
  cases he with
  | reserved hres hr hg =>
      refine ⟨⟨_, rfl⟩, fun x hx => ?_⟩
      obtain ⟨hissued, hkey⟩ := hw.containsHandle_iff.mp hx
      exact (hw.of_grants hr hg).containsHandle_iff.mpr
        ⟨(hg.issues_iff x).mpr (Or.inr hissued), hkey⟩
  | @released _ _ y _ hu hr hwith =>
      refine ⟨⟨_, rfl⟩, fun x hx => ?_⟩
      obtain ⟨hissued, hkey⟩ := hw.containsHandle_iff.mp hx
      obtain ⟨-, hfree, -⟩ := hw.unboundKey_eq_ok_iff.mp hu
      refine (hw.of_withdraws hr hfree hwith).containsHandle_iff.mpr
        ⟨(hwith.issues_iff x).mpr ⟨hissued, ?_⟩, hkey⟩
      intro hmem
      exact hfree (List.mem_singleton.mp hmem ▸ hkey)
  | exhausted | releaseRefused => exact ⟨⟨h.registry, rfl⟩, fun _ hx => hx⟩
  | _ => cases hop

end TrackedHeap
