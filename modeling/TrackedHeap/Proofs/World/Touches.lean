import TrackedHeap.Proofs.Heap.Elementwise
import TrackedHeap.Proofs.Heap.Versions
import TrackedHeap.Proofs.Sift.Course
import TrackedHeap.Proofs.World.Runs

/-!
# TrackedHeap.Proofs.World.Touches

**The version counts touches**: one for each request that is completed, and one more if it put an
element down that did not stay where it was put.

Elements may be equal, and a contradictory ranking exchanges even those, so whether an element
stayed cannot be seen from the elements. Numbers tell it: each element gets the number of its
place, a new one the first number that is left over, and elements carry their numbers along
(`Heap.numbered`). Requests do not look at the numbers, so a numbered heap does what the heap does.
A sift that counts once more has put another number at the place where it began.
-/

namespace TrackedHeap

variable {α β : Type}

/-! ### Numbers -/

/-- An element with a number that it carries along. -/
structure Numbered (α : Type) where
  /-- The element. -/
  element : α
  /-- The number. -/
  number : Nat

/-- Numbers are not looked at. -/
instance [BEq α] : BEq (Numbered α) := ⟨fun a b => a.element == b.element⟩

/-- The ranking of the elements, whatever their numbers. -/
def Priority.numbered (p : Priority α) : Priority (Numbered α) :=
  ⟨fun a b => p.compare a.element b.element, p.description⟩

/-- The heap with each element numbered by its place. -/
def Heap.numbered (h : Heap α) : Heap (Numbered α) where
  id := h.id
  priority := h.priority.numbered
  policy := h.policy
  slotSize := h.slotSize
  slots := h.slots.mapIdx fun i slot => ⟨⟨slot.value, i⟩, slot.key⟩
  capacity := h.capacity
  registry := h.registry
  version := h.version
  floor_lt := h.floor_lt

/-- The request with `n` for the number of each element that it brings. -/
def Op.numbered (n : Nat) (op : Op α) : Op (Numbered α) := op.lift Numbered.element (⟨·, n⟩)

/-- The number of the element at a place. -/
def Heap.numberAt? (k : Heap (Numbered α)) (i : Nat) : Option Nat :=
  k.slots[i]?.map (·.value.number)

/-- Whether an element that was put at a place is not there; both go by their numbers. -/
def Heap.misses (k : Heap (Numbered α)) (put : Option (Nat × Nat)) : Bool :=
  put.any fun (i, number) => k.numberAt? i != some number

/-! ### Touches -/

/-- The last element fills the place `i`, unless that is its own. -/
def Heap.refills? (h : Heap α) (i : Nat) : Option (Nat × Nat) :=
  if i + 1 < h.size then some (i, h.size - 1) else none

/-- The place where a completed request puts an element, before it is sifted, and the number of
that element. -/
def Op.puts? [BEq α] (h : Heap α) : Op α → Option (Nat × Nat)
  | push _ | insert _ | insertWith _ _ => some (h.size, h.size)
  | update x _ => (h.registry.position x).toOption.map (·, h.size)
  | pop => h.refills? 0
  | remove x => (h.registry.position x).toOption.bind h.refills?
  | removeValue value => (h.indexOf? (· == value)).bind h.refills?
  | removeFirst holds => (h.indexOf? holds).bind h.refills?
  | extend _ | reserve | release _ | clear | trim => none

/-- Whether a request puts an element down that does not stay where it is put. -/
def Op.strays [BEq α] (h : Heap α) (m : Mint) (op : Op α) : Bool :=
  ((op.numbered h.size).run h.numbered m).heap.misses (op.puts? h)

/-- How often a request that brings one element at most touches a heap: not if it is not completed,
and otherwise once, or twice if an element strays. -/
def Op.touchesOnce [BEq α] (h : Heap α) (m : Mint) (op : Op α) : Nat :=
  if op.alters h m (op.run h m).answer then 1 + (op.strays h m).toNat else 0

/-- How often a heap is touched while elements are added one after another. -/
def Heap.extendTouches [BEq α] (h : Heap α) (m : Mint) : List α → Nat
  | [] => 0
  | value :: rest =>
      let o := h.push m value
      match o.answer with
      | .ok () => (Op.push value).touchesOnce h m + o.heap.extendTouches o.mint rest
      | .error _ => 0

/-- How often a request touches a heap. -/
def Op.touches [BEq α] (h : Heap α) (m : Mint) : Op α → Nat
  | extend values => h.extendTouches m values
  | op => op.touchesOnce h m

/-! ### Sifts -/

section Marks

/-- `b` is read off the slot at `i`, and off no other. -/
def Marks (g : Slot α → β) (slots : Array (Slot α)) (i : Nat) (b : β) : Prop :=
  ∀ j, slots[j]?.map g = some b ↔ j = i

variable {p : Priority α} {slots : Array (Slot α)} {i j d : Nat} {s : Sifted α} {g : Slot α → β}
  {b : β}

/-- A slot that is told from all others has risen if it is not found where it was. -/
theorem Rise.moved_iff_ne (hs : Rise p slots i d s) (hg : Marks g slots i b) :
    s.moved = true ↔ s.slots[i]?.map g ≠ some b := by
  rw [hs.moved_iff]
  cases d with
  | zero => simp [hs.raised.eq_of_zero, (hg i).mpr rfl]
  | succ d =>
      have h0 : 0 < i := hs.raised.pos 0 (Nat.succ_pos d)
      have hpassed : s.slots[i]? = slots[parent i]? := hs.raised.passed 0 (Nat.succ_pos d)
      rw [hpassed, ne_eq, hg]
      exact iff_of_true (Nat.succ_pos d) (Nat.ne_of_lt (parent_lt h0))

theorem Fall.moved_iff_ne (hs : Fall p slots i j d s) (hg : Marks g slots i b) :
    s.moved = true ↔ s.slots[i]?.map g ≠ some b := by
  rw [hs.moved_iff]
  cases d with
  | zero => simp [← hs.raised.eq_of_zero, (hg i).mpr rfl]
  | succ d =>
      obtain ⟨c, h0, hpc, -, hpassed⟩ := hs.passes_child
      rw [hpassed, ne_eq, hg]
      exact iff_of_true (Nat.succ_pos d) (Nat.ne_of_gt (hpc ▸ parent_lt h0))

namespace Sift

theorem moved_up_iff_ne {hi : i < slots.size} (hg : Marks g slots i b) :
    (up p slots i hi).moved = true ↔ (up p slots i hi).slots[i]?.map g ≠ some b := by
  obtain ⟨d, hs⟩ := exists_rise p slots i hi
  exact hs.moved_iff_ne hg

theorem moved_settle_iff_ne {hi : i < slots.size} (hg : Marks g slots i b) :
    (settle p slots i hi).moved = true ↔ (settle p slots i hi).slots[i]?.map g ≠ some b := by
  rcases settle_cases p slots i hi with ⟨d, hs⟩ | ⟨-, j, d, hs⟩
  · exact hs.moved_iff_ne hg
  · exact hs.moved_iff_ne hg

end Sift

end Marks

/-! ### Numbered heaps -/

namespace Heap

variable {h : Heap α} {i : Nat} {value : α} {key : Option Nat}

theorem reads_numbered (h : Heap α) : h.numbered.Reads Numbered.element h := by
  refine ⟨h.priority, fun _ _ => rfl, ?_⟩
  have hslots : h.numbered.slots.map (Slot.map Numbered.element) = h.slots := by
    refine Array.ext_getElem? fun i => ?_
    simp only [numbered, Array.getElem?_map, Array.getElem?_mapIdx]
    cases h.slots[i]? <;> rfl
  simp only [read, hslots]
  rfl

theorem size_numbered (h : Heap α) : h.numbered.slots.size = h.size := Array.size_mapIdx ..

/-- The number of an element is its place. -/
theorem number_numbered (h : Heap α) (j : Nat) :
    h.numbered.slots[j]?.map (·.value.number) = if j < h.size then some j else none := by
  simp only [numbered, Array.getElem?_mapIdx]
  by_cases hj : j < h.size
  · rw [Array.getElem?_eq_getElem hj, if_pos hj]
    rfl
  · rw [Array.getElem?_eq_none (Nat.le_of_not_lt hj), if_neg hj]
    rfl

theorem number_numbered_eq_iff {n : Nat} (j : Nat) :
    h.numbered.slots[j]?.map (·.value.number) = some n ↔ j = n ∧ n < h.size := by
  rw [number_numbered]
  split
  · next hj => simp only [Option.some.injEq]; omega
  · next hj => simp only [reduceCtorEq, false_iff]; omega

theorem marks_push : Marks (·.value.number)
    (h.numbered.slots.push ⟨⟨value, h.size⟩, key⟩) h.numbered.slots.size h.size := by
  intro j
  rw [Array.getElem?_push]
  split
  · next hj => exact iff_of_true rfl hj
  · next hj => rw [size_numbered] at hj ⊢; rw [number_numbered_eq_iff]; omega

theorem marks_set (hi : i < h.numbered.slots.size) : Marks (·.value.number)
    (h.numbered.slots.set i ⟨⟨value, h.size⟩, key⟩) i h.size := by
  intro j
  rw [Array.getElem?_set]
  split
  · next hj => exact iff_of_true rfl hj.symm
  · next hj => rw [number_numbered_eq_iff]; omega

/-- Where the gap is closed, the last element is the one that is there now. -/
theorem marks_withoutSlot (hi : i < h.numbered.slots.size)
    (hs : i < (withoutSlot h.numbered.slots i hi).size) :
    Marks (·.value.number) (withoutSlot h.numbered.slots i hi) i (h.size - 1) := by
  intro j
  rw [size_withoutSlot, size_numbered] at hs
  rw [getElem?_withoutSlot, size_numbered]
  split
  · split
    · next hj => rw [number_numbered_eq_iff]; omega
    · next hj => rw [number_numbered_eq_iff]; omega
  · next hj => simp only [Option.map_none, reduceCtorEq, false_iff]; omega

/-- The place of the first element with a property is found with numbers or without. -/
theorem refills?_of_indexOf? {holds : α → Bool}
    (hf : h.numbered.indexOf? (holds ∘ Numbered.element) = some i) :
    (h.indexOf? holds).bind h.refills? = h.refills? i := by
  rw [← h.reads_numbered.indexOf?_eq, hf]
  rfl

/-! ### Single requests -/

variable {m : Mint} {n : Nat} {events : List Event} {r : Registry} {k k' : Heap (Numbered α)}
  {c : Change (Numbered α) (Numbered α)}

/-- A sift is counted once, and once more if the number is missed where it began. -/
theorem Adopts.version_of_number {s : Sifted (Numbered α)} (ha : k.Adopts s k')
    (hs : s.moved = true ↔ s.slots[i]?.map (·.value.number) ≠ some n) :
    k'.version = k.version + UInt64.ofNat (1 + (k'.misses (some (i, n))).toNat) := by
  have hmisses : k'.misses (some (i, n)) = s.moved := by
    rw [Bool.eq_iff_iff, hs, misses, Option.any_some, bne_iff_ne, numberAt?, ha.slots_eq]
  rw [ha.version_eq, hmisses]
  cases s.moved <;> rfl

/-- Storing an element touches the heap, twice if the element does not stay behind the last one. -/
theorem Stores.version_of_number
    (hs : Stores { h.numbered with registry := r } ⟨⟨value, h.size⟩, key⟩ events k') :
    k'.version = h.version + UInt64.ofNat (1 + (k'.misses (some (h.size, h.size))).toNat) := by
  obtain ⟨capacity, -, ha⟩ := hs.room
  have hversion := ha.version_of_number (Sift.moved_up_iff_ne marks_push)
  rwa [size_numbered] at hversion

theorem Replaces.version_of_number {hi : i < h.numbered.slots.size}
    (hr : h.numbered.Replaces i hi ⟨value, h.size⟩ k') :
    k'.version = h.version + UInt64.ofNat (1 + (k'.misses (some (i, h.size))).toNat) :=
  Adopts.version_of_number hr (Sift.moved_settle_iff_ne (marks_set hi))

/-- Taking an element out touches the heap, twice if the last one fills the place and does not stay
there. -/
theorem TakesOut.version_of_number {hi : i < h.numbered.slots.size}
    (ht : h.numbered.TakesOut m i hi c) :
    c.heap.version = h.version + UInt64.ofNat (1 + (c.heap.misses (h.refills? i)).toNat) := by
  obtain ⟨r, -, -, hc⟩ := ht
  have hiff : i < (withoutSlot h.numbered.slots i hi).size ↔ i + 1 < h.size := by
    rw [size_withoutSlot, size_numbered]
    omega
  unfold refills?
  cases hc with
  | refilled hs ha =>
      rw [if_pos (hiff.mp hs)]
      exact ha.version_of_number (Sift.moved_settle_iff_ne (marks_withoutSlot hi hs))
  | last hs hne =>
      rw [if_neg (hs ∘ hiff.mpr)]
      rfl
  | emptied hs he =>
      rw [if_neg (hs ∘ hiff.mpr)]
      exact version_releaseEmpty _ m

end Heap

namespace Op

variable {h : Heap α} {m : Mint}

open Heap

/-- Whether a request is completed is read off its answer, with numbers or without. -/
theorem alters_numbered {op : Op α} (hop : ∀ values, op ≠ .extend values) {n : Nat}
    {k : Heap (Numbered α)} {x : Except Failure (Reply (Numbered α))}
    {y : Except Failure (Reply α)} (hxy : Agree (fun b a => a = b.map Numbered.element) x y) :
    (op.numbered n).alters k m x = op.alters h m y := by
  cases op with
  | extend values => exact absurd rfl (hop values)
  | removeValue value | removeFirst holds =>
      cases hxy with
      | error e => rfl
      | @ok b a hab =>
          subst hab
          cases b with
          | found element => cases element <;> rfl
          | _ => rfl
  | _ =>
      cases hxy with
      | error e => rfl
      | ok hab => rfl

variable [BEq α]

/-- **A numbered heap counts what is missed**, once for each completed request and once more where
an element strays. -/
theorem Effect.version_of_number {op : Op α} (hop : ∀ values, op ≠ .extend values)
    {o : Outcome (Numbered α) (Reply (Numbered α))}
    (he : (op.numbered h.size).Effect h.numbered m o) :
    o.heap.version = h.version + UInt64.ofNat
      (if (op.numbered h.size).alters h.numbered m o.answer then
        1 + (o.heap.misses (op.puts? h)).toNat else 0) := by
  cases op with
  | extend values => exact absurd rfl (hop values)
  | push value =>
      cases he with
      | pushed hs => exact hs.version_of_number
      | pushFull hl => exact (UInt64.add_zero _).symm
  | insert value =>
      cases he with
      | inserted hres hr hg hs => exact hs.version_of_number
      | insertFull | insertExhausted => exact (UInt64.add_zero _).symm
  | insertWith x value =>
      cases he with
      | insertedWith hu hs => exact hs.version_of_number
      | insertWithFull | insertWithRefused => exact (UInt64.add_zero _).symm
  | pop =>
      cases he with
      | popped ht => exact ht.version_of_number
      | popEmpty he => exact (UInt64.add_zero _).symm
  | remove x =>
      cases he with
      | @removed _ _ _ i _ _ hp ht =>
          have hputs : (Op.remove x).puts? h = h.refills? i := by
            simp only [puts?, show h.registry.position x = .ok i from hp, Except.toOption,
              Option.bind_some]
          exact hputs ▸ ht.version_of_number
      | removeRefused hp => exact (UInt64.add_zero _).symm
  | removeValue value =>
      cases he with
      | @removedValue _ _ _ i _ _ hf ht =>
          have hputs : (Op.removeValue value).puts? h = h.refills? i := refills?_of_indexOf? hf
          exact hputs ▸ ht.version_of_number
      | noValue hf => exact (UInt64.add_zero _).symm
  | removeFirst holds =>
      cases he with
      | @removedFirst _ _ _ i _ _ hf ht =>
          have hputs : (Op.removeFirst holds).puts? h = h.refills? i := refills?_of_indexOf? hf
          exact hputs ▸ ht.version_of_number
      | noneFirst hf => exact (UInt64.add_zero _).symm
  | update x value =>
      cases he with
      | @updated _ _ _ _ _ i _ hp hr =>
          have hputs : (Op.update x value).puts? h = some (i, h.size) := by
            simp only [puts?, show h.registry.position x = .ok i from hp, Except.toOption,
              Option.map_some]
          exact hputs ▸ hr.version_of_number
      | updateRefused hp => exact (UInt64.add_zero _).symm
  | clear =>
      cases he with
      | cleared hc =>
          obtain ⟨r, released, -, -, -, rfl⟩ := hc
          rfl
  | reserve | release x | trim => cases he <;> exact (UInt64.add_zero _).symm

/-- A request does to the numbered heap what it does to the heap. -/
theorem reads_numbered (h : Heap α) (m : Mint) (op : Op α) (n : Nat) :
    ((op.numbered n).run h.numbered m).Reads (fun b a => a = b.map Numbered.element)
      Numbered.element (op.run h m) :=
  run_reads (f := Numbered.element) (fun _ _ => rfl) (fun _ => rfl) h.reads_numbered m op

theorem version_eq_touchesOnce (hw : h.WellFormed) (m : Mint) (op : Op α)
    (hop : ∀ values, op ≠ .extend values) :
    (op.run h m).heap.version = h.version + UInt64.ofNat (op.touchesOnce h m) := by
  have hreads := reads_numbered h m op h.size
  have he := effect (h.reads_numbered.wellFormed hw) m (op.numbered h.size)
  rw [hreads.heap.version_eq, he.version_of_number hop, alters_numbered hop hreads.answer]
  rfl

end Op

variable [BEq α]

namespace Heap

/-- While elements are added one after another, what one of them does the others add to. -/
theorem WellFormed.version_extend {h : Heap α} (hw : h.WellFormed) (m : Mint) (values : List α) :
    (h.extend m values).heap.version = h.version + UInt64.ofNat (h.extendTouches m values) := by
  induction values generalizing h with
  | nil => exact (UInt64.add_zero _).symm
  | cons value rest ih =>
      rcases hw.push_cases m value with ⟨h', events, hs, hpush⟩ | ⟨-, hpush⟩
      · have hone : h'.version = h.version + UInt64.ofNat ((Op.push value).touchesOnce h m) := by
          simpa only [Op.run, hpush, Outcome.map_heap] using
            Op.version_eq_touchesOnce hw m (.push value) (by simp)
        simp only [extend, extendTouches, hpush, Outcome.andThen]
        rw [ih (hs.wellFormed hw), hone, UInt64.ofNat_add, UInt64.add_assoc]
      · simp only [extend, extendTouches, hpush, Outcome.andThen]
        exact (UInt64.add_zero _).symm

/-- **The version counts touches.** -/
theorem WellFormed.version_run {h : Heap α} (hw : h.WellFormed) (m : Mint) (op : Op α) :
    (op.run h m).heap.version = h.version + UInt64.ofNat (op.touches h m) := by
  cases op with
  | extend values => exact hw.version_extend m values
  | _ => exact Op.version_eq_touchesOnce hw m _ nofun

end Heap

namespace World

/-- **The version counts exactly the touches.** Whatever the ranking, a request to a heap that a run
reaches moves its version by as often as the request touches it, and no other command moves the
version. A completed request touches the heap once, and once more if an element that it puts down
does not stay there: the new one behind the last or at the place of the one it replaces, or the last
one at the place of one taken out. This is read off the numbered heap, to which the request does
what it does to the heap. -/
theorem version_counts_touches {commands : List (Command α)} {w : World α}
    (hrun : World.run {} commands = some w) {n : Nat} {h : Heap α} (hn : w.heap? n = some h) :
    (∀ op, ∃ s h', w.exec (.act n op) = some s ∧ s.world.heap? n = some h' ∧
      h'.version = h.version + UInt64.ofNat (op.touches h w.mint) ∧
      s.answer = (op.run h w.mint).answer ∧ h' = (op.run h w.mint).heap ∧
      ((op.numbered h.size).run h.numbered w.mint).Reads
        (fun b a => a = b.map Numbered.element) Numbered.element (op.run h w.mint)) ∧
    ∀ command s h', (∀ op, command ≠ .act n op) → w.exec command = some s →
      s.world.heap? n = some h' → h'.version = h.version := by
  refine ⟨?_, ?_⟩
  · intro op
    obtain ⟨s, hx, hans, -, hn'⟩ := exists_exec_act hn op
    exact ⟨s, _, hx, hn', (heap_wellFormed hrun hn).version_run w.mint op, hans, rfl,
      Op.reads_numbered h w.mint op h.size⟩
  · intro command s h' hcommand hx hn'
    rcases heap?_of_exec hx hn' with ⟨hsame, -⟩ | ⟨op, -, rfl, -⟩ | ⟨-, -, -, -, -, -, rfl, -⟩
    · cases hn.symm.trans hsame
      rfl
    · exact absurd rfl (hcommand op)
    · exact absurd (lt_size_of_heap? hn) (Nat.lt_irrefl _)

/-- A run to which this applies. In the heap of `2`, `3` and `4` that it reaches, an element put
behind the last one rises or stays, and so does the last one sink or stay that fills a place. -/
theorem version_counts_touches_of_three : ∃ (w : World Nat) (h : Heap Nat),
    World.run {} [.create {} .natural, .act 0 (.push 2), .act 0 (.push 3), .act 0 (.push 4)] =
      some w ∧ w.heap? 0 = some h ∧
    ∀ p ∈ ([(.push 1, 2), (.push 5, 1), (.extend [1, 5], 3), (.pop, 2), (.removeValue 3, 1),
        (.removeValue 4, 1), (.removeValue 5, 0), (.clear, 1), (.reserve, 0), (.trim, 0)] :
        List (Op Nat × Nat)),
      ∃ s h', w.exec (.act 0 p.1) = some s ∧ s.world.heap? 0 = some h' ∧
        h'.version = h.version + UInt64.ofNat p.2 := by
  have hcheck : ((World.run {} [.create {} .natural, .act 0 (.push 2), .act 0 (.push 3),
      .act 0 (.push 4)]).any fun w : World Nat => (w.heap? 0).any fun h => decide
        (∀ p ∈ ([(.push 1, 2), (.push 5, 1), (.extend [1, 5], 3), (.pop, 2), (.removeValue 3, 1),
          (.removeValue 4, 1), (.removeValue 5, 0), (.clear, 1), (.reserve, 0), (.trim, 0)] :
          List (Op Nat × Nat)),
          p.1.touches h w.mint = p.2)) = true := by decide +kernel
  obtain ⟨w, hrun, hw⟩ := (Option.any_eq_true ..).mp hcheck
  obtain ⟨h, hn, htouches⟩ := (Option.any_eq_true ..).mp hw
  refine ⟨w, h, hrun, hn, fun p hp => ?_⟩
  obtain ⟨s, h', hx, hn', hversion, -⟩ := (version_counts_touches hrun hn).1 p.1
  exact ⟨s, h', hx, hn', of_decide_eq_true htouches p hp ▸ hversion⟩

end World

end TrackedHeap
