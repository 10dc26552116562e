import TrackedHeap.Cursor
import TrackedHeap.Heap.Copy
import TrackedHeap.World

/-!
# TrackedHeap.Proofs.Heap.Alike

**Heaps that differ in their storage alone** stay so, and answer alike.

The policy and the capacity are looked at in four places: to make room, to trim, and to release the
storage and the registry of a heap that has become empty. None of them touches a slot or a key, and
only the first can end a request: where there is no room. So two requests on heaps that are alike
(`Heap.Alike`) leave alike heaps and answer alike, unless one of them found no room
(`AlikeUnlessFull`). The relation is handed through `bind`, which leaves one short proof for each
operation; nothing is asked of the heaps, not even that they are well formed.
-/

namespace TrackedHeap

variable {α β γ : Type}

/-- Two results of a computation: one was cut off for want of room, or both were cut off by the
same fault, or both went through and `R` holds of what they left. -/
inductive AlikeUnlessFull (R : β → γ → Prop) : Except Fault β → Except Fault γ → Prop
  | fullLeft (y : Except Fault γ) : AlikeUnlessFull R (.error .capacityOverflow) y
  | fullRight (x : Except Fault β) : AlikeUnlessFull R x (.error .capacityOverflow)
  | cutOff (fault : Fault) : AlikeUnlessFull R (.error fault) (.error fault)
  | done {b : β} {c : γ} (h : R b c) : AlikeUnlessFull R (.ok b) (.ok c)

namespace AlikeUnlessFull

variable {β' γ' : Type} {R : β → γ → Prop} {S : β' → γ' → Prop} {x : Except Fault β}
  {y : Except Fault γ}

theorem bind (hx : AlikeUnlessFull R x y) {f : β → Except Fault β'} {g : γ → Except Fault γ'}
    (hf : ∀ b c, R b c → AlikeUnlessFull S (f b) (g c)) :
    AlikeUnlessFull S (x >>= f) (y >>= g) := by
  cases hx with
  | fullLeft y => exact .fullLeft _
  | fullRight x => exact .fullRight _
  | cutOff fault => exact .cutOff fault
  | done h => exact hf _ _ h

/-- A step that does not look at the storage is the same on both sides. -/
theorem bind_same {z : Except Fault β} {f : β → Except Fault β'} {g : β → Except Fault γ'}
    (hf : ∀ b, AlikeUnlessFull S (f b) (g b)) : AlikeUnlessFull S (z >>= f) (z >>= g) := by
  cases z with
  | error fault => exact .cutOff fault
  | ok b => exact hf b

theorem map (hx : AlikeUnlessFull R x y) {f : β → β'} {g : γ → γ'}
    (hf : ∀ b c, R b c → S (f b) (g c)) : AlikeUnlessFull S (x.map f) (y.map g) := by
  cases hx with
  | fullLeft y => exact .fullLeft _
  | fullRight x => exact .fullRight _
  | cutOff fault => exact .cutOff fault
  | done h => exact .done (hf _ _ h)

end AlikeUnlessFull

/-- Two heaps that differ at most in their policies and capacities. -/
structure Heap.Alike (h k : Heap α) : Prop where
  id_eq : k.id = h.id
  priority_eq : k.priority = h.priority
  slots_eq : k.slots = h.slots
  registry_eq : k.registry = h.registry
  version_eq : k.version = h.version

/-- Two changes that differ at most in what they did to the storage. -/
structure Change.Alike (c d : Change α β) : Prop where
  heap : c.heap.Alike d.heap
  mint_eq : d.mint = c.mint
  answer_eq : d.answer = c.answer

/-- Two outcomes that differ at most in what was done to the storage. -/
structure Outcome.Alike (o p : Outcome α β) : Prop where
  heap : o.heap.Alike p.heap
  mint_eq : p.mint = o.mint
  answer_eq : p.answer = o.answer

/-- The answer to a request that found no room. -/
def IsFull (answer : Except Failure β) : Prop := answer = .error (.fault .capacityOverflow)

/-- Two outcomes are alike, or one of the requests found no room. -/
def Outcome.AlikeUnlessFull (o p : Outcome α β) : Prop :=
  IsFull o.answer ∨ IsFull p.answer ∨ o.Alike p

namespace Heap

theorem Alike.refl (h : Heap α) : h.Alike h := ⟨rfl, rfl, rfl, rfl, rfl⟩

/-- A heap that is alike is the heap itself under another storage. -/
theorem Alike.exists_with {h k : Heap α} (ha : h.Alike k) : ∃ policy slotSize capacity floor_lt,
    k = { h with
      policy := policy, slotSize := slotSize, capacity := capacity, floor_lt := floor_lt } := by
  rcases h with ⟨id, priority, policy, size, slots, capacity, registry, version, hfloor⟩
  rcases k with ⟨id', priority', policy', size', slots', capacity', registry', version', hfloor'⟩
  obtain ⟨rfl, rfl, rfl, rfl, rfl⟩ := ha
  exact ⟨policy', size', capacity', hfloor', rfl⟩

variable {h k : Heap α}

/-! ### The steps of a request -/

theorem alike_makeRoom (ha : h.Alike k) :
    AlikeUnlessFull (fun x y => x.1.Alike y.1) h.makeRoom k.makeRoom := by
  obtain ⟨policy, size, capacity, hfloor, rfl⟩ := ha.exists_with
  unfold makeRoom
  dsimp only
  repeat' split
  all_goals first | exact .done ⟨rfl, rfl, rfl, rfl, rfl⟩ | exact .fullLeft _ | exact .fullRight _

theorem alike_adopt (ha : h.Alike k) (s : Sifted α) :
    AlikeUnlessFull Alike (h.adopt s) (k.adopt s) := by
  obtain ⟨policy, size, capacity, hfloor, rfl⟩ := ha.exists_with
  exact .bind_same fun r => .done ⟨rfl, rfl, rfl, rfl, rfl⟩

theorem alike_append (ha : h.Alike k) (m : Mint) (slot : Slot α) :
    AlikeUnlessFull Change.Alike (h.append m slot) (k.append m slot) := by
  refine (alike_makeRoom ha).bind ?_
  rintro ⟨roomy, events⟩ ⟨roomy', events'⟩ hroomy
  obtain ⟨policy, size, capacity, hfloor, rfl⟩ := Alike.exists_with hroomy
  refine (alike_adopt hroomy _).bind ?_
  intro longer longer' hlonger
  exact .done ⟨hlonger, rfl, rfl⟩

/-- What the policy decides when a heap becomes empty is whether storage is given up. Whether the
registry is renewed is up to the registry. -/
theorem alike_releaseEmpty (ha : h.Alike k) (m : Mint) :
    (h.releaseEmpty m).Alike (k.releaseEmpty m) := by
  obtain ⟨policy, size, capacity, hfloor, rfl⟩ := ha.exists_with
  simp only [releaseEmpty, releaseStorage, releaseRegistry]
  repeat' split
  all_goals exact ⟨⟨rfl, rfl, rfl, rfl, rfl⟩, rfl, rfl⟩

/-- Alike heaps are alike with the same slots, registry and version put into both. -/
theorem Alike.with_slots (ha : h.Alike k) (slots : Array (Slot α)) (r : Registry)
    (version : UInt64) :
    Alike { h with slots := slots, registry := r, version := version }
      { k with slots := slots, registry := r, version := version } :=
  ⟨ha.id_eq, ha.priority_eq, rfl, rfl, rfl⟩

theorem alike_removeAt (ha : h.Alike k) (m : Mint) (i : Nat) :
    AlikeUnlessFull Change.Alike (h.removeAt m i) (k.removeAt m i) := by
  have hwith := ha.with_slots
  obtain ⟨policy, size, capacity, hfloor, rfl⟩ := ha.exists_with
  unfold removeAt
  dsimp only at hwith ⊢
  split
  · next hi =>
      refine .bind_same fun r => ?_
      split
      · refine (alike_adopt (hwith (withoutSlot h.slots i hi) r h.version) _).bind ?_
        intro settled settled' hsettled
        exact .done ⟨hsettled, rfl, rfl⟩
      · have htouched := hwith (withoutSlot h.slots i hi) r (h.version + 1)
        split
        · have hreleased := alike_releaseEmpty htouched m
          exact .done ⟨hreleased.heap, hreleased.mint_eq, rfl⟩
        · exact .done ⟨htouched, rfl, rfl⟩
  · exact .cutOff _

theorem alike_replaceAt (ha : h.Alike k) (m : Mint) (i : Nat) (value : α) :
    AlikeUnlessFull Change.Alike (h.replaceAt m i value) (k.replaceAt m i value) := by
  have hself := ha
  obtain ⟨policy, size, capacity, hfloor, rfl⟩ := ha.exists_with
  unfold replaceAt
  dsimp only
  split
  · refine (alike_adopt hself _).bind ?_
    intro settled settled' hsettled
    exact .done ⟨hsettled, rfl, rfl⟩
  · exact .cutOff _

end Heap

/-! ### Outcomes -/

namespace Outcome.AlikeUnlessFull

variable {o p : Outcome α β}

theorem of_alike (h : o.Alike p) : o.AlikeUnlessFull p := Or.inr (Or.inr h)

theorem ofChange {h k : Heap α} (ha : h.Alike k) (m : Mint) {x y : Except Fault (Change α β)}
    (hx : TrackedHeap.AlikeUnlessFull Change.Alike x y) :
    (Outcome.ofChange h m x).AlikeUnlessFull (Outcome.ofChange k m y) := by
  cases hx with
  | fullLeft y => exact Or.inl rfl
  | fullRight x => exact Or.inr (Or.inl rfl)
  | cutOff fault => exact .of_alike ⟨ha, rfl, rfl⟩
  | done h => exact .of_alike ⟨h.heap, h.mint_eq, by rw [ofChange_ok, ofChange_ok, h.answer_eq]⟩

/-- Failing in the same way leaves alike heaps alike. -/
theorem failed {h k : Heap α} (ha : h.Alike k) (m : Mint) (failure : Failure) :
    (Outcome.failed h m failure : Outcome α β).AlikeUnlessFull (.failed k m failure) :=
  .of_alike ⟨ha, rfl, rfl⟩

theorem done {h k : Heap α} (ha : h.Alike k) (m : Mint) (answer : β) :
    (Outcome.done h m answer).AlikeUnlessFull (.done k m answer) :=
  .of_alike ⟨ha, rfl, rfl⟩

theorem map (hp : o.AlikeUnlessFull p) (f : β → γ) : (o.map f).AlikeUnlessFull (p.map f) := by
  have hfull : ∀ {q : Outcome α β}, IsFull q.answer → IsFull (q.map f).answer := by
    intro q hq
    show q.answer.map f = _
    rw [hq]
    rfl
  rcases hp with hl | hr | ha
  · exact Or.inl (hfull hl)
  · exact Or.inr (Or.inl (hfull hr))
  · refine .of_alike ⟨ha.heap, ha.mint_eq, ?_⟩
    show p.answer.map f = o.answer.map f
    rw [ha.answer_eq]

theorem andThen (hp : o.AlikeUnlessFull p) {next : Heap α → Mint → β → Outcome α γ}
    (hnext : ∀ h k m b, h.Alike k → (next h m b).AlikeUnlessFull (next k m b)) :
    (o.andThen next).AlikeUnlessFull (p.andThen next) := by
  have hfull : ∀ {q : Outcome α β}, IsFull q.answer → IsFull (q.andThen next).answer := by
    intro q hq
    simp only [Outcome.andThen, show q.answer = _ from hq]
    rfl
  rcases hp with hl | hr | ha
  · exact Or.inl (hfull hl)
  · exact Or.inr (Or.inl (hfull hr))
  · unfold Outcome.andThen
    rw [ha.answer_eq, ha.mint_eq]
    cases o.answer with
    | error failure => exact .of_alike ⟨ha.heap, rfl, rfl⟩
    | ok b =>
        rcases hnext _ _ o.mint b ha.heap with hl | hr | hlast
        · exact Or.inl hl
        · exact Or.inr (Or.inl hr)
        · exact .of_alike ⟨hlast.heap, hlast.mint_eq, hlast.answer_eq⟩

end Outcome.AlikeUnlessFull

/-! ### Requests -/

namespace Heap

variable {h k : Heap α}

theorem alike_push (ha : h.Alike k) (m : Mint) (value : α) :
    (h.push m value).AlikeUnlessFull (k.push m value) :=
  .ofChange ha m (alike_append ha m _)

theorem alike_extend (ha : h.Alike k) (m : Mint) (values : List α) :
    (h.extend m values).AlikeUnlessFull (k.extend m values) := by
  induction values generalizing h k m with
  | nil => exact .done ha m ()
  | cons value rest ih => exact (alike_push ha m value).andThen fun _ _ m _ ha => ih ha m

theorem alike_reserve (ha : h.Alike k) (m : Mint) :
    (h.reserve m).AlikeUnlessFull (k.reserve m) := by
  unfold reserve
  rw [ha.registry_eq]
  split
  · next x r hres =>
      exact .of_alike ⟨⟨ha.id_eq, ha.priority_eq, ha.slots_eq, rfl, ha.version_eq⟩, rfl, rfl⟩
  · exact .failed ha m _

theorem alike_insert (ha : h.Alike k) (m : Mint) (value : α) :
    (h.insert m value).AlikeUnlessFull (k.insert m value) := by
  refine (alike_reserve ha m).andThen ?_
  intro h k m x ha
  refine .ofChange ha m ((alike_append ha m _).map ?_)
  intro c d hc
  exact ⟨hc.heap, hc.mint_eq, rfl⟩

theorem alike_release (ha : h.Alike k) (m : Mint) (x : Handle) :
    (h.release m x).AlikeUnlessFull (k.release m x) := by
  unfold release
  rw [ha.registry_eq]
  split
  · exact .failed ha m _
  · split
    · exact .of_alike ⟨⟨ha.id_eq, ha.priority_eq, ha.slots_eq, rfl, ha.version_eq⟩, rfl, rfl⟩
    · exact .failed ha m _

theorem alike_insertWith (ha : h.Alike k) (m : Mint) (x : Handle) (value : α) :
    (h.insertWith m x value).AlikeUnlessFull (k.insertWith m x value) := by
  unfold insertWith
  rw [ha.registry_eq]
  split
  · exact .failed ha m _
  · exact .ofChange ha m (alike_append ha m _)

theorem alike_pop (ha : h.Alike k) (m : Mint) : (h.pop m).AlikeUnlessFull (k.pop m) := by
  unfold pop isEmpty size
  rw [ha.slots_eq]
  split
  · exact .failed ha m _
  · exact .ofChange ha m (alike_removeAt ha m 0)

theorem alike_remove (ha : h.Alike k) (m : Mint) (x : Handle) :
    (h.remove m x).AlikeUnlessFull (k.remove m x) := by
  unfold remove
  rw [ha.registry_eq]
  split
  · exact .failed ha m _
  · exact .ofChange ha m (alike_removeAt ha m _)

theorem alike_removeFirst (ha : h.Alike k) (m : Mint) (holds : α → Bool) :
    (h.removeFirst m holds).AlikeUnlessFull (k.removeFirst m holds) := by
  unfold removeFirst indexOf?
  rw [ha.slots_eq]
  split
  · exact .done ha m none
  · exact (Outcome.AlikeUnlessFull.ofChange ha m (alike_removeAt ha m _)).map some

theorem alike_update (ha : h.Alike k) (m : Mint) (x : Handle) (value : α) :
    (h.update m x value).AlikeUnlessFull (k.update m x value) := by
  unfold update
  rw [ha.registry_eq]
  split
  · exact .failed ha m _
  · exact .ofChange ha m (alike_replaceAt ha m _ value)

theorem alike_clear (ha : h.Alike k) (m : Mint) : (h.clear m).AlikeUnlessFull (k.clear m) := by
  have hwith := ha.with_slots #[]
  refine .ofChange ha m ?_
  unfold keys
  rw [ha.registry_eq, ha.slots_eq]
  refine .bind_same fun r => ?_
  have hemptied :
      Alike { h with slots := #[], registry := r } { k with slots := #[], registry := r } :=
    ⟨ha.id_eq, ha.priority_eq, rfl, rfl, ha.version_eq⟩
  have hreleased := alike_releaseEmpty hemptied m
  refine .done ⟨⟨hreleased.heap.id_eq, hreleased.heap.priority_eq, hreleased.heap.slots_eq,
    hreleased.heap.registry_eq, ?_⟩, hreleased.mint_eq, rfl⟩
  show k.version + 1 = h.version + 1
  rw [ha.version_eq]

theorem alike_trim (ha : h.Alike k) (m : Mint) : (h.trim m).AlikeUnlessFull (k.trim m) := by
  obtain ⟨policy, size, capacity, hfloor, rfl⟩ := ha.exists_with
  unfold trim
  dsimp only
  repeat' split
  all_goals exact .of_alike ⟨⟨rfl, rfl, rfl, rfl, rfl⟩, rfl, rfl⟩

/-- A row of `pop`s goes on, or ends, at the same place for both. -/
theorem alike_popMany (ha : h.Alike k) (m : Mint) (count : Nat) :
    (h.popMany m count).AlikeUnlessFull (k.popMany m count) := by
  have hfull : ∀ {g : Heap α} {m : Mint} {count : Nat}, IsFull (g.pop m).answer →
      IsFull (g.popMany m (count + 1)).answer := by
    intro g m count hg
    simp only [popMany, Outcome.andThen, show (g.pop m).answer = _ from hg]
    rfl
  induction count generalizing h k m with
  | zero => exact .done ha m _
  | succ count ih =>
      have hpop := alike_pop ha m
      rcases hpop with hl | hr | hp
      · exact Or.inl (hfull hl)
      · exact Or.inr (Or.inl (hfull hr))
      · unfold popMany
        dsimp only
        rw [hp.answer_eq]
        split
        · exact .of_alike ⟨hp.heap, hp.mint_eq, rfl⟩
        · refine (Outcome.AlikeUnlessFull.of_alike hp).andThen ?_
          intro h k m value ha
          exact (ih ha m).map _

theorem alike_drain (ha : h.Alike k) (m : Mint) : (h.drain m).AlikeUnlessFull (k.drain m) := by
  unfold drain size
  rw [ha.slots_eq]
  exact (alike_popMany ha m _).map Prod.fst

end Heap

/-- **Requests on alike heaps** leave alike heaps, draw the same tokens and answer alike, unless
one of them found no room. -/
theorem Op.run_alike [BEq α] {h k : Heap α} (ha : h.Alike k) (m : Mint) :
    ∀ op : Op α, (op.run h m).AlikeUnlessFull (op.run k m)
  | .push value => (Heap.alike_push ha m value).map _
  | .insert value => (Heap.alike_insert ha m value).map _
  | .extend values => (Heap.alike_extend ha m values).map _
  | .reserve => (Heap.alike_reserve ha m).map _
  | .release x => (Heap.alike_release ha m x).map _
  | .insertWith x value => (Heap.alike_insertWith ha m x value).map _
  | .pop => (Heap.alike_pop ha m).map _
  | .remove x => (Heap.alike_remove ha m x).map _
  | .removeValue _ => ((Heap.alike_removeFirst ha m _).map Option.isSome).map _
  | .removeFirst holds => (Heap.alike_removeFirst ha m holds).map _
  | .update x value => (Heap.alike_update ha m x value).map _
  | .clear => (Heap.alike_clear ha m).map _
  | .trim => (Heap.alike_trim ha m).map _

end TrackedHeap
