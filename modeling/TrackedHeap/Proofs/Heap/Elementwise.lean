import TrackedHeap.Proofs.Heap.Renamed

/-!
# TrackedHeap.Proofs.Heap.Elementwise

**Requests do not look into elements.** A heap asks its ranking how elements compare, and a request
may ask whether elements are equal or have a property. Beyond that elements are moved and handed
out as they are. So if what lies in a heap is read through a function, and ranking, equality and
properties depend on what is read alone, then each request does to the heap what it does to the
heap as read (`Op.run_reads`).

The relation is handed through `bind`, which leaves one short proof for each operation; nothing is
asked of the heaps.
-/

namespace TrackedHeap

variable {α β γ δ : Type} {f : β → α}

/-! ### What has elements in it -/

/-- The slot as it is read. -/
def Slot.map (f : β → α) (slot : Slot β) : Slot α := ⟨f slot.value, slot.key⟩

/-- The sift as it is read. -/
def Sifted.map (f : β → α) (s : Sifted β) : Sifted α := ⟨s.slots.map (Slot.map f), s.path⟩

/-- The reply as it is read. -/
def Reply.map (f : β → α) : Reply β → Reply α
  | done => .done
  | handle x => .handle x
  | value element => .value (f element)
  | found element => .found (element.map f)
  | values elements => .values (elements.map f)
  | flag answer => .flag answer
  | number n => .number n

/-- Asking of elements what `p` is asked of what is read of them. -/
def Priority.Reads (f : β → α) (q : Priority β) (p : Priority α) : Prop :=
  ∀ a b, q.compare a b = p.compare (f a) (f b)

/-- The heap as it is read, ranked by `p`. -/
def Heap.read (f : β → α) (p : Priority α) (k : Heap β) : Heap α where
  id := k.id
  priority := p
  policy := k.policy
  slotSize := k.slotSize
  slots := k.slots.map (Slot.map f)
  capacity := k.capacity
  registry := k.registry
  version := k.version
  floor_lt := k.floor_lt

/-- `h` is what is read of `k`, and they are ranked alike. -/
def Heap.Reads (f : β → α) (k : Heap β) (h : Heap α) : Prop :=
  ∃ p, k.priority.Reads f p ∧ h = k.read f p

/-- The request that comes to `op` when it is read: `g` gives the elements that are handed over. -/
def Op.lift (f : β → α) (g : α → β) : Op α → Op β
  | push value => .push (g value)
  | insert value => .insert (g value)
  | extend values => .extend (values.map g)
  | reserve => .reserve
  | release x => .release x
  | insertWith x value => .insertWith x (g value)
  | pop => .pop
  | remove x => .remove x
  | removeValue value => .removeValue (g value)
  | removeFirst holds => .removeFirst (holds ∘ f)
  | update x value => .update x (g value)
  | clear => .clear
  | trim => .trim

/-- Two changes of which the second is read of the first, with answers that `A` relates. -/
structure Change.Reads (A : γ → δ → Prop) (f : β → α) (c : Change β γ) (d : Change α δ) : Prop where
  heap : c.heap.Reads f d.heap
  mint_eq : d.mint = c.mint
  events_eq : d.events = c.events
  answer : A c.answer d.answer

/-- The same of two outcomes. -/
structure Outcome.Reads (A : γ → δ → Prop) (f : β → α) (o : Outcome β γ) (o' : Outcome α δ) :
    Prop where
  heap : o.heap.Reads f o'.heap
  mint_eq : o'.mint = o.mint
  events_eq : o'.events = o.events
  answer : Agree A o.answer o'.answer

/-! ### Sifting -/

section Slots

variable {slots : Array (Slot β)}

theorem map_swap {i j : Nat} (hi : i < slots.size) (hj : j < slots.size) :
    (slots.map (Slot.map f)).swap i j (by simpa using hi) (by simpa using hj) =
      (slots.swap i j).map (Slot.map f) := by
  refine Array.ext_getElem? fun l => ?_
  rw [getElem?_swap_eq _ (by simpa using hi) (by simpa using hj), Array.getElem?_map,
    Array.getElem?_map, getElem?_swap_eq slots hi hj]

theorem map_withoutSlot {i : Nat} (hi : i < slots.size) :
    Heap.withoutSlot (slots.map (Slot.map f)) i (by simpa using hi) =
      (Heap.withoutSlot slots i hi).map (Slot.map f) := by
  simp only [Heap.withoutSlot, Array.size_map, Array.map_pop]
  rw [map_swap hi (by omega)]

end Slots

namespace Sift

variable {q : Priority β} {p : Priority α} (hq : q.Reads f p) {slots : Array (Slot β)} {i : Nat}
include hq

theorem exceeds_map {j : Nat} (hi : i < slots.size) (hj : j < slots.size)
    (hi' : i < (slots.map (Slot.map f)).size) (hj' : j < (slots.map (Slot.map f)).size) :
    p.exceeds (slots.map (Slot.map f))[i].value (slots.map (Slot.map f))[j].value =
      q.exceeds slots[i].value slots[j].value := by
  simp only [Array.getElem_map, Slot.map, Priority.exceeds, hq slots[i].value slots[j].value]

theorem up_map (hi : i < slots.size) (hi' : i < (slots.map (Slot.map f)).size) :
    up p (slots.map (Slot.map f)) i hi' = (up q slots i hi).map f := by
  fun_induction up q slots i hi with
  | case1 slots i hi h0 hp hx ih =>
      rw [up, dif_pos h0, if_pos ((exceeds_map hq hp hi _ _).trans hx)]
      simp only [map_swap hp hi]
      rw [ih]
      rfl
  | case2 slots i hi h0 hp hx =>
      rw [up, dif_pos h0, if_neg fun h => hx ((exceeds_map hq hp hi _ _).symm.trans h)]
      rfl
  | case3 slots i hi h0 =>
      rw [up, dif_neg h0]
      rfl

theorem firstChild_map (hl : leftChild i < slots.size)
    (hl' : leftChild i < (slots.map (Slot.map f)).size) :
    firstChild p (slots.map (Slot.map f)) i hl' = firstChild q slots i hl := by
  unfold firstChild
  by_cases hr : leftChild i + 1 < slots.size
  · have hr' : leftChild i + 1 < (slots.map (Slot.map f)).size := by simpa using hr
    rw [dif_pos hr, dif_pos hr', exceeds_map hq hl hr]
  · rw [dif_neg hr, dif_neg (by simpa using hr)]

theorem down_map (hi : i < slots.size) (hi' : i < (slots.map (Slot.map f)).size) :
    down p (slots.map (Slot.map f)) i hi' = (down q slots i hi).map f := by
  fun_induction down q slots i hi with
  | case1 slots i hi hl hc hx ih =>
      rw [down, dif_pos (by simpa using hl)]
      simp only [firstChild_map hq hl]
      rw [if_pos ((exceeds_map hq hi hc _ _).trans hx)]
      simp only [map_swap hi hc]
      rw [ih]
      rfl
  | case2 slots i hi hl hc hx =>
      rw [down, dif_pos (by simpa using hl)]
      simp only [firstChild_map hq hl]
      rw [if_neg fun h => hx ((exceeds_map hq hi hc _ _).symm.trans h)]
      rfl
  | case3 slots i hi hl =>
      rw [down, dif_neg (by simpa using hl)]
      rfl

theorem settle_map (hi : i < slots.size) (hi' : i < (slots.map (Slot.map f)).size) :
    settle p (slots.map (Slot.map f)) i hi' = (settle q slots i hi).map f := by
  unfold settle
  dsimp only
  rw [up_map hq hi, down_map hq hi]
  exact (apply_ite (Sifted.map f) ..).symm

end Sift

/-! ### The steps of a request -/

namespace Registry

theorem place_map (r : Registry) (slots : Array (Slot β)) (i : Nat) :
    r.place (slots.map (Slot.map f)) i = r.place slots i := by
  unfold place
  rw [Array.getElem?_map]
  rcases slots[i]? with _ | ⟨_, _ | key⟩ <;> rfl

theorem follow_map (r : Registry) (slots : Array (Slot β)) (path : List Nat) :
    r.follow (slots.map (Slot.map f)) path = r.follow slots path := by
  induction path generalizing r with
  | nil => rfl
  | cons i rest ih => simp only [follow, place_map, ih]

end Registry

namespace Heap

variable {k : Heap β} {h : Heap α} {m : Mint}

theorem Reads.registry_eq (hk : k.Reads f h) : h.registry = k.registry := by
  obtain ⟨p, -, rfl⟩ := hk
  rfl

theorem Reads.version_eq (hk : k.Reads f h) : h.version = k.version := by
  obtain ⟨p, -, rfl⟩ := hk
  rfl

/-- Soundness is a matter of keys and records alone. -/
theorem Reads.wellFormed (hk : k.Reads f h) (hw : h.WellFormed) : k.WellFormed := by
  obtain ⟨p, -, rfl⟩ := hk
  have hkeys : ∀ i, keyAt (k.read f p).slots i = keyAt k.slots i := by
    intro i
    simp only [keyAt, read, Array.getElem?_map]
    cases k.slots[i]? <;> rfl
  exact ⟨hw.registry, fun i key => hkeys i ▸ hw.tied i key⟩

theorem Reads.with_registry (hk : k.Reads f h) (r : Registry) :
    Reads f { k with registry := r } { h with registry := r } := by
  obtain ⟨p, hp, rfl⟩ := hk
  exact ⟨p, hp, rfl⟩

theorem reads_makeRoom (hk : k.Reads f h) :
    Agree (fun x y => x.1.Reads f y.1 ∧ y.2 = x.2) k.makeRoom h.makeRoom := by
  obtain ⟨p, hp, rfl⟩ := hk
  unfold makeRoom size read
  dsimp only
  rw [Array.size_map]
  repeat' split
  · exact .ok ⟨⟨p, hp, rfl⟩, rfl⟩
  · exact .ok ⟨⟨p, hp, rfl⟩, rfl⟩
  · exact .error _

theorem reads_adopt (hk : k.Reads f h) {s : Sifted β} {t : Sifted α} (ht : t = s.map f) :
    Agree (Reads f) (k.adopt s) (h.adopt t) := by
  obtain ⟨p, hp, rfl⟩ := hk
  subst ht
  unfold adopt
  refine Agree.bind (A := Eq) (.of_eq (fun _ => rfl) (Registry.follow_map ..)) ?_
  rintro r _ rfl
  exact .ok ⟨p, hp, rfl⟩

theorem reads_append (hk : k.Reads f h) (slot : Slot β) :
    Agree (Change.Reads Eq f) (k.append m slot) (h.append m (slot.map f)) := by
  refine (reads_makeRoom hk).bind ?_
  rintro ⟨roomy, events⟩ ⟨roomy', events'⟩ ⟨hroomy, hevents⟩
  obtain ⟨p, hp, rfl⟩ : roomy.Reads f roomy' := hroomy
  obtain rfl : events' = events := hevents
  have hup : Sift.up p ((roomy.slots.map (Slot.map f)).push (slot.map f))
      (roomy.slots.map (Slot.map f)).size (size_lt_size_push ..) =
        (Sift.up roomy.priority (roomy.slots.push slot) roomy.slots.size
          (size_lt_size_push ..)).map f := by
    simp only [← Array.map_push, Array.size_map]
    exact Sift.up_map hp _ _
  dsimp only
  refine (reads_adopt ⟨p, hp, rfl⟩ hup).bind fun longer longer' hlonger => ?_
  exact .ok ⟨hlonger, rfl, rfl, rfl⟩

theorem reads_releaseStorage (hk : k.Reads f h) (m : Mint) :
    Change.Reads Eq f (k.releaseStorage m) (h.releaseStorage m) := by
  obtain ⟨p, hp, rfl⟩ := hk
  have hiff : (k.read f p).policy.shouldRelease (k.read f p).capacity = true ↔
      k.policy.shouldRelease k.capacity = true := Iff.rfl
  unfold releaseStorage
  by_cases hs : k.policy.shouldRelease k.capacity = true
  · rw [if_pos hs, if_pos (hiff.mpr hs)]
    exact ⟨⟨p, hp, rfl⟩, rfl, rfl, rfl⟩
  · rw [if_neg hs, if_neg (hs ∘ hiff.mp)]
    exact ⟨⟨p, hp, rfl⟩, rfl, rfl, rfl⟩

theorem reads_releaseRegistry (hk : k.Reads f h) (m : Mint) :
    Change.Reads Eq f (k.releaseRegistry m) (h.releaseRegistry m) := by
  obtain ⟨p, hp, rfl⟩ := hk
  have hiff : (k.read f p).registry.tracked ≠ 0 ∧ (k.read f p).registry.issued = 0 ↔
      k.registry.tracked ≠ 0 ∧ k.registry.issued = 0 := Iff.rfl
  unfold releaseRegistry
  by_cases hr : k.registry.tracked ≠ 0 ∧ k.registry.issued = 0
  · rw [if_pos hr, if_pos (hiff.mpr hr)]
    exact ⟨⟨p, hp, rfl⟩, rfl, rfl, rfl⟩
  · rw [if_neg hr, if_neg (hr ∘ hiff.mp)]
    exact ⟨⟨p, hp, rfl⟩, rfl, rfl, rfl⟩

theorem reads_releaseEmpty (hk : k.Reads f h) (m : Mint) :
    Change.Reads Eq f (k.releaseEmpty m) (h.releaseEmpty m) := by
  have hfirst := reads_releaseStorage hk m
  have hsecond := reads_releaseRegistry hfirst.heap (k.releaseStorage m).mint
  unfold releaseEmpty
  dsimp only
  rw [hfirst.mint_eq]
  exact { hsecond with events_eq := by rw [hfirst.events_eq, hsecond.events_eq] }

theorem reads_removeAt (hk : k.Reads f h) (i : Nat) :
    Agree (Change.Reads (fun b a => a = f b) f) (k.removeAt m i) (h.removeAt m i) := by
  obtain ⟨p, hp, rfl⟩ := hk
  by_cases hi : i < k.slots.size
  · have hi' : i < (k.read f p).slots.size := by simpa [read] using hi
    have hkey : (k.read f p).slots[i].key = k.slots[i].key := by simp [read, Slot.map]
    have hvalue : (k.read f p).slots[i].value = f k.slots[i].value := by simp [read, Slot.map]
    have hgap : withoutSlot (k.read f p).slots i hi' =
        (withoutSlot k.slots i hi).map (Slot.map f) := map_withoutSlot hi
    unfold removeAt
    rw [dif_pos hi, dif_pos hi']
    simp only [hkey, hvalue, hgap]
    refine Agree.bind (A := Eq) (.of_eq (fun _ => rfl) rfl) ?_
    rintro r _ rfl
    by_cases hs : i < (withoutSlot k.slots i hi).size
    · have hs' : i < ((withoutSlot k.slots i hi).map (Slot.map f)).size := by simpa using hs
      have hshorter : Reads f { k with slots := withoutSlot k.slots i hi, registry := r }
          { k.read f p with
            slots := (withoutSlot k.slots i hi).map (Slot.map f), registry := r } := ⟨p, hp, rfl⟩
      rw [dif_pos hs, dif_pos hs']
      refine (reads_adopt hshorter (Sift.settle_map hp hs hs')).bind
        fun settled settled' hsettled => ?_
      exact .ok ⟨hsettled, rfl, rfl, rfl⟩
    · have htouched : (k.touched (withoutSlot k.slots i hi) r).Reads f
          ((k.read f p).touched ((withoutSlot k.slots i hi).map (Slot.map f)) r) := ⟨p, hp, rfl⟩
      rw [dif_neg hs, dif_neg (by simpa using hs)]
      by_cases he : withoutSlot k.slots i hi = #[]
      · rw [if_pos (by simp [he]), if_pos (by simp [he])]
        exact .ok { reads_releaseEmpty htouched m with answer := rfl }
      · rw [if_neg (by simpa using he), if_neg (by simpa using he)]
        exact .ok ⟨htouched, rfl, rfl, rfl⟩
  · unfold removeAt
    rw [dif_neg hi, dif_neg (by simpa [read] using hi)]
    exact .error _

theorem reads_replaceAt (hk : k.Reads f h) (i : Nat) (value : β) :
    Agree (Change.Reads (fun b a => a = f b) f) (k.replaceAt m i value)
      (h.replaceAt m i (f value)) := by
  obtain ⟨p, hp, rfl⟩ := hk
  by_cases hi : i < k.slots.size
  · have hi' : i < (k.read f p).slots.size := by simpa [read] using hi
    have hvalue : (k.read f p).slots[i].value = f k.slots[i].value := by simp [read, Slot.map]
    have hset : (k.read f p).slots.set i { (k.read f p).slots[i] with value := f value } =
        (k.slots.set i { k.slots[i] with value := value }).map (Slot.map f) := by
      simp [read, Slot.map]
    unfold replaceAt
    rw [dif_pos hi, dif_pos hi']
    simp only [hset, hvalue]
    refine (reads_adopt ⟨p, hp, rfl⟩ (Sift.settle_map hp _ _)).bind
      fun settled settled' hsettled => ?_
    exact .ok ⟨hsettled, rfl, rfl, rfl⟩
  · unfold replaceAt
    rw [dif_neg hi, dif_neg (by simpa [read] using hi)]
    exact .error _

end Heap

/-! ### Requests -/

namespace Outcome.Reads

variable {k : Heap β} {h : Heap α} {m : Mint} {γ' δ' : Type} {A : γ → δ → Prop}
  {B : γ' → δ' → Prop} {o : Outcome β γ} {o' : Outcome α δ}

theorem ofChange (hk : k.Reads f h) {x : Except Fault (Change β γ)} {y : Except Fault (Change α δ)}
    (hx : Agree (Change.Reads A f) x y) :
    (Outcome.ofChange k m x).Reads A f (.ofChange h m y) := by
  cases hx with
  | error e => exact ⟨hk, rfl, rfl, .error _⟩
  | ok hc => exact ⟨hc.heap, hc.mint_eq, hc.events_eq, .ok hc.answer⟩

theorem failed (hk : k.Reads f h) (failure : Failure) :
    (Outcome.failed k m failure : Outcome β γ).Reads A f (.failed h m failure) :=
  ⟨hk, rfl, rfl, .error failure⟩

theorem done (hk : k.Reads f h) {b : γ} {c : δ} (hb : A b c) :
    (Outcome.done k m b).Reads A f (.done h m c) :=
  ⟨hk, rfl, rfl, .ok hb⟩

theorem map (ho : o.Reads A f o') {g : γ → γ'} {g' : δ → δ'}
    (hg : ∀ b c, A b c → B (g b) (g' c)) : (o.map g).Reads B f (o'.map g') :=
  { ho with answer := ho.answer.map hg }

theorem andThen (ho : o.Reads A f o') {next : Heap β → Mint → γ → Outcome β γ'}
    {next' : Heap α → Mint → δ → Outcome α δ'}
    (hnext : ∀ k h m b c, k.Reads f h → A b c → (next k m b).Reads B f (next' h m c)) :
    (o.andThen next).Reads B f (o'.andThen next') := by
  have hanswer := ho.answer
  unfold Outcome.andThen
  rw [ho.mint_eq, ho.events_eq]
  generalize o.answer = x at hanswer
  generalize o'.answer = y at hanswer
  cases hanswer with
  | error e => exact ⟨ho.heap, rfl, rfl, .error e⟩
  | ok hb =>
      have hlast := hnext _ _ o.mint _ _ ho.heap hb
      exact { hlast with events_eq := congrArg (o.events ++ ·) hlast.events_eq }

end Outcome.Reads

namespace Heap

variable {k : Heap β} {h : Heap α} {m : Mint}

theorem reads_push (hk : k.Reads f h) (value : β) :
    (k.push m value).Reads Eq f (h.push m (f value)) :=
  .ofChange hk (reads_append hk _)

theorem reads_extend (hk : k.Reads f h) (values : List β) :
    (k.extend m values).Reads Eq f (h.extend m (values.map f)) := by
  induction values generalizing k h m with
  | nil => exact .done hk rfl
  | cons value rest ih => exact (reads_push hk value).andThen fun _ _ _ _ _ hk _ => ih hk

theorem reads_reserve (hk : k.Reads f h) : (k.reserve m).Reads Eq f (h.reserve m) := by
  unfold reserve
  rw [hk.registry_eq]
  split
  · exact .done (hk.with_registry _) rfl
  · exact .failed hk _

theorem reads_insert (hk : k.Reads f h) (value : β) :
    (k.insert m value).Reads Eq f (h.insert m (f value)) := by
  refine (reads_reserve hk).andThen fun k h m x y hk hx => .ofChange hk ?_
  subst hx
  exact (reads_append hk _).map fun c d hc => { hc with answer := rfl }

theorem reads_release (hk : k.Reads f h) (x : Handle) :
    (k.release m x).Reads Eq f (h.release m x) := by
  unfold release
  rw [hk.registry_eq]
  split
  · exact .failed hk _
  · split
    · exact .done (hk.with_registry _) rfl
    · exact .failed hk _

theorem reads_insertWith (hk : k.Reads f h) (x : Handle) (value : β) :
    (k.insertWith m x value).Reads Eq f (h.insertWith m x (f value)) := by
  unfold insertWith
  rw [hk.registry_eq]
  split
  · exact .failed hk _
  · exact .ofChange hk (reads_append hk _)

theorem Reads.size_eq (hk : k.Reads f h) : h.size = k.size := by
  obtain ⟨p, -, rfl⟩ := hk
  exact Array.size_map ..

theorem Reads.keys_eq (hk : k.Reads f h) : h.keys = k.keys := by
  obtain ⟨p, -, rfl⟩ := hk
  simp [keys, read, Function.comp_def, Slot.map]

theorem Reads.indexOf?_eq (hk : k.Reads f h) (holds : α → Bool) :
    k.indexOf? (holds ∘ f) = h.indexOf? holds := by
  obtain ⟨p, -, rfl⟩ := hk
  simp only [indexOf?, read, Array.findIdx?_map]
  rfl

theorem reads_pop (hk : k.Reads f h) : (k.pop m).Reads (fun b a => a = f b) f (h.pop m) := by
  unfold pop isEmpty
  rw [hk.size_eq]
  split
  · exact .failed hk _
  · exact .ofChange hk (reads_removeAt hk 0)

theorem reads_remove (hk : k.Reads f h) (x : Handle) :
    (k.remove m x).Reads (fun b a => a = f b) f (h.remove m x) := by
  unfold remove
  rw [hk.registry_eq]
  split
  · exact .failed hk _
  · exact .ofChange hk (reads_removeAt hk _)

theorem reads_removeFirst (hk : k.Reads f h) (holds : α → Bool) :
    (k.removeFirst m (holds ∘ f)).Reads (fun b a => a = b.map f) f (h.removeFirst m holds) := by
  unfold removeFirst
  rw [hk.indexOf?_eq]
  split
  · exact .done hk rfl
  · refine (Outcome.Reads.ofChange hk (reads_removeAt hk _)).map fun b a hb => ?_
    rw [hb]
    rfl

theorem reads_update (hk : k.Reads f h) (x : Handle) (value : β) :
    (k.update m x value).Reads (fun b a => a = f b) f (h.update m x (f value)) := by
  unfold update
  rw [hk.registry_eq]
  split
  · exact .failed hk _
  · exact .ofChange hk (reads_replaceAt hk _ value)

theorem reads_clear (hk : k.Reads f h) : (k.clear m).Reads Eq f (h.clear m) := by
  refine .ofChange hk ?_
  rw [hk.keys_eq, hk.registry_eq]
  refine Agree.bind (A := Eq) (.of_eq (fun _ => rfl) rfl) ?_
  rintro r _ rfl
  obtain ⟨p, hp, rfl⟩ := hk
  have hemptied : Reads f { k with slots := #[], registry := r }
      { k.read f p with slots := #[], registry := r } := ⟨p, hp, by simp [read]⟩
  have hreleased := reads_releaseEmpty hemptied m
  obtain ⟨p', hp', heq⟩ := hreleased.heap
  exact .ok { hreleased with heap := ⟨p', hp', by rw [heq]; rfl⟩ }

theorem reads_trim (hk : k.Reads f h) : (k.trim m).Reads Eq f (h.trim m) := by
  obtain ⟨p, hp, rfl⟩ := hk
  have hsize : (k.read f p).size = k.size := Array.size_map ..
  have hiff : (k.read f p).policy.shouldTrim k.size (k.read f p).capacity = true ↔
      k.policy.shouldTrim k.size k.capacity = true := Iff.rfl
  unfold trim
  rw [hsize]
  by_cases hs : k.policy.shouldTrim k.size k.capacity = true
  · rw [if_pos hs, if_pos (hiff.mpr hs)]
    exact ⟨⟨p, hp, rfl⟩, rfl, rfl, .ok rfl⟩
  · rw [if_neg hs, if_neg (hs ∘ hiff.mp)]
    exact .done ⟨p, hp, rfl⟩ rfl

end Heap

open Heap in
/-- **Requests do not look into elements.** -/
theorem Op.run_reads [BEq α] [BEq β] {g : α → β} (hbeq : ∀ a b : β, (a == b) = (f a == f b))
    (hg : ∀ a, f (g a) = a) {k : Heap β} {h : Heap α} (hk : k.Reads f h) (m : Mint) (op : Op α) :
    ((op.lift f g).run k m).Reads (fun b a => a = b.map f) f (op.run h m) := by
  cases op with
  | push value => exact (hg value ▸ reads_push hk (g value)).map fun _ _ _ => rfl
  | insert value =>
      exact (hg value ▸ reads_insert hk (g value)).map fun x y hxy => hxy ▸ rfl
  | extend values =>
      have hvalues : (values.map g).map f = values := by
        simp only [List.map_map, Function.comp_def, hg, List.map_id']
      exact (hvalues ▸ reads_extend hk (values.map g)).map fun _ _ _ => rfl
  | reserve => exact (reads_reserve hk).map fun x y hxy => hxy ▸ rfl
  | release x => exact (reads_release hk x).map fun _ _ _ => rfl
  | insertWith x value =>
      exact (hg value ▸ reads_insertWith hk x (g value)).map fun _ _ _ => rfl
  | pop => exact (reads_pop hk).map fun b a hab => hab ▸ rfl
  | remove x => exact (reads_remove hk x).map fun b a hab => hab ▸ rfl
  | removeValue value =>
      have hfound : (fun b => b == g value) = (fun a => a == value) ∘ f :=
        funext fun b => (hbeq b (g value)).trans (congrArg (f b == ·) (hg value))
      have hremoved := reads_removeFirst (m := m) hk (· == value)
      refine (Outcome.Reads.map (A := fun b a => a = b) ?_ fun b a hab => hab ▸ rfl)
      unfold Heap.removeValue
      rw [hfound]
      exact hremoved.map fun b a hab => by rw [hab, Option.isSome_map]
  | removeFirst holds => exact (reads_removeFirst hk holds).map fun b a hab => hab ▸ rfl
  | update x value => exact (hg value ▸ reads_update hk x (g value)).map fun b a hab => hab ▸ rfl
  | clear => exact (reads_clear hk).map fun _ _ _ => rfl
  | trim => exact (reads_trim hk).map fun _ _ _ => rfl

end TrackedHeap
