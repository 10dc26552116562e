import TrackedHeap.Proofs.Heap.Removal
import TrackedHeap.World

/-!
# TrackedHeap.Proofs.Heap.Operations

**What requests come to** on a well-formed heap.

`Op.Effect` lists, request by request, the outcomes there can be, each with what it
rests on: which key the registry granted or gave up, which slot was added, replaced or
taken out, and why a request was turned down. `Op.effect` is the inversion of `Op.run`
that every later invariant is proved from, so none of them opens an operation.

No outcome is a disagreement between the parts of the heap: the faults that are left are
the two limits of the machine.
-/

namespace TrackedHeap

variable {α : Type}

namespace Heap

/-- A heap whose registry granted a key is as well formed as before. -/
theorem WellFormed.of_grants {h : Heap α} (hw : h.WellFormed) {x : Handle} {r : Registry}
    (hr : r.Sound) (hg : h.registry.Grants x r) : WellFormed { h with registry := r } :=
  ⟨hr, fun i key => by rw [hg.positionOf_eq]; exact hw.tied i key⟩

/-- Giving up a key that names no element leaves the heap well formed. -/
theorem WellFormed.of_withdraws {h : Heap α} (hw : h.WellFormed) {key : Nat} {r : Registry}
    (hr : r.Sound) (hk : some key ∉ h.keys) (hwith : h.registry.Withdraws [some key] r) :
    WellFormed { h with registry := r } := by
  refine ⟨hr, ?_⟩
  intro i k
  have hpos := hwith.positionOf_eq k
  simp only [List.mem_singleton, Option.some.injEq] at hpos
  rw [hpos]
  split
  · next heq =>
      subst heq
      refine iff_of_false (fun hi => hk (mem_keys.mpr ⟨i, hi⟩)) ?_
      simp
  · exact hw.tied i k

/-- A key just granted names no element yet. -/
theorem WellFormed.key_free_of_grants {h : Heap α} (hw : h.WellFormed) {x : Handle} {r : Registry}
    (hg : h.registry.Grants x r) (key : Nat) (hk : some x.key = some key) :
    r.IsIssued key ∧ some key ∉ h.keys := by
  cases hk
  exact ⟨(hg.isIssued_iff _).mpr (Or.inl rfl),
    fun hmem => hg.not_isIssued (hw.isIssued_of_mem_keys hmem)⟩

/-- What is found is there. -/
theorem lt_size_of_indexOf? {h : Heap α} {holds : α → Bool} {i : Nat}
    (hf : h.indexOf? holds = some i) : i < h.slots.size :=
  (Array.findIdx?_eq_some_iff_getElem.mp hf).1

end Heap

/-- What a request to a heap with a mint can come to. -/
inductive Op.Effect [BEq α] : Heap α → Mint → Op α → Outcome α (Reply α) → Prop
  | pushed {h h' : Heap α} {m : Mint} {value : α} {events : List Event}
      (hs : h.Stores ⟨value, none⟩ events h') :
      Effect h m (.push value) ⟨h', m, events, .ok .done⟩
  | pushFull {h : Heap α} {m : Mint} {value : α} (hl : h.AtLimit) :
      Effect h m (.push value) (.failed h m (.fault .capacityOverflow))
  | extended {h : Heap α} {m : Mint} : Effect h m (.extend []) (.done h m .done)
  | extendMore {h h' : Heap α} {m : Mint} {value : α} {rest : List α} {events : List Event}
      {o : Outcome α (Reply α)} (hs : h.Stores ⟨value, none⟩ events h')
      (ho : Effect h' m (.extend rest) o) :
      Effect h m (.extend (value :: rest)) { o with events := events ++ o.events }
  | extendFull {h : Heap α} {m : Mint} {value : α} {rest : List α}
      (hl : h.AtLimit) :
      Effect h m (.extend (value :: rest)) (.failed h m (.fault .capacityOverflow))
  | reserved {h : Heap α} {m : Mint} {x : Handle} {r : Registry}
      (hres : h.registry.reserve = .ok (x, r)) (hr : r.Sound) (hg : h.registry.Grants x r) :
      Effect h m .reserve (.done { h with registry := r } m (.handle x))
  | exhausted {h : Heap α} {m : Mint} (he : h.registry.reserve = .error .keysExhausted) :
      Effect h m .reserve (.failed h m (.fault .keysExhausted))
  /-- The handle is issued and the element stored under it. -/
  | inserted {h h' : Heap α} {m : Mint} {value : α} {x : Handle} {r : Registry}
      {events : List Event} (hres : h.registry.reserve = .ok (x, r)) (hr : r.Sound)
      (hg : h.registry.Grants x r)
      (hs : Heap.Stores { h with registry := r } ⟨value, some x.key⟩ events h') :
      Effect h m (.insert value) ⟨h', m, events, .ok (.handle x)⟩
  /-- The handle is issued, but there is no room for the element. -/
  | insertFull {h : Heap α} {m : Mint} {value : α} {x : Handle} {r : Registry}
      (hres : h.registry.reserve = .ok (x, r)) (hr : r.Sound) (hg : h.registry.Grants x r)
      (hl : h.AtLimit) :
      Effect h m (.insert value) (.failed { h with registry := r } m (.fault .capacityOverflow))
  | insertExhausted {h : Heap α} {m : Mint} {value : α}
      (he : h.registry.reserve = .error .keysExhausted) :
      Effect h m (.insert value) (.failed h m (.fault .keysExhausted))
  | released {h : Heap α} {m : Mint} {x : Handle} {r : Registry}
      (hu : h.registry.unboundKey x = .ok x.key) (hr : r.Sound)
      (hwith : h.registry.Withdraws [some x.key] r) :
      Effect h m (.release x) (.done { h with registry := r } m .done)
  | releaseRefused {h : Heap α} {m : Mint} {x : Handle} {cause : Refusal}
      (hu : h.registry.unboundKey x = .error cause) :
      Effect h m (.release x) (.failed h m (.refused cause))
  | insertedWith {h h' : Heap α} {m : Mint} {x : Handle} {value : α} {events : List Event}
      (hu : h.registry.unboundKey x = .ok x.key) (hs : h.Stores ⟨value, some x.key⟩ events h') :
      Effect h m (.insertWith x value) ⟨h', m, events, .ok .done⟩
  | insertWithFull {h : Heap α} {m : Mint} {x : Handle} {value : α}
      (hu : h.registry.unboundKey x = .ok x.key) (hl : h.AtLimit) :
      Effect h m (.insertWith x value) (.failed h m (.fault .capacityOverflow))
  | insertWithRefused {h : Heap α} {m : Mint} {x : Handle} {value : α} {cause : Refusal}
      (hu : h.registry.unboundKey x = .error cause) :
      Effect h m (.insertWith x value) (.failed h m (.refused cause))
  | popped {h : Heap α} {m : Mint} {hi : 0 < h.slots.size} {c : Change α α}
      (ht : h.TakesOut m 0 hi c) : Effect h m .pop ⟨c.heap, c.mint, c.events, .ok (.value c.answer)⟩
  | popEmpty {h : Heap α} {m : Mint} (he : h.slots = #[]) :
      Effect h m .pop (.failed h m (.refused .empty))
  | removed {h : Heap α} {m : Mint} {x : Handle} {i : Nat} {hi : i < h.slots.size}
      {c : Change α α} (hp : h.registry.position x = .ok i) (ht : h.TakesOut m i hi c) :
      Effect h m (.remove x) ⟨c.heap, c.mint, c.events, .ok (.value c.answer)⟩
  | removeRefused {h : Heap α} {m : Mint} {x : Handle} {cause : Refusal}
      (hp : h.registry.position x = .error cause) :
      Effect h m (.remove x) (.failed h m (.refused cause))
  | removedFirst {h : Heap α} {m : Mint} {holds : α → Bool} {i : Nat} {hi : i < h.slots.size}
      {c : Change α α} (hf : h.indexOf? holds = some i) (ht : h.TakesOut m i hi c) :
      Effect h m (.removeFirst holds) ⟨c.heap, c.mint, c.events, .ok (.found (some c.answer))⟩
  | noneFirst {h : Heap α} {m : Mint} {holds : α → Bool} (hf : h.indexOf? holds = none) :
      Effect h m (.removeFirst holds) (.done h m (.found none))
  | removedValue {h : Heap α} {m : Mint} {value : α} {i : Nat} {hi : i < h.slots.size}
      {c : Change α α} (hf : h.indexOf? (· == value) = some i) (ht : h.TakesOut m i hi c) :
      Effect h m (.removeValue value) ⟨c.heap, c.mint, c.events, .ok (.flag true)⟩
  | noValue {h : Heap α} {m : Mint} {value : α} (hf : h.indexOf? (· == value) = none) :
      Effect h m (.removeValue value) (.done h m (.flag false))
  | updated {h h' : Heap α} {m : Mint} {x : Handle} {value : α} {i : Nat}
      {hi : i < h.slots.size} (hp : h.registry.position x = .ok i)
      (hr : h.Replaces i hi value h') :
      Effect h m (.update x value) ⟨h', m, [], .ok (.value h.slots[i].value)⟩
  | updateRefused {h : Heap α} {m : Mint} {x : Handle} {value : α} {cause : Refusal}
      (hp : h.registry.position x = .error cause) :
      Effect h m (.update x value) (.failed h m (.refused cause))
  | cleared {h : Heap α} {m : Mint} {c : Change α Unit} (hc : h.Clears m c) :
      Effect h m .clear ⟨c.heap, c.mint, c.events, .ok .done⟩
  | trimmed {h : Heap α} {m : Mint} (ht : h.policy.shouldTrim h.size h.capacity = true) :
      Effect h m .trim ⟨{ h with capacity := h.policy.trimmed h.size h.capacity }, m,
        [.trimmed h.capacity (h.policy.trimmed h.size h.capacity) h.size], .ok .done⟩
  | untrimmed {h : Heap α} {m : Mint} (ht : ¬ h.policy.shouldTrim h.size h.capacity = true) :
      Effect h m .trim (.done h m .done)

namespace Heap.WellFormed

variable [BEq α] {h : Heap α}

/-! ### Adding -/

omit [BEq α] in
/-- An element without a handle is stored, or there is no room and nothing is done. -/
theorem push_cases (hw : h.WellFormed) (m : Mint) (value : α) :
    (∃ h' events, h.Stores ⟨value, none⟩ events h' ∧ h.push m value = ⟨h', m, events, .ok ()⟩) ∨
      h.AtLimit ∧ h.push m value = .failed h m (.fault .capacityOverflow) := by
  rcases hw.append ⟨value, none⟩ (by simp) m with ⟨h', events, hs, happ⟩ | ⟨hl, happ⟩
  · exact Or.inl ⟨h', events, hs, by simp only [Heap.push, happ, Outcome.ofChange_ok]⟩
  · exact Or.inr ⟨hl, by simp only [Heap.push, happ, Outcome.ofChange_error]⟩

theorem effect_push (hw : h.WellFormed) (m : Mint) (value : α) :
    (Op.push value).Effect h m ((Op.push value).run h m) := by
  rcases hw.push_cases m value with ⟨h', events, hs, hpush⟩ | ⟨hl, hpush⟩
  · simp only [Op.run, hpush]
    exact .pushed hs
  · simp only [Op.run, hpush]
    exact .pushFull hl

theorem effect_extend (hw : h.WellFormed) (m : Mint) (values : List α) :
    (Op.extend values).Effect h m ((Op.extend values).run h m) := by
  induction values generalizing h with
  | nil => exact .extended
  | cons value rest ih =>
      rcases hw.push_cases m value with ⟨h', events, hs, hpush⟩ | ⟨hl, hpush⟩
      · simp only [Op.run, Heap.extend, hpush]
        exact .extendMore hs (ih (hs.wellFormed hw))
      · simp only [Op.run, Heap.extend, hpush]
        exact .extendFull hl

theorem effect_reserve (hw : h.WellFormed) (m : Mint) :
    Op.reserve.Effect h m (Op.reserve.run h m) := by
  rcases hw.registry.reserve with ⟨x, r, hres, hr, hg⟩ | ⟨hres, -, -⟩
  · simp only [Op.run, Heap.reserve, hres]
    exact .reserved hres hr hg
  · simp only [Op.run, Heap.reserve, hres]
    exact .exhausted hres

theorem effect_insert (hw : h.WellFormed) (m : Mint) (value : α) :
    (Op.insert value).Effect h m ((Op.insert value).run h m) := by
  rcases hw.registry.reserve with ⟨x, r, hres, hr, hg⟩ | ⟨hres, -, -⟩
  · have hw' : Heap.WellFormed { h with registry := r } := hw.of_grants hr hg
    rcases hw'.append ⟨value, some x.key⟩ (hw.key_free_of_grants hg) m with
      ⟨h', events, hs, happ⟩ | ⟨hl, happ⟩
    · simp only [Op.run, Heap.insert, Heap.reserve, hres, Outcome.andThen, Outcome.done, happ]
      exact .inserted hres hr hg hs
    · simp only [Op.run, Heap.insert, Heap.reserve, hres, Outcome.andThen, Outcome.done, happ]
      exact .insertFull hres hr hg hl
  · simp only [Op.run, Heap.insert, Heap.reserve, hres]
    exact .insertExhausted hres

theorem effect_release (hw : h.WellFormed) (m : Mint) (x : Handle) :
    (Op.release x).Effect h m ((Op.release x).run h m) := by
  cases hu : h.registry.unboundKey x with
  | error cause =>
      simp only [Op.run, Heap.release, hu]
      exact .releaseRefused hu
  | ok key =>
      obtain ⟨hissued, -, rfl⟩ := hw.unboundKey_eq_ok_iff.mp hu
      obtain ⟨r, hret, hr, hwith⟩ := hw.registry.retire hissued.isIssued
      simp only [Op.run, Heap.release, hu, hret]
      exact .released hu hr hwith

theorem effect_insertWith (hw : h.WellFormed) (m : Mint) (x : Handle) (value : α) :
    (Op.insertWith x value).Effect h m ((Op.insertWith x value).run h m) := by
  cases hu : h.registry.unboundKey x with
  | error cause =>
      simp only [Op.run, Heap.insertWith, hu]
      exact .insertWithRefused hu
  | ok key =>
      obtain ⟨hissued, hfree, rfl⟩ := hw.unboundKey_eq_ok_iff.mp hu
      have hk : ∀ key, some x.key = some key → h.registry.IsIssued key ∧ some key ∉ h.keys := by
        intro key hkey
        cases hkey
        exact ⟨hissued.isIssued, hfree⟩
      rcases hw.append ⟨value, some x.key⟩ hk m with ⟨h', events, hs, happ⟩ | ⟨hl, happ⟩
      · simp only [Op.run, Heap.insertWith, hu, happ]
        exact .insertedWith hu hs
      · simp only [Op.run, Heap.insertWith, hu, happ]
        exact .insertWithFull hu hl

/-! ### Taking out -/

omit [BEq α] in
/-- From a heap with elements, the one at the root is taken out. -/
theorem pop_eq (hw : h.WellFormed) (hi : 0 < h.slots.size) (m : Mint) :
    ∃ c, h.pop m = ⟨c.heap, c.mint, c.events, .ok c.answer⟩ ∧ h.TakesOut m 0 hi c := by
  obtain ⟨c, hrem, ht⟩ := hw.removeAt hi m
  have hempty : ¬ h.isEmpty = true := fun he => Nat.ne_of_gt hi (of_decide_eq_true he)
  exact ⟨c, by simp only [Heap.pop, hempty, hrem]; rfl, ht⟩

omit [BEq α] in
/-- An empty heap turns `pop` down. -/
theorem pop_of_empty (he : h.slots = #[]) (m : Mint) : h.pop m = .failed h m (.refused .empty) := by
  have hempty : h.isEmpty = true := by simp [isEmpty, size, he]
  simp only [Heap.pop, hempty, if_true]

theorem effect_pop (hw : h.WellFormed) (m : Mint) : Op.pop.Effect h m (Op.pop.run h m) := by
  by_cases he : h.slots = #[]
  · simp only [Op.run, pop_of_empty he]
    exact .popEmpty he
  · obtain ⟨c, hpop, ht⟩ := hw.pop_eq (Array.size_pos_iff.mpr he) m
    simp only [Op.run, hpop]
    exact .popped ht

theorem effect_remove (hw : h.WellFormed) (m : Mint) (x : Handle) :
    (Op.remove x).Effect h m ((Op.remove x).run h m) := by
  cases hp : h.registry.position x with
  | error cause =>
      simp only [Op.run, Heap.remove, hp]
      exact .removeRefused hp
  | ok i =>
      obtain ⟨c, hrem, ht⟩ := hw.removeAt (hw.lt_size_of_position hp) m
      simp only [Op.run, Heap.remove, hp, hrem]
      exact .removed hp ht

theorem effect_removeFirst (hw : h.WellFormed) (m : Mint) (holds : α → Bool) :
    (Op.removeFirst holds).Effect h m ((Op.removeFirst holds).run h m) := by
  cases hf : h.indexOf? holds with
  | none =>
      simp only [Op.run, Heap.removeFirst, hf]
      exact .noneFirst hf
  | some i =>
      obtain ⟨c, hrem, ht⟩ := hw.removeAt (lt_size_of_indexOf? hf) m
      simp only [Op.run, Heap.removeFirst, hf, hrem]
      exact .removedFirst hf ht

theorem effect_removeValue (hw : h.WellFormed) (m : Mint) (value : α) :
    (Op.removeValue value).Effect h m ((Op.removeValue value).run h m) := by
  cases hf : h.indexOf? (· == value) with
  | none =>
      simp only [Op.run, Heap.removeValue, Heap.removeFirst, hf]
      exact .noValue hf
  | some i =>
      obtain ⟨c, hrem, ht⟩ := hw.removeAt (lt_size_of_indexOf? hf) m
      simp only [Op.run, Heap.removeValue, Heap.removeFirst, hf, hrem]
      exact .removedValue hf ht

/-! ### The rest -/

omit [BEq α] in
/-- The element that a handle names is replaced. -/
theorem update_eq (hw : h.WellFormed) {x : Handle} {i : Nat} (hp : h.registry.position x = .ok i)
    (m : Mint) (value : α) :
    ∃ hi h', h.Replaces i hi value h' ∧ h.update m x value = ⟨h', m, [], .ok h.slots[i].value⟩ := by
  obtain ⟨h', hr, hrep⟩ := hw.replaceAt (hw.lt_size_of_position hp) m value
  exact ⟨_, h', hr, by simp only [Heap.update, hp, hrep, Outcome.ofChange_ok]⟩

theorem effect_update (hw : h.WellFormed) (m : Mint) (x : Handle) (value : α) :
    (Op.update x value).Effect h m ((Op.update x value).run h m) := by
  cases hp : h.registry.position x with
  | error cause =>
      simp only [Op.run, Heap.update, hp]
      exact .updateRefused hp
  | ok i =>
      obtain ⟨h', hr, hrep⟩ := hw.replaceAt (hw.lt_size_of_position hp) m value
      simp only [Op.run, Heap.update, hp, hrep]
      exact .updated hp hr

theorem effect_clear (hw : h.WellFormed) (m : Mint) :
    Op.clear.Effect h m (Op.clear.run h m) := by
  obtain ⟨c, hc, hclear⟩ := hw.clear m
  simp only [Op.run, hclear]
  exact .cleared hc

theorem effect_trim (h : Heap α) (m : Mint) : Op.trim.Effect h m (Op.trim.run h m) := by
  by_cases ht : h.policy.shouldTrim h.size h.capacity = true
  · simp only [Op.run, Heap.trim, ht, if_true]
    exact .trimmed ht
  · simp only [Op.run, Heap.trim, ht]
    exact .untrimmed ht

end Heap.WellFormed

/-- **Inversion of requests**: what a request comes to on a well-formed heap is listed. -/
theorem Op.effect [BEq α] {h : Heap α} (hw : h.WellFormed) (m : Mint) :
    ∀ op : Op α, op.Effect h m (op.run h m)
  | .push value => hw.effect_push m value
  | .insert value => hw.effect_insert m value
  | .extend values => hw.effect_extend m values
  | .reserve => hw.effect_reserve m
  | .release x => hw.effect_release m x
  | .insertWith x value => hw.effect_insertWith m x value
  | .pop => hw.effect_pop m
  | .remove x => hw.effect_remove m x
  | .removeValue value => hw.effect_removeValue m value
  | .removeFirst holds => hw.effect_removeFirst m holds
  | .update x value => hw.effect_update m x value
  | .clear => hw.effect_clear m
  | .trim => Heap.WellFormed.effect_trim h m

namespace Heap

/-- What taking out up to `count` elements in rank order can come to. -/
inductive PopsMany : Heap α → Mint → Nat → Outcome α (List α × Option Refusal) → Prop
  | done {h : Heap α} {m : Mint} : PopsMany h m 0 (.done h m ([], none))
  | stopped {h : Heap α} {m : Mint} {count : Nat} (he : h.slots = #[]) :
      PopsMany h m (count + 1) (.done h m ([], some .empty))
  | next {h : Heap α} {m : Mint} {count : Nat} {hi : 0 < h.slots.size} {c : Change α α}
      {o : Outcome α (List α × Option Refusal)} (ht : h.TakesOut m 0 hi c)
      (ho : PopsMany c.heap c.mint count o) :
      PopsMany h m (count + 1) ⟨o.heap, o.mint, c.events ++ o.events,
        o.answer.map fun (values, ended) => (c.answer :: values, ended)⟩

theorem WellFormed.popsMany {h : Heap α} (hw : h.WellFormed) (m : Mint) (count : Nat) :
    h.PopsMany m count (h.popMany m count) := by
  induction count generalizing h m with
  | zero => exact .done
  | succ count ih =>
      by_cases he : h.slots = #[]
      · simp only [Heap.popMany, pop_of_empty he, Outcome.failed]
        exact .stopped he
      · obtain ⟨c, hpop, ht⟩ := hw.pop_eq (Array.size_pos_iff.mpr he) m
        simp only [Heap.popMany, hpop, Outcome.andThen]
        exact .next ht (ih (ht.wellFormed hw) c.mint)

end Heap

end TrackedHeap
