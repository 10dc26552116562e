import TrackedHeap.Proofs.Heap.Operations

/-!
# TrackedHeap.Proofs.Heap.Versions

**Versions**: which requests a heap counts as changes of its slots.

Whether a request was completed is read off its answer (`Op.alters`), and how often the heap
counted is read off its version (`Op.bumps`). The two agree: what is completed is counted,
also where no element moves, and what is not counted has left the slots alone.
-/

namespace TrackedHeap

variable {α : Type}

namespace Heap

/-- How far the version has moved from `h` to `h'`. A single request moves it by two at most,
so the distance around the circle is the number of times. -/
def bumped (h h' : Heap α) : Nat := (h'.version - h.version).toNat

/-- How often the version moves while elements are added one after another. -/
def extendBumps (h : Heap α) (m : Mint) : List α → Nat
  | [] => 0
  | value :: rest =>
      let o := h.push m value
      match o.answer with
      | .ok () => h.bumped o.heap + o.heap.extendBumps o.mint rest
      | .error _ => 0

end Heap

namespace Op

/-- How often a request moves the version of a heap. -/
def bumps [BEq α] (h : Heap α) (m : Mint) : Op α → Nat
  | extend values => h.extendBumps m values
  | op => h.bumped (op.run h m).heap

/-- Whether a request with this answer added, replaced or took out an element, or cleared the
heap. The first element decides for a row of elements: the row ends where an element finds no
room, and what was added before stays. -/
def alters (h : Heap α) (m : Mint) (answer : Except Failure (Reply α)) : Op α → Bool
  | push _ | insert _ | insertWith _ _ | pop | remove _ | update _ _ | clear => answer.isOk
  | extend [] => false
  | extend (value :: _) => (h.push m value).answer.isOk
  | removeValue _ => match answer with
      | .ok (.flag found) => found
      | _ => false
  | removeFirst _ => match answer with
      | .ok (.found found) => found.isSome
      | _ => false
  | reserve | release _ | trim => false

end Op

namespace Heap

/-- The version of `h'` is one or two ahead of the one of `h`. -/
def Advances (h h' : Heap α) : Prop := h'.version = h.version + 1 ∨ h'.version = h.version + 2

section Advances

variable {h h' : Heap α} {m : Mint}

theorem Advances.bumped_pos (ha : h.Advances h') : 0 < h.bumped h' := by
  unfold bumped
  rcases ha with hv | hv <;> rw [hv, UInt64.add_comm, UInt64.add_sub_cancel] <;> decide

theorem bumped_of_version_eq (hv : h'.version = h.version) : h.bumped h' = 0 := by
  simp [bumped, hv]

/-- The version moves by as much as is counted. -/
theorem version_eq_add_bumped (h h' : Heap α) :
    h'.version = h.version + UInt64.ofNat (h.bumped h') := by
  rw [bumped, UInt64.ofNat_toNat, UInt64.add_comm, UInt64.sub_add_cancel]

theorem Adopts.advances {s : Sifted α} (ha : h.Adopts s h') : h.Advances h' := by
  have hv := ha.version_eq
  split at hv
  · exact Or.inr hv
  · exact Or.inl hv

theorem Stores.advances {slot : Slot α} {events : List Event} (hs : h.Stores slot events h') :
    h.Advances h' := by
  obtain ⟨capacity, -, ha⟩ := hs.room
  exact ha.advances

theorem TakesOut.advances {i : Nat} {hi : i < h.slots.size} {c : Change α α}
    (ht : h.TakesOut m i hi c) : h.Advances c.heap := by
  obtain ⟨r, -, -, hc⟩ := ht
  cases hc with
  | refilled hs ha => exact ha.advances
  | last hs hne => exact Or.inl rfl
  | emptied hs he => exact Or.inl (version_releaseEmpty _ m)

theorem Clears.advances {c : Change α Unit} (hc : h.Clears m c) : h.Advances c.heap := by
  obtain ⟨r, released, -, -, -, rfl⟩ := hc
  exact Or.inl rfl

end Advances

/-- What a change of the slots means to the version: it moves by `bumps`, and it moves at all
exactly if the slots were `altered`. -/
structure Counts (h h' : Heap α) (altered : Bool) (bumps : Nat) : Prop where
  version_eq : h'.version = h.version + UInt64.ofNat bumps
  altered_iff : altered = true ↔ 0 < bumps
  slots_eq : altered = false → h'.slots = h.slots

namespace Counts

variable {h h' h'' : Heap α} {altered : Bool} {bumps : Nat}

theorem of_advances (ha : h.Advances h') : h.Counts h' true (h.bumped h') :=
  ⟨h.version_eq_add_bumped h', iff_of_true rfl ha.bumped_pos, nofun⟩

theorem of_eq (hv : h'.version = h.version) (hs : h'.slots = h.slots) :
    h.Counts h' false (h.bumped h') :=
  ⟨h.version_eq_add_bumped h', by simp [bumped_of_version_eq hv], fun _ => hs⟩

theorem refl (h : Heap α) : h.Counts h false 0 := ⟨by simp, by simp, fun _ => rfl⟩

end Counts

/-- A row of elements counts as a change if its first element finds room. -/
theorem WellFormed.counts_extend {h : Heap α} (hw : h.WellFormed) (m : Mint)
    (values : List α) :
    h.Counts (h.extend m values).heap
      (Op.alters h m ((h.extend m values).map fun _ => .done).answer (.extend values))
      (h.extendBumps m values) := by
  induction values generalizing h with
  | nil => exact .refl h
  | cons value rest ih =>
      -- The first element decides: if it finds no room, the row ends with nothing added.
      rcases hw.push_cases m value with ⟨h', events, hs, hpush⟩ | ⟨-, hpush⟩
      · have hrest := ih (hs.wellFormed hw)
        have hpos := hs.advances.bumped_pos
        simp only [extend, extendBumps, Op.alters, hpush, Outcome.andThen, Except.isOk,
          Except.toBool]
        refine ⟨?_, iff_of_true rfl (by omega), by simp⟩
        rw [hrest.version_eq, h.version_eq_add_bumped h', UInt64.ofNat_add, UInt64.add_assoc]
      · simp only [extend, extendBumps, Op.alters, hpush, Outcome.andThen, Outcome.failed]
        exact .refl h

end Heap

namespace Op

variable [BEq α] {h : Heap α} {m : Mint}

/-- Apart from a row of elements, what is completed moves the version once or twice, and what
is not leaves version and slots alone. -/
theorem Effect.counts {op : Op α} {o : Outcome α (Reply α)} (he : op.Effect h m o)
    (hx : ∀ values, op ≠ .extend values) :
    h.Counts o.heap (op.alters h m o.answer) (h.bumped o.heap) := by
  cases he with
  | extended | extendMore | extendFull => exact absurd rfl (hx _)
  | pushed hs | inserted _ _ _ hs | insertedWith _ hs => exact .of_advances hs.advances
  | popped ht | removed _ ht | removedFirst _ ht | removedValue _ ht =>
      exact .of_advances ht.advances
  | updated hp hr => exact .of_advances (Heap.Adopts.advances hr)
  | cleared hc => exact .of_advances hc.advances
  | pushFull | reserved | exhausted | insertFull | insertExhausted | released | releaseRefused
  | insertWithFull | insertWithRefused | popEmpty | removeRefused | noneFirst | noValue
  | updateRefused | trimmed | untrimmed => exact .of_eq rfl rfl

/-- **Changes are counted**: the version of a heap moves by as much as a request bumps it; it
moves exactly if the request was completed, and the slots stay the same otherwise. -/
theorem counts (hw : h.WellFormed) (m : Mint) (op : Op α) :
    h.Counts (op.run h m).heap (op.alters h m (op.run h m).answer) (op.bumps h m) := by
  cases op with
  | extend values => exact hw.counts_extend m values
  | _ => exact (effect hw m _).counts nofun

end Op

end TrackedHeap
