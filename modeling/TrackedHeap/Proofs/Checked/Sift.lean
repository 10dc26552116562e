import TrackedHeap.Failure
import TrackedHeap.Sift
import TrackedHeap.StoragePolicy

/-!
# TrackedHeap.Proofs.Checked.Sift

**Running with checks**: arithmetic on words that may overflow, arrays that may be read beside
their bounds, and the sifts written with nothing else.

A sift is given the proof that it starts inside the array, and counts in natural numbers, whose
differences end at zero. Nothing of that is there on a machine. Here every position is computed in
words of 64 bits and every array is asked whether it has the position; where one of these checks
fails the run is cut short by a `Trap`. On an array of fewer than `2 ^ 60` slots no check of a sift
fails, and what comes out is what comes out without them.
-/

namespace TrackedHeap

/-- What cuts a run with checks short. -/
inductive Trap
  /-- A fault that a heap reports by itself. -/
  | fault (cause : Fault)
  /-- An array has no such position. -/
  | outOfBounds (index size : Nat)
  /-- A sum or a product does not fit into a word. -/
  | overflow
  /-- A difference is below zero. -/
  | underflow
  /-- What is taken for granted at this point does not hold. -/
  | unmet
  deriving DecidableEq, Repr

namespace Checked

open StoragePolicy (wordMax)
open SlotSize (maxLimit)

variable {α β : Type}

/-! ### Words and arrays -/

/-- The sum of two words. -/
def add (a b : Nat) : Except Trap Nat :=
  if a + b ≤ wordMax then .ok (a + b) else .error .overflow

/-- The product of two words. -/
def mul (a b : Nat) : Except Trap Nat :=
  if a * b ≤ wordMax then .ok (a * b) else .error .overflow

/-- The difference of two words. -/
def sub (a b : Nat) : Except Trap Nat :=
  if b ≤ a then .ok (a - b) else .error .underflow

/-- What an array has at a position. -/
def read (xs : Array β) (i : Nat) : Except Trap β :=
  if hi : i < xs.size then .ok xs[i] else .error (.outOfBounds i xs.size)

/-- The array with two positions exchanged. -/
def exchange (xs : Array β) (i j : Nat) : Except Trap (Array β) :=
  if hi : i < xs.size then
    if hj : j < xs.size then .ok (xs.swap i j) else .error (.outOfBounds j xs.size)
  else .error (.outOfBounds i xs.size)

theorem add_eq {a b : Nat} (h : a + b ≤ wordMax) : add a b = .ok (a + b) := if_pos h

theorem mul_eq {a b : Nat} (h : a * b ≤ wordMax) : mul a b = .ok (a * b) := if_pos h

theorem sub_eq {a b : Nat} (h : b ≤ a) : sub a b = .ok (a - b) := if_pos h

theorem read_eq {xs : Array β} {i : Nat} (hi : i < xs.size) : read xs i = .ok xs[i] := dif_pos hi

theorem exchange_eq {xs : Array β} {i j : Nat} (hi : i < xs.size) (hj : j < xs.size) :
    exchange xs i j = .ok (xs.swap i j) := by
  rw [exchange, dif_pos hi, dif_pos hj]

theorem size_of_exchange {xs ys : Array β} {i j : Nat} (h : exchange xs i j = .ok ys) :
    ys.size = xs.size := by
  unfold exchange at h
  split at h
  · split at h
    · cases h
      exact Array.size_swap ..
    · cases h
  · cases h

/-! ### Positions of the tree -/

/-- The position above `i`. -/
def parent (i : Nat) : Except Trap Nat := (sub i 1).map (· / 2)

/-- The first of the two positions below `i`. -/
def leftChild (i : Nat) : Except Trap Nat := do
  let twice ← mul 2 i
  add twice 1

/-- Whether the slot at `i` ranks strictly behind the one at `j`. -/
def exceeds (p : Priority α) (slots : Array (Slot α)) (i j : Nat) : Except Trap Bool := do
  let behind ← read slots i
  let before ← read slots j
  pure (p.exceeds behind.value before.value)

/-- The position below whose slot comes first: `left`, or the one after it if that is there and
ranks strictly before. -/
def firstChild (p : Priority α) (slots : Array (Slot α)) (left : Nat) : Except Trap Nat := do
  let right ← add left 1
  if right < slots.size then
    let behind ← exceeds p slots left right
    pure (if behind then right else left)
  else pure left

theorem parent_eq {i : Nat} (h : 0 < i) : parent i = .ok (TrackedHeap.parent i) := by
  rw [parent, sub_eq h]
  rfl

theorem lt_of_parent {i j : Nat} (h : parent i = .ok j) : j < i := by
  unfold parent sub at h
  split at h
  · cases h
    exact Nat.lt_of_le_of_lt (Nat.div_le_self ..) (by omega)
  · cases h

/-- A position of an array that can be allocated is far from the ceiling of a word. -/
theorem leftChild_eq {i : Nat} (h : i < maxLimit) :
    leftChild i = .ok (TrackedHeap.leftChild i) := by
  have hword : 2 * i + 1 ≤ wordMax := by
    simp only [maxLimit, wordMax] at *
    omega
  rw [leftChild, mul_eq (by omega)]
  exact add_eq hword

theorem lt_of_leftChild {i j : Nat} (h : leftChild i = .ok j) : i < j := by
  unfold leftChild mul add at h
  split at h
  · simp only [bind, Except.bind] at h
    split at h
    · cases h
      omega
    · cases h
  · cases h

theorem exceeds_eq (p : Priority α) {slots : Array (Slot α)} {i j : Nat} (hi : i < slots.size)
    (hj : j < slots.size) :
    exceeds p slots i j = .ok (p.exceeds slots[i].value slots[j].value) := by
  rw [exceeds, read_eq hi, read_eq hj]
  rfl

theorem firstChild_eq (p : Priority α) {slots : Array (Slot α)} {i : Nat}
    (hl : TrackedHeap.leftChild i < slots.size) (hsize : slots.size ≤ maxLimit) :
    firstChild p slots (TrackedHeap.leftChild i) = .ok (Sift.firstChild p slots i hl) := by
  have hword : TrackedHeap.leftChild i + 1 ≤ wordMax := by
    simp only [maxLimit, wordMax] at *
    omega
  rw [firstChild, add_eq hword, Sift.firstChild]
  by_cases hr : TrackedHeap.leftChild i + 1 < slots.size
  · simp only [bind, Except.bind, hr, if_true, dite_true, exceeds_eq p hl hr]
    split <;> rfl
  · simp only [bind, Except.bind, hr, if_false, dite_false]
    rfl

theorem le_of_firstChild {p : Priority α} {slots : Array (Slot α)} {left i : Nat}
    (h : firstChild p slots left = .ok i) : left ≤ i ∧ (left < slots.size → i < slots.size) := by
  unfold firstChild add at h
  split at h
  · simp only [bind, Except.bind] at h
    split at h
    · next hr =>
        cases hx : exceeds p slots left (left + 1) with
        | error trap =>
            rw [hx] at h
            cases h
        | ok behind =>
            rw [hx] at h
            cases h
            split <;> omega
    · cases h
      exact ⟨Nat.le_refl _, id⟩
  · cases h

/-! ### Sifts -/

/-- Moves the slot at `i` towards the root, as `Sift.up` does. -/
def up (p : Priority α) (slots : Array (Slot α)) (i : Nat) : Except Trap (Sifted α) :=
  if 0 < i then
    match _ : parent i with
    | .error trap => .error trap
    | .ok above => do
        let behind ← exceeds p slots above i
        if behind then
          let raised ← exchange slots above i
          let sifted ← up p raised above
          pure (sifted.startingAt i)
        else pure ⟨slots, [i]⟩
  else .ok ⟨slots, [i]⟩
termination_by i
decreasing_by exact lt_of_parent ‹_›

/-- Moves the slot at `i` away from the root, as `Sift.down` does. -/
def down (p : Priority α) (slots : Array (Slot α)) (i : Nat) : Except Trap (Sifted α) :=
  match _ : leftChild i with
  | .error trap => .error trap
  | .ok left =>
      if _ : left < slots.size then
        match _ : firstChild p slots left with
        | .error trap => .error trap
        | .ok below => do
            let behind ← exceeds p slots i below
            if behind then
              match _ : exchange slots i below with
              | .error trap => .error trap
              | .ok lowered =>
                  let sifted ← down p lowered below
                  pure (sifted.startingAt i)
            else pure ⟨slots, [i]⟩
      else .ok ⟨slots, [i]⟩
termination_by slots.size - i
decreasing_by
  have hleft := lt_of_leftChild ‹leftChild i = _›
  have hbelow := le_of_firstChild ‹firstChild p slots left = _›
  have hsize := size_of_exchange ‹exchange slots i below = _›
  omega

/-- Puts a slot where it belongs, as `Sift.settle` does. -/
def settle (p : Priority α) (slots : Array (Slot α)) (i : Nat) : Except Trap (Sifted α) := do
  let raised ← up p slots i
  if raised.moved then pure raised else down p slots i

/-- What a sift upwards does at a position below the root. That the position above is above is
asked for by the recursion alone. -/
theorem up_eq_bind (p : Priority α) (slots : Array (Slot α)) {i : Nat} (h : 0 < i) :
    up p slots i = (do
      let above ← parent i
      let behind ← exceeds p slots above i
      if behind then
        let raised ← exchange slots above i
        let sifted ← up p raised above
        pure (sifted.startingAt i)
      else pure ⟨slots, [i]⟩) := by
  rw [up, if_pos h]
  split
  · next heq => rw [heq]; rfl
  · next heq => rw [heq]; rfl

/-- A sift upwards passes positions of the array alone. -/
theorem up_eq (p : Priority α) {slots : Array (Slot α)} {i : Nat} (hi : i < slots.size) :
    up p slots i = .ok (Sift.up p slots i hi) := by
  fun_induction Sift.up p slots i hi with
  | case1 slots i hi h hp hx ih =>
      rw [up_eq_bind p slots h, parent_eq h]
      simp only [bind, Except.bind, exceeds_eq p hp hi, hx, if_true, exchange_eq hp hi, ih]
      rfl
  | case2 slots i hi h hp hx =>
      rw [up_eq_bind p slots h, parent_eq h]
      simp only [bind, Except.bind, exceeds_eq p hp hi, hx]
      rfl
  | case3 slots i hi h => rw [up, if_neg h]

/-- What a sift downwards does at a position. -/
theorem down_eq_bind (p : Priority α) (slots : Array (Slot α)) (i : Nat) :
    down p slots i = (do
      let left ← leftChild i
      if left < slots.size then
        let below ← firstChild p slots left
        let behind ← exceeds p slots i below
        if behind then
          let lowered ← exchange slots i below
          let sifted ← down p lowered below
          pure (sifted.startingAt i)
        else pure ⟨slots, [i]⟩
      else pure ⟨slots, [i]⟩) := by
  rw [down]
  -- The matches hold on to what was computed, from which the recursion is seen to end.
  split
  · next hleft => rw [hleft]; rfl
  · next left hleft =>
      rw [hleft]
      simp only [bind, Except.bind]
      split
      · split
        · next hbelow => rw [hbelow]
        · next below hbelow =>
            rw [hbelow]
            dsimp only
            cases exceeds p slots i below with
            | error trap => rfl
            | ok behind =>
                cases behind with
                | false => rfl
                | true =>
                    simp only [if_true]
                    split
                    · next hlow => rw [hlow]
                    · next hlow => rw [hlow]
      · rfl

/-- A sift downwards computes positions beyond the array, but none beyond a word. -/
theorem down_eq (p : Priority α) {slots : Array (Slot α)} {i : Nat} (hi : i < slots.size)
    (hsize : slots.size ≤ maxLimit) :
    down p slots i = .ok (Sift.down p slots i hi) := by
  fun_induction Sift.down p slots i hi with
  | case1 slots i hi hl hc hx ih =>
      have hleft := leftChild_eq (Nat.lt_of_lt_of_le hi hsize)
      have hbelow := firstChild_eq p hl hsize
      rw [down_eq_bind, hleft]
      simp only [bind, Except.bind, hl, if_true, hbelow, exceeds_eq p hi hc, hx,
        exchange_eq hi hc, ih (by simpa using hsize)]
      rfl
  | case2 slots i hi hl hc hx =>
      have hleft := leftChild_eq (Nat.lt_of_lt_of_le hi hsize)
      have hbelow := firstChild_eq p hl hsize
      rw [down_eq_bind, hleft]
      simp only [bind, Except.bind, hl, if_true, hbelow, exceeds_eq p hi hc, hx]
      rfl
  | case3 slots i hi hl =>
      have hleft := leftChild_eq (Nat.lt_of_lt_of_le hi hsize)
      rw [down_eq_bind, hleft]
      simp only [bind, Except.bind, hl, if_false]
      rfl

theorem settle_eq (p : Priority α) {slots : Array (Slot α)} {i : Nat} (hi : i < slots.size)
    (hsize : slots.size ≤ maxLimit) :
    settle p slots i = .ok (Sift.settle p slots i hi) := by
  rw [settle, up_eq p hi, Sift.settle]
  simp only [bind, Except.bind]
  split
  · rfl
  · exact down_eq p hi hsize

end Checked

end TrackedHeap
