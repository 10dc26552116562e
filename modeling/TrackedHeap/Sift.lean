import TrackedHeap.Priority

/-!
# TrackedHeap.Sift

**Sifting**: moving one slot of the array along the tree until it fits.

The array holds a binary tree: below position `i` are `2 * i + 1` and
`2 * i + 2`. A sift exchanges the moving slot with its neighbour on a path of
this tree, towards the root (`up`) or away from it (`down`), for as long as the
two rank strictly the wrong way round. Slots of equal rank are never exchanged.

A sift reports the positions it visited, from where the moving slot started to
where it stays. These are exactly the positions whose slot may have changed, which
is what the registry has to be told about.
-/

namespace TrackedHeap

/-- A place of the array: an element, and its key if it was stored under a handle. -/
structure Slot (α : Type) where
  /-- The element. -/
  value : α
  /-- The key of the registry that names the element. -/
  key : Option Nat
  deriving DecidableEq, Repr

/-- The position above `i`. -/
def parent (i : Nat) : Nat := (i - 1) / 2

/-- The first of the two positions below `i`; the other one follows it. -/
def leftChild (i : Nat) : Nat := 2 * i + 1

theorem parent_lt {i : Nat} (h : 0 < i) : parent i < i := by
  unfold parent; omega

theorem lt_leftChild (i : Nat) : i < leftChild i := by
  unfold leftChild; omega

@[simp] theorem parent_leftChild (i : Nat) : parent (leftChild i) = i := by
  unfold parent leftChild; omega

@[simp] theorem parent_leftChild_succ (i : Nat) : parent (leftChild i + 1) = i := by
  unfold parent leftChild; omega

/-- The slots after a sift, and the positions it went through. -/
structure Sifted (α : Type) where
  /-- All slots, rearranged. -/
  slots : Array (Slot α)
  /-- The positions visited, the starting one first. -/
  path : List Nat

namespace Sifted

/-- Whether the slot left its place. -/
def moved {α : Type} (s : Sifted α) : Bool := 1 < s.path.length

/-- The same sift, seen from one position earlier on its path. -/
def startingAt {α : Type} (s : Sifted α) (i : Nat) : Sifted α := { s with path := i :: s.path }

@[simp] theorem slots_startingAt {α : Type} (s : Sifted α) (i : Nat) :
    (s.startingAt i).slots = s.slots := rfl

@[simp] theorem path_startingAt {α : Type} (s : Sifted α) (i : Nat) :
    (s.startingAt i).path = i :: s.path := rfl

end Sifted

namespace Sift

variable {α : Type}

/-- Moves the slot at `i` towards the root while its parent ranks strictly behind
it. -/
def up (p : Priority α) (slots : Array (Slot α)) (i : Nat) (hi : i < slots.size) : Sifted α :=
  if h : 0 < i then
    have hp : parent i < slots.size := Nat.lt_trans (parent_lt h) hi
    if p.exceeds slots[parent i].value slots[i].value then
      (up p (slots.swap (parent i) i) (parent i) (by simpa using hp)).startingAt i
    else ⟨slots, [i]⟩
  else ⟨slots, [i]⟩
termination_by i
decreasing_by exact parent_lt h

/-- The position below `i` whose slot comes first: the right one only if the left
one ranks strictly behind it. -/
def firstChild (p : Priority α) (slots : Array (Slot α)) (i : Nat)
    (hl : leftChild i < slots.size) : Nat :=
  if hr : leftChild i + 1 < slots.size then
    if p.exceeds slots[leftChild i].value slots[leftChild i + 1].value then leftChild i + 1
    else leftChild i
  else leftChild i

theorem firstChild_lt_size {p : Priority α} {slots : Array (Slot α)} {i : Nat}
    (hl : leftChild i < slots.size) : firstChild p slots i hl < slots.size := by
  unfold firstChild; repeat' split
  all_goals assumption

theorem lt_firstChild {p : Priority α} {slots : Array (Slot α)} {i : Nat}
    (hl : leftChild i < slots.size) : i < firstChild p slots i hl := by
  have := lt_leftChild i
  unfold firstChild; repeat' split
  all_goals omega

@[simp] theorem parent_firstChild {p : Priority α} {slots : Array (Slot α)} {i : Nat}
    (hl : leftChild i < slots.size) : parent (firstChild p slots i hl) = i := by
  unfold firstChild; repeat' split
  all_goals simp

/-- Moves the slot at `i` away from the root while it ranks strictly behind the
first of the slots below it. -/
def down (p : Priority α) (slots : Array (Slot α)) (i : Nat) (hi : i < slots.size) : Sifted α :=
  if hl : leftChild i < slots.size then
    have hc : firstChild p slots i hl < slots.size := firstChild_lt_size hl
    if p.exceeds slots[i].value slots[firstChild p slots i hl].value then
      (down p (slots.swap i (firstChild p slots i hl)) (firstChild p slots i hl)
        (by simpa using hc)).startingAt i
    else ⟨slots, [i]⟩
  else ⟨slots, [i]⟩
termination_by slots.size - i
decreasing_by
  have := lt_firstChild (p := p) hl
  simp only [Array.size_swap]
  omega

/-- Puts a slot that may be out of place in either direction where it belongs. A
slot that moved up fits where it is, so it is moved down only if it did not. -/
def settle (p : Priority α) (slots : Array (Slot α)) (i : Nat) (hi : i < slots.size) : Sifted α :=
  let raised := up p slots i hi
  -- Where a slot rose from, its old parent now stands, which already came before all below.
  if raised.moved then raised else down p slots i hi

@[simp] theorem size_up (p : Priority α) (slots : Array (Slot α)) (i : Nat) (hi : i < slots.size) :
    (up p slots i hi).slots.size = slots.size := by
  fun_induction up p slots i hi <;> simp_all

@[simp] theorem size_down (p : Priority α) (slots : Array (Slot α)) (i : Nat)
    (hi : i < slots.size) : (down p slots i hi).slots.size = slots.size := by
  fun_induction down p slots i hi <;> simp_all

@[simp] theorem size_settle (p : Priority α) (slots : Array (Slot α)) (i : Nat)
    (hi : i < slots.size) : (settle p slots i hi).slots.size = slots.size := by
  unfold settle
  dsimp only
  split <;> simp

/-- A sift begins where it is asked to. -/
@[simp] theorem head?_path_up (p : Priority α) (slots : Array (Slot α)) (i : Nat)
    (hi : i < slots.size) : (up p slots i hi).path.head? = some i := by
  unfold up
  dsimp only
  repeat' split
  all_goals rfl

@[simp] theorem head?_path_down (p : Priority α) (slots : Array (Slot α)) (i : Nat)
    (hi : i < slots.size) : (down p slots i hi).path.head? = some i := by
  unfold down
  dsimp only
  repeat' split
  all_goals rfl

/-- Sifting exchanges slots and does nothing else to them. -/
theorem perm_up (p : Priority α) (slots : Array (Slot α)) (i : Nat) (hi : i < slots.size) :
    (up p slots i hi).slots.Perm slots := by
  fun_induction up p slots i hi with
  | case1 slots i hi h hp hx ih => exact ih.trans (Array.swap_perm hp hi)
  | case2 slots i hi h hp hx => exact .refl slots
  | case3 slots i hi h => exact .refl slots

theorem perm_down (p : Priority α) (slots : Array (Slot α)) (i : Nat) (hi : i < slots.size) :
    (down p slots i hi).slots.Perm slots := by
  fun_induction down p slots i hi with
  | case1 slots i hi hl hc hx ih => exact ih.trans (Array.swap_perm hi hc)
  | case2 slots i hi hl hc hx => exact .refl slots
  | case3 slots i hi hl => exact .refl slots

theorem perm_settle (p : Priority α) (slots : Array (Slot α)) (i : Nat) (hi : i < slots.size) :
    (settle p slots i hi).slots.Perm slots := by
  unfold settle
  dsimp only
  split
  · exact perm_up p slots i hi
  · exact perm_down p slots i hi

end Sift

end TrackedHeap
