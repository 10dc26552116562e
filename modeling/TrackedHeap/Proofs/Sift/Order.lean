import TrackedHeap.Proofs.Sift.Rearrangement

/-!
# TrackedHeap.Proofs.Sift.Order

**Tree order** of an array of slots, and how sifts restore it.

The array is ordered when no slot ranks behind a slot below it. The three sifts are
started on arrays that are ordered but for one position:

* `Disturbed`: no pair away from the position is out of order, and the slot above the
  position does not rank behind those below it. This is what a replaced slot leaves.
* `Liftable`: besides, the slot at the position does not rank behind those below it,
  so it can only have to go up.
* `Sinkable`: besides, the slot above does not rank behind it, so it can only have to
  go down.

One exchange carries `Liftable` to the position above and `Sinkable` to the position
of the first child; each sift is then an induction on its own recursion. The middle
condition of `Disturbed`, which skips a generation, is what makes the exchanged slots
fit.
-/

namespace TrackedHeap

variable {α : Type}

/-- A ranking is **lawful** if asking with the elements exchanged gives the opposite
answer and "does not rank behind" is transitive. Different elements may be equal. -/
def Priority.Lawful (p : Priority α) : Prop := Std.TransCmp p.compare

namespace Priority

variable {p : Priority α}

theorem Lawful.compare_self (hp : p.Lawful) (a : α) : p.compare a a ≠ .gt := by
  have : Std.TransCmp p.compare := hp
  have h : p.compare a a = .eq := Std.ReflCmp.compare_self
  rw [h]
  decide

theorem Lawful.ne_gt_trans (hp : p.Lawful) {a b c : α} (hab : p.compare a b ≠ .gt)
    (hbc : p.compare b c ≠ .gt) : p.compare a c ≠ .gt := by
  have : Std.TransCmp p.compare := hp
  have hle : (p.compare a c).isLE :=
    Std.TransCmp.isLE_trans (Ordering.isLE_iff_ne_gt.mpr hab) (Ordering.isLE_iff_ne_gt.mpr hbc)
  exact Ordering.isLE_iff_ne_gt.mp hle

/-- What ranks strictly behind comes after, and not also before. -/
theorem Lawful.ne_gt_of_exceeds (hp : p.Lawful) {a b : α} (h : p.exceeds a b = true) :
    p.compare b a ≠ .gt := by
  have : Std.TransCmp p.compare := hp
  exact Std.OrientedCmp.not_gt_of_gt (p.exceeds_iff.mp h)

theorem ne_gt_of_not_exceeds {a b : α} (h : ¬ p.exceeds a b = true) : p.compare a b ≠ .gt :=
  fun hgt => h (p.exceeds_iff.mpr hgt)

end Priority

/-! ### Pairs in order -/

/-- If there are slots at `i` and `j`, the one at `i` does not rank behind the one at
`j`. -/
def InOrder (p : Priority α) (slots : Array (Slot α)) (i j : Nat) : Prop :=
  ∀ a b, slots[i]? = some a → slots[j]? = some b → p.compare a.value b.value ≠ .gt

/-- No slot ranks behind a slot below it. -/
def Ordered (p : Priority α) (slots : Array (Slot α)) : Prop :=
  ∀ j, 0 < j → InOrder p slots (parent j) j

/-- Ordered but for the slot at `i`, which may rank anywhere. -/
structure Disturbed (p : Priority α) (slots : Array (Slot α)) (i : Nat) : Prop where
  /-- A slot away from `i` does not rank behind one below it. -/
  away : ∀ j, 0 < j → j ≠ i → parent j ≠ i → InOrder p slots (parent j) j
  /-- The slot above `i` does not rank behind those below `i`. -/
  across : 0 < i → ∀ j, 0 < j → parent j = i → InOrder p slots (parent i) j

/-- Ordered but for the slot at `i`, which may have to go up. -/
structure Liftable (p : Priority α) (slots : Array (Slot α)) (i : Nat) : Prop
    extends Disturbed p slots i where
  /-- The slot at `i` does not rank behind those below it. -/
  below : ∀ j, 0 < j → parent j = i → InOrder p slots i j

/-- Ordered but for the slot at `i`, which may have to go down. -/
structure Sinkable (p : Priority α) (slots : Array (Slot α)) (i : Nat) : Prop
    extends Disturbed p slots i where
  /-- The slot above `i` does not rank behind it. -/
  above : 0 < i → InOrder p slots (parent i) i

namespace InOrder

variable {p : Priority α} {slots : Array (Slot α)} {i j k : Nat}

theorem of_compare {hi : i < slots.size} {hj : j < slots.size}
    (h : p.compare slots[i].value slots[j].value ≠ .gt) : InOrder p slots i j := by
  intro a b ha hb
  rw [Array.getElem?_eq_getElem hi] at ha
  rw [Array.getElem?_eq_getElem hj] at hb
  cases ha
  cases hb
  exact h

/-- A position outside the array is in order with every other. -/
theorem of_size_le (h : slots.size ≤ j) : InOrder p slots i j := by
  intro a b _ hb
  rw [Array.getElem?_eq_none h] at hb
  cases hb

theorem refl (hp : p.Lawful) : InOrder p slots i i := by
  intro a b ha hb
  rw [ha] at hb
  cases hb
  exact hp.compare_self a.value

theorem trans (hp : p.Lawful) (hj : j < slots.size) (hij : InOrder p slots i j)
    (hjk : InOrder p slots j k) : InOrder p slots i k := by
  intro a c ha hc
  have hb : slots[j]? = some slots[j] := Array.getElem?_eq_getElem hj
  exact hp.ne_gt_trans (hij _ _ ha hb) (hjk _ _ hb hc)

/-- Positions whose slots came from others are in order if those are. -/
theorem of_swap {a b : Nat} {ha : a < slots.size} {hb : b < slots.size}
    (h : InOrder p slots (Equiv.swap a b i) (Equiv.swap a b j)) :
    InOrder p (slots.swap a b) i j := by
  intro x y hx hy
  rw [getElem?_swap_eq] at hx hy
  exact h x y hx hy

end InOrder

instance (p : Priority α) (slots : Array (Slot α)) (i j : Nat) : Decidable (InOrder p slots i j) :=
  decidable_of_iff (∀ a ∈ slots[i]?, ∀ b ∈ slots[j]?, p.compare a.value b.value ≠ .gt)
    ⟨fun h a b ha hb => h a ha b hb, fun h a ha b hb => h a b ha hb⟩

/-- Whether an array is disturbed at a position at most is decided by the slots that it has. -/
theorem disturbed_iff {p : Priority α} {slots : Array (Slot α)} {i : Nat} :
    Disturbed p slots i ↔
      (∀ j < slots.size, 0 < j → j ≠ i → parent j ≠ i → InOrder p slots (parent j) j) ∧
        (0 < i → ∀ j < slots.size, 0 < j → parent j = i → InOrder p slots (parent i) j) := by
  constructor
  · exact fun hd => ⟨fun j _ => hd.away j, fun hi j _ => hd.across hi j⟩
  · intro h
    refine ⟨fun j hj hji hpj => ?_, fun hi j hj hpj => ?_⟩
    · rcases Nat.lt_or_ge j slots.size with hlt | hge
      · exact h.1 j hlt hj hji hpj
      · exact .of_size_le hge
    · rcases Nat.lt_or_ge j slots.size with hlt | hge
      · exact h.2 hi j hlt hj hpj
      · exact .of_size_le hge

instance (p : Priority α) (slots : Array (Slot α)) (i : Nat) : Decidable (Disturbed p slots i) :=
  decidable_of_iff _ disturbed_iff.symm

/-- In an ordered array the root does not rank behind any slot. -/
theorem Ordered.root {p : Priority α} (hp : p.Lawful) {slots : Array (Slot α)}
    (ho : Ordered p slots) (j : Nat) : InOrder p slots 0 j := by
  induction j using Nat.strongRecOn with
  | ind j ih =>
      by_cases hj : 0 < j
      · have hlt := parent_lt hj
        by_cases hs : parent j < slots.size
        · exact (ih (parent j) hlt).trans hp hs (ho j hj)
        · exact .of_size_le (by omega)
      · have h0 : j = 0 := by omega
        subst h0
        exact .refl hp

/-! ### One exchange -/

section Exchange

variable {p : Priority α} {slots : Array (Slot α)} {i : Nat}

/-- The exchange with a parent that ranks behind hands the doubt on to the parent's
position. -/
theorem Liftable.swap_parent (hp : p.Lawful) (hl : Liftable p slots i) (h : 0 < i)
    (hi : i < slots.size) (hpi : parent i < slots.size)
    (hx : p.exceeds slots[parent i].value slots[i].value = true) :
    Liftable p (slots.swap (parent i) i) (parent i) := by
  have hlt := parent_lt h
  -- Everything below the parent stays behind it, the old slot of `i` excepted.
  have hparent : ∀ j, 0 < j → j ≠ i → parent j = parent i → InOrder p slots (parent i) j := by
    intro j hj hji hq
    rw [← hq]
    exact hl.away j hj hji (by omega)
  have hrisen : InOrder p slots i (parent i) := .of_compare (hp.ne_gt_of_exceeds hx)
  refine ⟨⟨?_, ?_⟩, ?_⟩
  · intro j hj hjq hq
    have hji : j ≠ i := fun hji => hq (hji ▸ rfl)
    apply InOrder.of_swap
    rw [Equiv.swap_apply_of_ne_of_ne hjq hji]
    by_cases hpj : parent j = i
    · rw [hpj, Equiv.swap_apply_right]
      exact hl.across h j hj hpj
    · rw [Equiv.swap_apply_of_ne_of_ne hq hpj]
      exact hl.away j hj hji hpj
  · intro hq0 j hj hq
    have hqlt := parent_lt hq0
    have hgrand : InOrder p slots (parent (parent i)) (parent i) :=
      hl.away (parent i) hq0 (by omega) (by omega)
    apply InOrder.of_swap
    rw [Equiv.swap_apply_of_ne_of_ne (by omega) (by omega)]
    by_cases hji : j = i
    · rw [hji, Equiv.swap_apply_right]
      exact hgrand
    · have hjlt := parent_lt hj
      rw [Equiv.swap_apply_of_ne_of_ne (by omega) hji]
      exact hgrand.trans hp hpi (hparent j hj hji hq)
  · intro j hj hq
    apply InOrder.of_swap
    rw [Equiv.swap_apply_left]
    by_cases hji : j = i
    · rw [hji, Equiv.swap_apply_right]
      exact hrisen
    · have hjlt := parent_lt hj
      rw [Equiv.swap_apply_of_ne_of_ne (by omega) hji]
      exact hrisen.trans hp hpi (hparent j hj hji hq)

/-- A slot with nothing out of order above it is in its place. -/
theorem Liftable.ordered (hl : Liftable p slots i) (hstop : 0 < i → InOrder p slots (parent i) i) :
    Ordered p slots := by
  intro j hj
  by_cases hji : j = i
  · subst hji
    exact hstop hj
  · by_cases hpj : parent j = i
    · rw [hpj]
      exact hl.below j hj hpj
    · exact hl.away j hj hji hpj

/-- The first child does not rank behind its sibling. -/
theorem inOrder_firstChild (hp : p.Lawful) (hl : leftChild i < slots.size) {j : Nat} (hj : 0 < j)
    (hpj : parent j = i) : InOrder p slots (Sift.firstChild p slots i hl) j := by
  have hchild : j = leftChild i ∨ j = leftChild i + 1 := by
    unfold parent at hpj
    unfold leftChild
    omega
  unfold Sift.firstChild
  split
  · next hr =>
      split
      · next hx =>
          rcases hchild with rfl | rfl
          · exact .of_compare (hp.ne_gt_of_exceeds hx)
          · exact .refl hp
      · next hx =>
          rcases hchild with rfl | rfl
          · exact .refl hp
          · exact .of_compare (Priority.ne_gt_of_not_exceeds hx)
  · next hr =>
      rcases hchild with rfl | rfl
      · exact .refl hp
      · exact .of_size_le (by omega)

/-- The exchange with the first child, when the slot ranks behind it, hands the doubt on
to the child's position. -/
theorem Sinkable.swap_firstChild (hp : p.Lawful) (hs : Sinkable p slots i)
    (hi : i < slots.size) (hl : leftChild i < slots.size)
    (hc : Sift.firstChild p slots i hl < slots.size)
    (hx : p.exceeds slots[i].value slots[Sift.firstChild p slots i hl].value = true) :
    Sinkable p (slots.swap i (Sift.firstChild p slots i hl)) (Sift.firstChild p slots i hl) := by
  have hmin := fun j => inOrder_firstChild (j := j) hp hl
  have hlt : i < Sift.firstChild p slots i hl := Sift.lt_firstChild hl
  have hpc : parent (Sift.firstChild p slots i hl) = i := Sift.parent_firstChild hl
  generalize Sift.firstChild p slots i hl = c at *
  refine ⟨⟨?_, ?_⟩, ?_⟩
  · intro j hj hjc hq
    apply InOrder.of_swap
    by_cases hji : j = i
    · subst hji
      have hjlt := parent_lt hj
      rw [Equiv.swap_apply_left, Equiv.swap_apply_of_ne_of_ne (by omega) hq]
      exact hs.across hj c (by omega) hpc
    · rw [Equiv.swap_apply_of_ne_of_ne hji hjc]
      by_cases hpj : parent j = i
      · rw [hpj, Equiv.swap_apply_left]
        exact hmin j hj hpj
      · rw [Equiv.swap_apply_of_ne_of_ne hpj hq]
        exact hs.away j hj hji hpj
  · intro hc0 j hj hq
    have hjlt := parent_lt hj
    apply InOrder.of_swap
    rw [hpc, Equiv.swap_apply_left, Equiv.swap_apply_of_ne_of_ne (by omega) (by omega), ← hq]
    exact hs.away j hj (by omega) (by omega)
  · intro hc0
    apply InOrder.of_swap
    rw [hpc, Equiv.swap_apply_left, Equiv.swap_apply_right]
    exact .of_compare (hp.ne_gt_of_exceeds hx)

/-- A slot with nothing out of order below it is in its place. -/
theorem Sinkable.ordered (hs : Sinkable p slots i)
    (hstop : ∀ j, 0 < j → parent j = i → InOrder p slots i j) : Ordered p slots :=
  Liftable.ordered ⟨hs.toDisturbed, hstop⟩ hs.above

end Exchange

/-! ### Whole sifts -/

namespace Sift

variable {p : Priority α}

/-- **Sifting up** puts a slot that may have to go up into its place. -/
theorem ordered_up (hp : p.Lawful) {slots : Array (Slot α)} {i : Nat} {hi : i < slots.size}
    (hl : Liftable p slots i) : Ordered p (up p slots i hi).slots := by
  fun_induction up p slots i hi with
  | case1 slots i hi h hpi hx ih => exact ih (hl.swap_parent hp h hi hpi hx)
  | case2 slots i hi h hpi hx =>
      exact hl.ordered fun _ => .of_compare (Priority.ne_gt_of_not_exceeds hx)
  | case3 slots i hi h => exact hl.ordered fun h0 => absurd h0 h

/-- **Sifting down** puts a slot that may have to go down into its place. -/
theorem ordered_down (hp : p.Lawful) {slots : Array (Slot α)} {i : Nat} {hi : i < slots.size}
    (hs : Sinkable p slots i) : Ordered p (down p slots i hi).slots := by
  fun_induction down p slots i hi with
  | case1 slots i hi hl hc hx ih => exact ih (hs.swap_firstChild hp hi hl hc hx)
  | case2 slots i hi hl hc hx =>
      refine hs.ordered ?_
      intro j hj hpj
      have hfirst : InOrder p slots i (firstChild p slots i hl) :=
        .of_compare (Priority.ne_gt_of_not_exceeds hx)
      exact hfirst.trans hp hc (inOrder_firstChild hp hl hj hpj)
  | case3 slots i hi hl =>
      refine hs.ordered fun j hj hpj => .of_size_le ?_
      unfold parent at hpj
      unfold leftChild at hl
      omega

/-- A sift up moves the slot exactly if its parent ranks behind it. -/
theorem moved_up_iff {slots : Array (Slot α)} {i : Nat} (hi : i < slots.size) :
    (up p slots i hi).moved = true ↔
      0 < i ∧ ∃ hpi : parent i < slots.size,
        p.exceeds slots[parent i].value slots[i].value = true := by
  unfold up
  split
  · next h =>
      have hpi : parent i < slots.size := Nat.lt_trans (parent_lt h) hi
      dsimp only
      split
      · next hx =>
          have hlen := List.length_pos_of_mem
            (mem_path_up p (slots.swap (parent i) i) (parent i) (by simpa using hpi))
          refine ⟨fun _ => ⟨h, hpi, hx⟩, fun _ => decide_eq_true ?_⟩
          rw [Sifted.path_startingAt, List.length_cons]
          omega
      · next hx => simp [Sifted.moved, hx]
  · next h => simp [Sifted.moved, h]

/-- **Settling** puts any one slot into its place. A slot that rose ranks before its old
parent, hence before everything below, so there is nothing left to sift down. -/
theorem ordered_settle (hp : p.Lawful) {slots : Array (Slot α)} {i : Nat} {hi : i < slots.size}
    (hd : Disturbed p slots i) : Ordered p (settle p slots i hi).slots := by
  unfold settle
  dsimp only
  split
  · next hm =>
      obtain ⟨h, hpi, hx⟩ := (moved_up_iff hi).mp hm
      have hrisen : InOrder p slots i (parent i) := .of_compare (hp.ne_gt_of_exceeds hx)
      exact ordered_up hp
        ⟨hd, fun j hj hpj => hrisen.trans hp hpi (hd.across h j hj hpj)⟩
  · next hm =>
      refine ordered_down hp ⟨hd, ?_⟩
      intro h
      have hpi : parent i < slots.size := Nat.lt_trans (parent_lt h) hi
      have hle : p.compare slots[parent i].value slots[i].value ≠ .gt :=
        Priority.ne_gt_of_not_exceeds fun hx => hm ((moved_up_iff hi).mpr ⟨h, hpi, hx⟩)
      exact .of_compare hle

end Sift

end TrackedHeap
