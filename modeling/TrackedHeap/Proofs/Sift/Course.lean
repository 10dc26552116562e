import Mathlib.Data.List.Iterate
import Mathlib.Logic.Function.Iterate
import TrackedHeap.Proofs.Sift.Order

/-!
# TrackedHeap.Proofs.Sift.Course

**The course of a sift**: where the sifted slot comes to rest, and what becomes of the others.

A slot rises along the positions above it, and each slot it passes comes down one level on the
same line (`Raised`). A slot that sinks does so along such a line too, with the same effect seen
from the other end, so sinking is told with the arrays exchanged. One exchange at the lower end of
a line, or at its upper end, makes it one level longer; the sifts are inductions on that.

Nothing is asked of the ranking: how far a slot goes is told by comparisons of slots where they
were before the sift (`Rise`, `Fall`).
-/

namespace TrackedHeap

variable {α : Type}

/-! ### Lines of positions -/

/-- Above the root there is only the root, and every other line goes up strictly. -/
theorem iterate_parent_lt {i d a b : Nat} (hpos : ∀ k < d, 0 < parent^[k] i) (hab : a < b)
    (hb : b ≤ d) : parent^[b] i < parent^[a] i := by
  induction b with
  | zero => exact absurd hab (Nat.not_lt_zero a)
  | succ b ih =>
      have hstep : parent^[b + 1] i < parent^[b] i := by
        rw [Function.iterate_succ_apply']
        exact parent_lt (hpos b (by omega))
      rcases Nat.lt_succ_iff_lt_or_eq.mp hab with hlt | rfl
      · exact Nat.lt_trans hstep (ih hlt (by omega))
      · exact hstep

theorem iterate_parent_le {i d a b : Nat} (hpos : ∀ k < d, 0 < parent^[k] i) (hab : a ≤ b)
    (hb : b ≤ d) : parent^[b] i ≤ parent^[a] i := by
  rcases Nat.lt_or_eq_of_le hab with hlt | rfl
  · exact Nat.le_of_lt (iterate_parent_lt hpos hlt hb)
  · exact Nat.le_refl _

/-- `slots'` is `slots` with the slot at `i` carried `d` levels up: every slot on the way has come
down one level, and the others are where they were. -/
structure Raised (slots slots' : Array (Slot α)) (i d : Nat) : Prop where
  /-- There are as many levels above `i`. -/
  pos : ∀ k < d, 0 < parent^[k] i
  carried : slots'[parent^[d] i]? = slots[i]?
  passed : ∀ k < d, slots'[parent^[k] i]? = slots[parent^[k + 1] i]?
  aside : ∀ j, (∀ k ≤ d, j ≠ parent^[k] i) → slots'[j]? = slots[j]?

namespace Raised

variable {slots slots' : Array (Slot α)} {i d : Nat}

theorem refl (slots : Array (Slot α)) (i : Nat) : Raised slots slots i 0 :=
  ⟨nofun, rfl, nofun, fun _ _ => rfl⟩

theorem eq_of_zero (hr : Raised slots slots' i 0) : slots' = slots := by
  refine Array.ext_getElem? fun j => ?_
  by_cases hj : j = i
  · exact hj ▸ hr.carried
  · exact hr.aside j fun k hk => by rwa [Nat.le_zero.mp hk]

end Raised

section Exchange

variable {slots slots' : Array (Slot α)} {i j d : Nat}

theorem getElem?_swap_of_ne {a b : Nat} (ha : a < slots.size) (hb : b < slots.size)
    (hja : j ≠ a) (hjb : j ≠ b) : (slots.swap a b)[j]? = slots[j]? := by
  rw [getElem?_swap_eq slots ha hb, Equiv.swap_apply_of_ne_of_ne hja hjb]

theorem getElem?_swap_left {a b : Nat} (ha : a < slots.size) (hb : b < slots.size) :
    (slots.swap a b)[a]? = slots[b]? := by
  rw [getElem?_swap_eq slots ha hb, Equiv.swap_apply_left]

theorem getElem?_swap_right {a b : Nat} (ha : a < slots.size) (hb : b < slots.size) :
    (slots.swap a b)[b]? = slots[a]? := by
  rw [getElem?_swap_eq slots ha hb, Equiv.swap_apply_right]

theorem inOrder_swap_iff {p : Priority α} {a b : Nat} (ha : a < slots.size) (hb : b < slots.size)
    {j k : Nat} : InOrder p (slots.swap a b) j k ↔
      InOrder p slots (Equiv.swap a b j) (Equiv.swap a b k) := by
  simp only [InOrder, getElem?_swap_eq slots ha hb]

/-- **One level more, at the lower end**: the slot is exchanged with its parent first, and goes on
from there. -/
theorem raised_succ_iff (h0 : 0 < i) (hi : i < slots.size) (hp : parent i < slots.size) :
    Raised slots slots' i (d + 1) ↔ Raised (slots.swap (parent i) i) slots' (parent i) d := by
  have hlt := parent_lt h0
  constructor
  · intro hr
    have hbelow : ∀ k ≤ d, parent^[k + 1] i < i := fun k hk =>
      iterate_parent_lt hr.pos (Nat.succ_pos k) (by omega)
    have hline : ∀ k < d, parent^[k + 2] i < parent i := fun k hk =>
      iterate_parent_lt (a := 1) hr.pos (by omega) (by omega)
    refine ⟨fun k hk => hr.pos (k + 1) (by omega), ?_, ?_, ?_⟩
    · rw [getElem?_swap_left hp hi]
      exact hr.carried
    · intro k hk
      have hk2 : parent^[k + 1] (parent i) < parent i := hline k hk
      rw [getElem?_swap_of_ne hp hi (by omega) (by omega)]
      exact hr.passed (k + 1) (by omega)
    · intro j hj
      by_cases hji : j = i
      · subst hji
        rw [getElem?_swap_right hp hi]
        exact hr.passed 0 (by omega)
      · rw [getElem?_swap_of_ne hp hi (hj 0 (by omega)) hji]
        refine hr.aside j fun k hk => ?_
        cases k with
        | zero => exact hji
        | succ k => exact hj k (by omega)
  · intro hr
    have hpos : ∀ k < d + 1, 0 < parent^[k] i := by
      intro k hk
      cases k with
      | zero => exact h0
      | succ k => exact hr.pos k (by omega)
    refine ⟨hpos, ?_, ?_, ?_⟩
    · exact hr.carried.trans (getElem?_swap_left hp hi)
    · intro k hk
      cases k with
      | zero =>
          have haside := hr.aside i fun k hk => Nat.ne_of_gt
            (iterate_parent_lt hpos (Nat.succ_pos k) (by omega))
          exact haside.trans (getElem?_swap_right hp hi)
      | succ k =>
          have hk2 : parent^[k + 1] (parent i) < parent i :=
            iterate_parent_lt hr.pos (Nat.succ_pos k) (by omega)
          refine (hr.passed k (by omega)).trans ?_
          rw [getElem?_swap_of_ne hp hi (by omega) (by omega)]
          rfl
    · intro j hj
      rw [hr.aside j fun k hk => hj (k + 1) (by omega)]
      exact getElem?_swap_of_ne hp hi (hj 1 (by omega)) (hj 0 (by omega))

/-- **One level more, at the upper end**, seen from above: the slot at the top is exchanged with
the one below it on the line, and goes on down from there. -/
theorem lowered_succ_iff {c q : Nat} (hdj : parent^[d] j = c) (hpc : parent c = q) (h0 : 0 < c)
    (hq : q < slots.size) (hc : c < slots.size) :
    Raised slots' slots j (d + 1) ↔ Raised slots' (slots.swap q c) j d := by
  have hqc : q < c := hpc ▸ parent_lt h0
  have hdj' : parent^[d + 1] j = q := by rw [Function.iterate_succ_apply', hdj, hpc]
  have hpos : (∀ k < d, 0 < parent^[k] j) → ∀ k < d + 1, 0 < parent^[k] j := by
    intro hr k hk
    rcases Nat.lt_succ_iff_lt_or_eq.mp hk with hk | rfl
    · exact hr k hk
    · exact hdj ▸ h0
  have hline : (∀ k < d, 0 < parent^[k] j) → ∀ k < d, c < parent^[k] j :=
    fun hr k hk => hdj ▸ iterate_parent_lt hr hk (Nat.le_refl d)
  constructor
  · intro hr
    have hr0 : ∀ k < d, 0 < parent^[k] j := fun k hk => hr.pos k (by omega)
    refine ⟨hr0, ?_, ?_, ?_⟩
    · rw [hdj, getElem?_swap_right hq hc, ← hdj']
      exact hr.carried
    · intro k hk
      have := hline hr0 k hk
      rw [getElem?_swap_of_ne hq hc (by omega) (by omega)]
      exact hr.passed k (by omega)
    · intro x hx
      by_cases hxq : x = q
      · rw [hxq, getElem?_swap_left hq hc, ← hdj', ← hdj]
        exact hr.passed d (by omega)
      · rw [getElem?_swap_of_ne hq hc hxq (hdj ▸ hx d (Nat.le_refl d))]
        refine hr.aside x fun k hk => ?_
        rcases Nat.lt_or_eq_of_le hk with hk | rfl
        · exact hx k (by omega)
        · exact hdj' ▸ hxq
  · intro hr
    refine ⟨hpos hr.pos, ?_, ?_, ?_⟩
    · have htop : (slots.swap q c)[c]? = slots'[j]? := by simpa only [hdj] using hr.carried
      rw [hdj', ← getElem?_swap_right hq hc, htop]
    · intro k hk
      rcases Nat.lt_succ_iff_lt_or_eq.mp hk with hk | rfl
      · have := hline hr.pos k hk
        rw [← getElem?_swap_of_ne hq hc (j := parent^[k] j) (by omega) (by omega)]
        exact hr.passed k hk
      · rw [hdj, hdj', ← getElem?_swap_left hq hc]
        refine hr.aside q fun l hl => Nat.ne_of_lt ?_
        exact hdj' ▸ iterate_parent_lt (hpos hr.pos) (by omega) (Nat.le_refl _)
    · intro x hx
      rw [← getElem?_swap_of_ne hq hc (hdj' ▸ hx (d + 1) (by omega)) (hdj ▸ hx d (by omega))]
      exact hr.aside x fun k hk => hx k (by omega)

end Exchange

/-! ### Whole sifts -/

/-- `s` carries the slot at `i` up by `d` levels: past every slot that ranks strictly behind it,
and to below the first one that does not. -/
structure Rise (p : Priority α) (slots : Array (Slot α)) (i d : Nat) (s : Sifted α) : Prop where
  raised : Raised slots s.slots i d
  length_path : s.path.length = d + 1
  passes : ∀ k < d, ¬ InOrder p slots (parent^[k + 1] i) i
  stops : 0 < parent^[d] i → InOrder p slots (parent^[d + 1] i) i

/-- `s` carries the slot at `i` down by `d` levels, to `j`: at each level to the first of the slots
below, past every one that it ranks strictly behind, and to above the first one that it does not. -/
structure Fall (p : Priority α) (slots : Array (Slot α)) (i j d : Nat) (s : Sifted α) : Prop where
  start_eq : parent^[d] j = i
  raised : Raised s.slots slots j d
  length_path : s.path.length = d + 1
  chosen : ∀ k < d, ∃ hl : leftChild (parent^[k + 1] j) < slots.size,
    Sift.firstChild p slots (parent^[k + 1] j) hl = parent^[k] j
  passes : ∀ k < d, ¬ InOrder p slots i (parent^[k] j)
  stops : ∀ hl : leftChild j < slots.size, InOrder p slots i (Sift.firstChild p slots j hl)

section Step

variable {p : Priority α} {slots : Array (Slot α)} {i j d c : Nat} {s : Sifted α}

/-- One exchange with the parent in front of a sift that goes on from there. -/
theorem Rise.of_swap (h0 : 0 < i) (hi : i < slots.size) (hp : parent i < slots.size)
    (hx : ¬ InOrder p slots (parent i) i)
    (hs : Rise p (slots.swap (parent i) i) (parent i) d s) :
    Rise p slots i (d + 1) (s.startingAt i) := by
  have hlt := parent_lt h0
  -- Above the parent the exchange has changed nothing, and the sifted slot is at the parent.
  have hinOrder : ∀ k, parent^[k + 1] (parent i) < parent i →
      (InOrder p (slots.swap (parent i) i) (parent^[k + 1] (parent i)) (parent i) ↔
        InOrder p slots (parent^[k + 2] i) i) := by
    intro k hk
    rw [inOrder_swap_iff hp hi, Equiv.swap_apply_left,
      Equiv.swap_apply_of_ne_of_ne (by omega) (by omega)]
    rfl
  refine ⟨(raised_succ_iff h0 hi hp).mpr hs.raised, by simp [hs.length_path], ?_, ?_⟩
  · intro k hk
    cases k with
    | zero => exact hx
    | succ k =>
        rw [← hinOrder k (iterate_parent_lt hs.raised.pos (Nat.succ_pos k) (by omega))]
        exact hs.passes k (by omega)
  · intro htop
    have htop' : 0 < parent^[d] (parent i) := htop
    have hpos : ∀ k < d + 1, 0 < parent^[k] (parent i) := by
      intro k hk
      rcases Nat.lt_succ_iff_lt_or_eq.mp hk with hk | rfl
      · exact hs.raised.pos k hk
      · exact htop'
    rw [← hinOrder d (iterate_parent_lt hpos (Nat.succ_pos d) (Nat.le_refl _))]
    exact hs.stops htop'

/-- A slot that fits below its parent does not rise. -/
theorem Rise.refl (hstop : 0 < i → InOrder p slots (parent i) i) : Rise p slots i 0 ⟨slots, [i]⟩ :=
  ⟨.refl slots i, rfl, nofun, hstop⟩

/-- A slot that fits above the first of those below it does not fall. -/
theorem Fall.refl
    (hstop : ∀ hl : leftChild i < slots.size, InOrder p slots i (Sift.firstChild p slots i hl)) :
    Fall p slots i i 0 ⟨slots, [i]⟩ :=
  ⟨rfl, .refl slots i, rfl, nofun, nofun, hstop⟩

theorem Rise.moved_iff (hs : Rise p slots i d s) : s.moved = true ↔ 0 < d := by
  simp [Sifted.moved, hs.length_path]

theorem Fall.moved_iff (hs : Fall p slots i j d s) : s.moved = true ↔ 0 < d := by
  simp [Sifted.moved, hs.length_path]

/-- A slot that falls has passed one of the two below it. -/
theorem Fall.passes_child (hs : Fall p slots i j (d + 1) s) :
    ∃ c, 0 < c ∧ parent c = i ∧ ¬ InOrder p slots i c ∧ s.slots[i]? = slots[c]? := by
  refine ⟨parent^[d] j, hs.raised.pos d (Nat.lt_succ_self d), ?_, hs.passes d (Nat.lt_succ_self d),
    ?_⟩
  · rw [← hs.start_eq, Function.iterate_succ_apply']
  · rw [← hs.start_eq]
    exact (hs.raised.passed d (Nat.lt_succ_self d)).symm

namespace Sift

/-- The first of the slots below a position depends on those slots alone. -/
theorem firstChild_swap (hi : i < slots.size) (hc : c < slots.size) (hic : i < c) (hcj : c ≤ j)
    (hl : leftChild j < slots.size) (hl' : leftChild j < (slots.swap i c).size) :
    firstChild p (slots.swap i c) j hl' = firstChild p slots j hl := by
  have hj := lt_leftChild j
  unfold firstChild
  by_cases hr : leftChild j + 1 < slots.size
  · have hr' : leftChild j + 1 < (slots.swap i c).size := by rwa [Array.size_swap]
    rw [dif_pos hr, dif_pos hr', Array.getElem_swap_of_ne (by omega) (by omega),
      Array.getElem_swap_of_ne (by omega) (by omega)]
  · rw [dif_neg hr, dif_neg (by rwa [Array.size_swap])]

end Sift

/-- One exchange with the first child in front of a sift that goes on from there. -/
theorem Fall.of_swap (hi : i < slots.size) (hl : leftChild i < slots.size) (hc : c < slots.size)
    (hchild : Sift.firstChild p slots i hl = c) (hx : ¬ InOrder p slots i c)
    (hs : Fall p (slots.swap i c) c j d s) : Fall p slots i j (d + 1) (s.startingAt i) := by
  have hic : i < c := hchild ▸ Sift.lt_firstChild hl
  have hpc : parent c = i := hchild ▸ Sift.parent_firstChild hl
  have hstart : parent^[d + 1] j = i := by rw [Function.iterate_succ_apply', hs.start_eq, hpc]
  have hline : ∀ k ≤ d, c ≤ parent^[k] j := fun k hk =>
    hs.start_eq ▸ iterate_parent_le hs.raised.pos hk (Nat.le_refl d)
  -- Below the child the exchange has changed nothing, and the sifted slot is at the child.
  have hinOrder : ∀ x, c < x → (InOrder p (slots.swap i c) c x ↔ InOrder p slots i x) := by
    intro x hx
    rw [inOrder_swap_iff hi hc, Equiv.swap_apply_right,
      Equiv.swap_apply_of_ne_of_ne (by omega) (by omega)]
  refine ⟨hstart, (lowered_succ_iff hs.start_eq hpc (by omega) hi hc).mpr hs.raised,
    by simp [hs.length_path], ?_, ?_, ?_⟩
  · intro k hk
    rcases Nat.lt_succ_iff_lt_or_eq.mp hk with hk | rfl
    · obtain ⟨hl', hfirst⟩ := hs.chosen k hk
      have hlk : leftChild (parent^[k + 1] j) < slots.size := by rwa [Array.size_swap] at hl'
      refine ⟨hlk, ?_⟩
      rw [← hfirst]
      exact (Sift.firstChild_swap hi hc hic (hline (k + 1) hk) hlk hl').symm
    · simp only [hstart, hs.start_eq]
      exact ⟨hl, hchild⟩
  · intro k hk
    rcases Nat.lt_succ_iff_lt_or_eq.mp hk with hk | rfl
    · have hck : c < parent^[k] j :=
        hs.start_eq ▸ iterate_parent_lt hs.raised.pos hk (Nat.le_refl d)
      rw [← hinOrder _ hck]
      exact hs.passes k hk
    · rwa [hs.start_eq]
  · intro hl'
    have hcj : c ≤ j := hline 0 (Nat.zero_le d)
    have hlj : leftChild j < (slots.swap i c).size := by rwa [Array.size_swap]
    have hjf : j < Sift.firstChild p slots j hl' := Sift.lt_firstChild hl'
    have hstop := hs.stops hlj
    rw [Sift.firstChild_swap hi hc hic hcj hl' hlj, hinOrder _ (by omega)] at hstop
    exact hstop

end Step

namespace Sift

variable (p : Priority α)

theorem not_inOrder_of_exceeds {p : Priority α} {slots : Array (Slot α)} {i j : Nat}
    {hi : i < slots.size} {hj : j < slots.size}
    (hx : p.exceeds slots[i].value slots[j].value = true) : ¬ InOrder p slots i j := fun ho =>
  ho _ _ (Array.getElem?_eq_getElem hi) (Array.getElem?_eq_getElem hj) (p.exceeds_iff.mp hx)

/-- **The course of a sift up**, with its path: the line above where it starts. -/
theorem exists_rise_along (slots : Array (Slot α)) (i : Nat) (hi : i < slots.size) :
    ∃ d, Rise p slots i d (up p slots i hi) ∧
      (up p slots i hi).path = List.iterate parent i (d + 1) := by
  fun_induction up p slots i hi with
  | case1 slots i hi h0 hp hx ih =>
      obtain ⟨d, hrise, hpath⟩ := ih
      exact ⟨d + 1, hrise.of_swap h0 hi hp (not_inOrder_of_exceeds hx), congrArg (i :: ·) hpath⟩
  | case2 slots i hi h0 hp hx =>
      exact ⟨0, .refl fun _ => .of_compare (Priority.ne_gt_of_not_exceeds hx), rfl⟩
  | case3 slots i hi h0 => exact ⟨0, .refl fun h => absurd h h0, rfl⟩

/-- **The course of a sift down**, with its path: the line above where it ends, taken downwards. -/
theorem exists_fall_along (slots : Array (Slot α)) (i : Nat) (hi : i < slots.size) :
    ∃ j d, Fall p slots i j d (down p slots i hi) ∧
      (down p slots i hi).path = (List.iterate parent j (d + 1)).reverse := by
  fun_induction down p slots i hi with
  | case1 slots i hi hl hc hx ih =>
      obtain ⟨j, d, hfall, hpath⟩ := ih
      have hwhole := hfall.of_swap hi hl hc rfl (not_inOrder_of_exceeds hx)
      have hline : List.iterate parent j (d + 2) = List.iterate parent j (d + 1) ++ [i] := by
        rw [List.iterate_add parent j (d + 1) 1, hwhole.start_eq]
        rfl
      refine ⟨j, d + 1, hwhole, ?_⟩
      rw [Sifted.path_startingAt, hpath, hline, List.reverse_append]
      rfl
  | case2 slots i hi hl hc hx =>
      exact ⟨i, 0, .refl fun _ => .of_compare (Priority.ne_gt_of_not_exceeds hx), rfl⟩
  | case3 slots i hi hl => exact ⟨i, 0, .refl fun h => absurd h hl, rfl⟩

theorem exists_rise (slots : Array (Slot α)) (i : Nat) (hi : i < slots.size) :
    ∃ d, Rise p slots i d (up p slots i hi) := by
  obtain ⟨d, hrise, -⟩ := exists_rise_along p slots i hi
  exact ⟨d, hrise⟩

theorem exists_fall (slots : Array (Slot α)) (i : Nat) (hi : i < slots.size) :
    ∃ j d, Fall p slots i j d (down p slots i hi) := by
  obtain ⟨j, d, hfall, -⟩ := exists_fall_along p slots i hi
  exact ⟨j, d, hfall⟩

/-- **The course of a settling sift**: the slot rises, or it does not and falls as far as it has
to. -/
theorem settle_cases (slots : Array (Slot α)) (i : Nat) (hi : i < slots.size) :
    (∃ d, Rise p slots i (d + 1) (settle p slots i hi)) ∨
      (0 < i → InOrder p slots (parent i) i) ∧ ∃ j d, Fall p slots i j d (settle p slots i hi) := by
  obtain ⟨d, hrise⟩ := exists_rise p slots i hi
  unfold settle
  dsimp only
  cases d with
  | zero =>
      have hmoved : ¬ (up p slots i hi).moved = true := by simp [hrise.moved_iff]
      rw [if_neg hmoved]
      exact Or.inr ⟨hrise.stops, exists_fall p slots i hi⟩
  | succ d =>
      rw [if_pos (hrise.moved_iff.mpr (Nat.succ_pos d))]
      exact Or.inl ⟨d, hrise⟩

end Sift

end TrackedHeap
