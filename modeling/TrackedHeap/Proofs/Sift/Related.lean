import TrackedHeap.Proofs.Heap.Removal

/-!
# TrackedHeap.Proofs.Sift.Related

**Sifting does not look at keys.** Two arrays whose slots are related place by place, by a relation
that holds only of slots with the same element, are sifted along the same path, and are related
place by place afterwards.

The relation is arbitrary otherwise. It may compare the keys of the slots in any way, or not at
all.
-/

namespace TrackedHeap

variable {α : Type} {R : Slot α → Slot α → Prop}

/-- Two arrays of the same length, with related slots at each place. -/
def Related (R : Slot α → Slot α → Prop) (a b : Array (Slot α)) : Prop :=
  ∀ i : Nat, Option.Rel R a[i]? b[i]?

/-- Two sifts along the same path that leave related slots. -/
structure Sifted.Related (R : Slot α → Slot α → Prop) (s t : Sifted α) : Prop where
  path_eq : t.path = s.path
  slots : TrackedHeap.Related R s.slots t.slots

namespace Related

variable {a b : Array (Slot α)}

theorem empty : Related R #[] #[] := fun _ => .none

theorem size_eq (h : Related R a b) : b.size = a.size := by
  have hiff : ∀ i, i < a.size ↔ i < b.size := by
    intro i
    have hi := h i
    rw [← Nat.not_le, ← Nat.not_le, ← Array.getElem?_eq_none_iff, ← Array.getElem?_eq_none_iff]
    generalize a[i]? = x at hi
    generalize b[i]? = y at hi
    cases hi <;> simp
  have := hiff a.size
  have := hiff b.size
  omega

theorem eq_empty_iff (h : Related R a b) : b = #[] ↔ a = #[] := by
  rw [← Array.size_eq_zero_iff, ← Array.size_eq_zero_iff, h.size_eq]

theorem getElem (h : Related R a b) {i : Nat} (hi : i < a.size) (hi' : i < b.size) :
    R a[i] b[i] := by
  have hrel := h i
  rw [Array.getElem?_eq_getElem hi, Array.getElem?_eq_getElem hi'] at hrel
  cases hrel with
  | some hr => exact hr

theorem imp {S : Slot α → Slot α → Prop} (h : Related R a b)
    (hs : ∀ i (hi : i < a.size) (hi' : i < b.size), R a[i] b[i] → S a[i] b[i]) :
    Related S a b := by
  intro i
  by_cases hi : i < a.size
  · have hi' : i < b.size := h.size_eq ▸ hi
    rw [Array.getElem?_eq_getElem hi, Array.getElem?_eq_getElem hi']
    exact .some (hs i hi hi' (h.getElem hi hi'))
  · rw [Array.getElem?_eq_none (by omega), Array.getElem?_eq_none (by rw [h.size_eq]; omega)]
    exact .none

theorem push (h : Related R a b) {s t : Slot α} (hs : R s t) :
    Related R (a.push s) (b.push t) := by
  intro i
  rw [Array.getElem?_push, Array.getElem?_push, h.size_eq]
  split
  · exact .some hs
  · exact h i

theorem set (h : Related R a b) {i : Nat} (hi : i < a.size) (hi' : i < b.size) {s t : Slot α}
    (hs : R s t) : Related R (a.set i s) (b.set i t) := by
  intro j
  rw [Array.getElem?_set, Array.getElem?_set]
  split
  · exact .some hs
  · exact h j

theorem swap (h : Related R a b) {i j : Nat} (hi : i < a.size) (hj : j < a.size)
    (hi' : i < b.size) (hj' : j < b.size) : Related R (a.swap i j) (b.swap i j) := by
  intro l
  rw [getElem?_swap_eq a hi hj, getElem?_swap_eq b hi' hj']
  exact h _

theorem withoutSlot (h : Related R a b) {i : Nat} (hi : i < a.size) (hi' : i < b.size) :
    Related R (Heap.withoutSlot a i hi) (Heap.withoutSlot b i hi') := by
  intro j
  rw [Heap.getElem?_withoutSlot, Heap.getElem?_withoutSlot, h.size_eq]
  split
  · split
    · exact h _
    · exact h _
  · exact .none

end Related

section Sift

variable (hvalue : ∀ s t, R s t → t.value = s.value) (p : Priority α) {a b : Array (Slot α)}
include hvalue

namespace Related

theorem values_eq (h : Related R a b) : b.toList.map (·.value) = a.toList.map (·.value) := by
  apply List.ext_getElem
  · simp [h.size_eq]
  · intro i hi hi'
    simpa using hvalue _ _ (h.getElem (by simpa using hi') (by simpa using hi))

/-- What exceeds what is decided by the elements. -/
theorem exceeds_eq (h : Related R a b) {i j : Nat} (hi : i < a.size) (hj : j < a.size)
    (hi' : i < b.size) (hj' : j < b.size) :
    p.exceeds b[i].value b[j].value = p.exceeds a[i].value a[j].value := by
  rw [hvalue _ _ (h.getElem hi hi'), hvalue _ _ (h.getElem hj hj')]

theorem up (h : Related R a b) (i : Nat) (hi : i < a.size) (hi' : i < b.size) :
    (Sift.up p a i hi).Related R (Sift.up p b i hi') := by
  fun_induction Sift.up p a i hi generalizing b with
  | case1 a i hi hpos hp hx ih =>
      have hp' : parent i < b.size := h.size_eq ▸ hp
      have hswap := ih (h.swap hp hi hp' hi') (by simpa using hp')
      have hb : Sift.up p b i hi' = (Sift.up p (b.swap (parent i) i) (parent i)
          (by simpa using hp')).startingAt i := by
        rw [Sift.up, dif_pos hpos, if_pos (h.exceeds_eq hvalue p hp hi hp' hi' ▸ hx)]
      rw [hb]
      exact ⟨congrArg (i :: ·) hswap.path_eq, hswap.slots⟩
  | case2 a i hi hpos hp hx =>
      have hp' : parent i < b.size := h.size_eq ▸ hp
      unfold Sift.up
      rw [dif_pos hpos, if_neg (h.exceeds_eq hvalue p hp hi hp' hi' ▸ hx)]
      exact ⟨rfl, h⟩
  | case3 a i hi hpos =>
      unfold Sift.up
      rw [dif_neg hpos]
      exact ⟨rfl, h⟩

theorem firstChild_eq (h : Related R a b) (i : Nat) (hl : leftChild i < a.size)
    (hl' : leftChild i < b.size) : Sift.firstChild p b i hl' = Sift.firstChild p a i hl := by
  unfold Sift.firstChild
  by_cases hr : leftChild i + 1 < a.size
  · have hr' : leftChild i + 1 < b.size := h.size_eq ▸ hr
    rw [dif_pos hr, dif_pos hr', h.exceeds_eq hvalue p hl hr hl' hr']
  · rw [dif_neg hr, dif_neg (h.size_eq ▸ hr)]

theorem down (h : Related R a b) (i : Nat) (hi : i < a.size) (hi' : i < b.size) :
    (Sift.down p a i hi).Related R (Sift.down p b i hi') := by
  fun_induction Sift.down p a i hi generalizing b with
  | case1 a i hi hl hc hx ih =>
      have hl' : leftChild i < b.size := h.size_eq ▸ hl
      have hchild := h.firstChild_eq hvalue p i hl hl'
      have hc' : Sift.firstChild p a i hl < b.size := h.size_eq ▸ hc
      have hswap := ih (h.swap hi hc hi' hc') (by simpa using hc')
      have hb : Sift.down p b i hi' = (Sift.down p (b.swap i (Sift.firstChild p a i hl))
          (Sift.firstChild p a i hl) (by simpa using hc')).startingAt i := by
        rw [Sift.down, dif_pos hl']
        simp only [hchild]
        rw [if_pos (h.exceeds_eq hvalue p hi hc hi' hc' ▸ hx)]
      rw [hb]
      exact ⟨congrArg (i :: ·) hswap.path_eq, hswap.slots⟩
  | case2 a i hi hl hc hx =>
      have hl' : leftChild i < b.size := h.size_eq ▸ hl
      have hchild := h.firstChild_eq hvalue p i hl hl'
      have hc' : Sift.firstChild p a i hl < b.size := h.size_eq ▸ hc
      unfold Sift.down
      rw [dif_pos hl']
      simp only [hchild]
      rw [if_neg (h.exceeds_eq hvalue p hi hc hi' hc' ▸ hx)]
      exact ⟨rfl, h⟩
  | case3 a i hi hl =>
      unfold Sift.down
      rw [dif_neg (h.size_eq ▸ hl)]
      exact ⟨rfl, h⟩

theorem settle (h : Related R a b) (i : Nat) (hi : i < a.size) (hi' : i < b.size) :
    (Sift.settle p a i hi).Related R (Sift.settle p b i hi') := by
  have hup := h.up hvalue p i hi hi'
  unfold Sift.settle Sifted.moved
  dsimp only
  rw [hup.path_eq]
  split
  · exact hup
  · exact h.down hvalue p i hi hi'

end Related

end Sift

end TrackedHeap
