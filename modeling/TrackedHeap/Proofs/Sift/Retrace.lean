import TrackedHeap.Proofs.Sift.Course

/-!
# TrackedHeap.Proofs.Sift.Retrace

**Sifts retrace each other** where no two slots are of equal rank.

Let a slot of an ordered array be carried away along a line, and the slots on the line be moved
one place the other way, by whatever cause. A settling sift of that slot leads back along the very
same line and restores the array: on the way down the slot that was moved up ranks strictly behind
its new sibling's old parent, so each level has one first child, and it is the one on the line; on
the way up there is no choice. With ties the sift may stop early, or go down another line.
-/

namespace TrackedHeap

variable {α : Type} {p : Priority α} {slots : Array (Slot α)}

/-- No two slots are of equal rank. -/
def Untied (p : Priority α) (slots : Array (Slot α)) : Prop :=
  ∀ (i j : Nat) (a b : Slot α), slots[i]? = some a → slots[j]? = some b →
    p.compare a.value b.value = .eq → i = j

theorem InOrder.congr {slots' : Array (Slot α)} {i j i' j' : Nat}
    (hi : slots'[i']? = slots[i]?) (hj : slots'[j']? = slots[j]?) :
    InOrder p slots' i' j' ↔ InOrder p slots i j := by
  simp only [InOrder, hi, hj]

/-- Of two slots one does not rank behind the other. -/
theorem InOrder.of_not (hp : p.Lawful) {i j : Nat} (h : ¬ InOrder p slots i j) :
    InOrder p slots j i := by
  intro b a hb ha hgt
  refine h fun a' b' ha' hb' hgt' => ?_
  cases ha.symm.trans ha'
  cases hb.symm.trans hb'
  have : Std.TransCmp p.compare := hp
  exact Std.OrientedCmp.not_gt_of_gt hgt hgt'

theorem leftChild_parent_le {c : Nat} (h0 : 0 < c) : leftChild (parent c) ≤ c := by
  unfold parent leftChild
  omega

theorem iterate_parent_le_self (i d : Nat) : parent^[d] i ≤ i := by
  induction d with
  | zero => exact Nat.le_refl i
  | succ d ih =>
      rw [Function.iterate_succ_apply']
      unfold parent at ih ⊢
      omega

namespace Ordered

/-- No slot ranks before one above it, at whatever distance. -/
theorem inOrder_iterate (hp : p.Lawful) (ho : Ordered p slots) {i : Nat} (hi : i < slots.size)
    (d : Nat) : InOrder p slots (parent^[d] i) i := by
  induction d with
  | zero => exact .refl hp
  | succ d ih =>
      have hle := iterate_parent_le_self i d
      rw [Function.iterate_succ_apply']
      rcases Nat.eq_zero_or_pos (parent^[d] i) with h0 | hpos
      · rw [h0] at ih ⊢
        exact ih
      · exact (ho _ hpos).trans hp (by omega) ih

/-- Without ties a slot ranks strictly behind every other one above it. -/
theorem not_inOrder_iterate (hp : p.Lawful) (ho : Ordered p slots) (hu : Untied p slots) {i d : Nat}
    (hi : i < slots.size) (hne : parent^[d] i ≠ i) : ¬ InOrder p slots i (parent^[d] i) := by
  have hle := iterate_parent_le_self i d
  have ha : slots[parent^[d] i]? = some slots[parent^[d] i] := Array.getElem?_eq_getElem (by omega)
  have hb : slots[i]? = some slots[i] := Array.getElem?_eq_getElem hi
  intro hback
  have : Std.TransCmp p.compare := hp
  have hge := hback _ _ hb ha
  have hswap : p.compare slots[i].value slots[parent^[d] i].value =
      (p.compare slots[parent^[d] i].value slots[i].value).swap := Std.OrientedCmp.eq_swap
  cases hcmp : p.compare slots[parent^[d] i].value slots[i].value with
  | lt => exact hge (by rw [hswap, hcmp]; rfl)
  | eq => exact hne (hu _ _ _ _ ha hb hcmp)
  | gt => exact ho.inOrder_iterate hp hi d _ _ ha hb hcmp

end Ordered

namespace Sift

/-- A child that ranks strictly before its sibling is the first one. -/
theorem firstChild_eq (hp : p.Lawful) {i c : Nat} (h0 : 0 < c) (hpc : parent c = i)
    (hc : c < slots.size)
    (hfirst : ∀ x, 0 < x → parent x = i → x ≠ c → ¬ InOrder p slots x c ∨ slots.size ≤ x)
    (hl : leftChild i < slots.size) : firstChild p slots i hl = c := by
  have hcases : c = leftChild i ∨ c = leftChild i + 1 := by
    unfold parent at hpc
    unfold leftChild
    omega
  have hlt := lt_leftChild i
  unfold firstChild
  rcases hcases with rfl | rfl
  · split
    · next hr =>
        rw [if_neg]
        intro hx
        rcases hfirst (leftChild i + 1) (by omega) (by simp) (by omega) with hbehind | hge
        · exact not_inOrder_of_exceeds hx (.of_not hp hbehind)
        · omega
    · rfl
  · rw [dif_pos hc, if_pos]
    rcases hfirst (leftChild i) (by omega) (by simp) (by omega) with hbehind | hge
    · by_contra hx
      exact hbehind (.of_compare (Priority.ne_gt_of_not_exceeds hx))
    · omega

/-- A slot that ranks behind none of those below it is not sifted down. -/
theorem down_eq_self {i : Nat} (hi : i < slots.size)
    (hbelow : ∀ c, 0 < c → parent c = i → InOrder p slots i c) :
    down p slots i hi = ⟨slots, [i]⟩ := by
  unfold down
  split
  · next hl =>
      have hfirst : InOrder p slots i (firstChild p slots i hl) :=
        hbelow _ (Nat.lt_of_le_of_lt (Nat.zero_le i) (lt_firstChild hl)) (parent_firstChild hl)
      exact if_neg fun hx => not_inOrder_of_exceeds hx hfirst
  · rfl

theorem slots_up_of_inOrder {i : Nat} (hi : i < slots.size)
    (habove : 0 < i → InOrder p slots (parent i) i) : (up p slots i hi).slots = slots := by
  obtain ⟨d, hrise⟩ := exists_rise p slots i hi
  cases d with
  | zero => exact hrise.raised.eq_of_zero
  | succ d =>
      exact absurd (habove (hrise.raised.pos 0 (Nat.succ_pos d))) (hrise.passes 0 (Nat.succ_pos d))

theorem not_moved_up_of_inOrder {i : Nat} (hi : i < slots.size)
    (habove : 0 < i → InOrder p slots (parent i) i) : ¬ (up p slots i hi).moved = true := by
  intro hm
  obtain ⟨h0, hpi, hx⟩ := (moved_up_iff hi).mp hm
  exact not_inOrder_of_exceeds hx (habove h0)

section Retrace

variable (hp : p.Lawful) (ho : Ordered p slots) (hu : Untied p slots)
include hp ho hu

/-- The slot that came down to the upper end of the rest of the line is the first of the slots
below its old place: its new sibling was below it. -/
theorem firstChild_of_raised {moved : Array (Slot α)} {i d : Nat} (hi : i < slots.size)
    (hr : Raised slots moved i (d + 1)) (hsize : moved.size = slots.size)
    (hl : leftChild (parent^[d + 1] i) < moved.size) :
    firstChild p moved (parent^[d + 1] i) hl = parent^[d] i := by
  have hc0 : 0 < parent^[d] i := hr.pos d (Nat.lt_succ_self d)
  have hcle := iterate_parent_le_self i d
  have hpc : parent (parent^[d] i) = parent^[d + 1] i := (Function.iterate_succ_apply' ..).symm
  refine firstChild_eq hp hc0 hpc (by omega) (fun x h0 hpx hxc => ?_) hl
  by_cases hxs : x < slots.size
  · left
    have hxq := parent_lt h0
    have haside : moved[x]? = slots[x]? := by
      refine hr.aside x fun k hk hxk => ?_
      rcases Nat.lt_or_ge k d with hkd | hkd
      · -- What is lower on the line has its parent on the line below the upper end.
        have := iterate_parent_lt hr.pos (a := k + 1) (b := d + 1) (by omega) (Nat.le_refl _)
        rw [Function.iterate_succ_apply' parent k, ← hxk] at this
        omega
      · rcases Nat.lt_or_eq_of_le hk with hk | rfl
        · exact hxc (by rw [hxk, Nat.le_antisymm (by omega) hkd])
        · omega
    rw [InOrder.congr haside (hr.passed d (Nat.lt_succ_self d)), ← hpx]
    exact ho.not_inOrder_iterate hp hu (d := 1) hxs (Nat.ne_of_lt hxq)
  · exact Or.inr (by omega)

/-- A slot that was carried up ranks strictly behind the one that is below it now. -/
theorem exceeds_child_of_raised {moved : Array (Slot α)} {i d : Nat} (hi : i < slots.size)
    (hr : Raised slots moved i (d + 1)) (hq : parent^[d + 1] i < moved.size)
    (hc : parent^[d] i < moved.size) :
    p.exceeds moved[parent^[d + 1] i].value moved[parent^[d] i].value = true := by
  by_contra hx
  have hin : InOrder p moved (parent^[d + 1] i) (parent^[d] i) :=
    .of_compare (Priority.ne_gt_of_not_exceeds hx)
  rw [InOrder.congr hr.carried (hr.passed d (Nat.lt_succ_self d))] at hin
  refine ho.not_inOrder_iterate hp hu hi (Nat.ne_of_lt ?_) hin
  exact iterate_parent_lt hr.pos (a := 0) (Nat.succ_pos d) (Nat.le_refl _)

/-- **Sifting down retraces a rise.** -/
theorem slots_down_of_raised {moved : Array (Slot α)} {i d : Nat} (hi : i < slots.size)
    (hr : Raised slots moved i d) (hsize : moved.size = slots.size)
    (hq : parent^[d] i < moved.size) : (down p moved (parent^[d] i) hq).slots = slots := by
  induction d generalizing moved with
  | zero =>
      cases hr.eq_of_zero
      rw [down_eq_self hq fun c h0 hpc => hpc ▸ ho c h0]
  | succ d ih =>
      have hc0 : 0 < parent^[d] i := hr.pos d (Nat.lt_succ_self d)
      have hcle := iterate_parent_le_self i d
      have hpc : parent (parent^[d] i) = parent^[d + 1] i := (Function.iterate_succ_apply' ..).symm
      have hc : parent^[d] i < moved.size := by omega
      have hl : leftChild (parent^[d + 1] i) < moved.size :=
        Nat.lt_of_le_of_lt (hpc ▸ leftChild_parent_le hc0) hc
      have hdown : down p moved (parent^[d + 1] i) hq =
          (down p (moved.swap (parent^[d + 1] i) (parent^[d] i)) (parent^[d] i)
            (by simpa using hc)).startingAt (parent^[d + 1] i) := by
        rw [down, dif_pos hl]
        simp only [firstChild_of_raised hp ho hu hi hr hsize hl]
        rw [if_pos (exceeds_child_of_raised hp ho hu hi hr hq hc)]
      rw [hdown]
      exact ih ((lowered_succ_iff rfl hpc hc0 hq hc).mp hr) (by simpa using hsize) _

/-- A slot that was carried down ranks strictly before the one that is above it now. -/
theorem exceeds_parent_of_lowered {moved : Array (Slot α)} {j d : Nat} (hj : j < moved.size)
    (hpj : parent j < moved.size) (hsize : moved.size = slots.size)
    (hr : Raised moved slots j (d + 1)) :
    p.exceeds moved[parent j].value moved[j].value = true := by
  by_contra hx
  have hin : InOrder p moved (parent j) j := .of_compare (Priority.ne_gt_of_not_exceeds hx)
  have hline : moved[parent j]? = slots[j]? := (hr.passed 0 (Nat.succ_pos d)).symm
  rw [InOrder.congr hline hr.carried.symm] at hin
  refine ho.not_inOrder_iterate hp hu (by omega) (Nat.ne_of_lt ?_) hin
  exact iterate_parent_lt hr.pos (a := 0) (Nat.succ_pos d) (Nat.le_refl _)

/-- **Sifting up retraces a fall.** -/
theorem slots_up_of_lowered {moved : Array (Slot α)} {j d : Nat} (hj : j < moved.size)
    (hsize : moved.size = slots.size) (hr : Raised moved slots j d) :
    (up p moved j hj).slots = slots := by
  induction d generalizing moved j with
  | zero =>
      cases hr.eq_of_zero
      exact slots_up_of_inOrder hj (ho j)
  | succ d ih =>
      have h0 : 0 < j := hr.pos 0 (Nat.succ_pos d)
      have hpj : parent j < moved.size := Nat.lt_trans (parent_lt h0) hj
      have hup : up p moved j hj = (up p (moved.swap (parent j) j) (parent j)
          (by simpa using hpj)).startingAt j := by
        rw [up, dif_pos h0, if_pos (exceeds_parent_of_lowered hp ho hu hj hpj hsize hr)]
      rw [hup]
      exact ih _ (by simpa using hsize) ((raised_succ_iff h0 hj hpj).mp hr)

/-- A slot that was carried up is settled where it came from. -/
theorem slots_settle_of_raised {moved : Array (Slot α)} {i d : Nat} (hi : i < slots.size)
    (hr : Raised slots moved i d) (hsize : moved.size = slots.size)
    (hq : parent^[d] i < moved.size) : (settle p moved (parent^[d] i) hq).slots = slots := by
  have habove : 0 < parent^[d] i → InOrder p moved (parent (parent^[d] i)) (parent^[d] i) := by
    intro h0
    have haside : moved[parent (parent^[d] i)]? = slots[parent (parent^[d] i)]? := by
      refine hr.aside _ fun k hk => Nat.ne_of_lt ?_
      exact Nat.lt_of_lt_of_le (parent_lt h0) (iterate_parent_le hr.pos hk (Nat.le_refl d))
    rw [InOrder.congr haside hr.carried, ← Function.iterate_succ_apply' parent]
    exact ho.inOrder_iterate hp hi (d + 1)
  unfold settle
  dsimp only
  rw [if_neg (not_moved_up_of_inOrder hq habove)]
  exact slots_down_of_raised hp ho hu hi hr hsize hq

/-- A slot that was carried down is settled where it came from. -/
theorem slots_settle_of_lowered {moved : Array (Slot α)} {j d : Nat} (hj : j < moved.size)
    (hsize : moved.size = slots.size) (hr : Raised moved slots j d) :
    (settle p moved j hj).slots = slots := by
  cases d with
  | zero =>
      cases hr.eq_of_zero
      exact slots_settle_of_raised hp ho hu hj (.refl slots j) rfl hj
  | succ d =>
      have h0 : 0 < j := hr.pos 0 (Nat.succ_pos d)
      have hpj : parent j < moved.size := Nat.lt_trans (parent_lt h0) hj
      have hm : (up p moved j hj).moved = true :=
        (moved_up_iff hj).mpr ⟨h0, hpj, exceeds_parent_of_lowered hp ho hu hj hpj hsize hr⟩
      unfold settle
      dsimp only
      rw [if_pos hm]
      exact slots_up_of_lowered hp ho hu hj hsize hr

end Retrace

end Sift

end TrackedHeap
