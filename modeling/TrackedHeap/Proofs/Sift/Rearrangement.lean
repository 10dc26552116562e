import Mathlib.GroupTheory.Perm.List
import TrackedHeap.Sift

/-!
# TrackedHeap.Proofs.Sift.Rearrangement

A sift **rearranges** the slots: some permutation of the positions says where each
slot comes from, and it moves only positions the sift reports as visited.

The permutation is one cycle of the path: the slot at the start goes to the end, and
each slot it passes one place towards the start. `List.formPerm` takes each place of a
list to the next one and the last place to the first, so it says where the slot comes
from that stands at a place afterwards. One exchange in front of a sift is one more
place in front of its path, which visits no place twice.

Nothing is asked of the ranking here. The registry needs no more than this to keep
up with a sift: the slots it has to be told about are those on the reported path,
and no slot enters or leaves that path.
-/

namespace TrackedHeap

variable {α : Type}

namespace Sifted

/-- `s` holds the slots of `slots`, moved about among the positions of its path. -/
def Rearranges (s : Sifted α) (slots : Array (Slot α)) : Prop :=
  ∃ σ : Equiv.Perm Nat, (∀ j, j ∉ s.path → σ j = j) ∧ ∀ j, s.slots[j]? = slots[σ j]?

/-- `s` holds the slots of `slots`, shifted by one place along its path. -/
def Cycles (s : Sifted α) (slots : Array (Slot α)) : Prop :=
  ∀ j, s.slots[j]? = slots[s.path.formPerm j]?

theorem cycles_self (slots : Array (Slot α)) (i : Nat) : (Sifted.mk slots [i]).Cycles slots := by
  intro j
  rw [List.formPerm_singleton]
  rfl

end Sifted

/-- Exchanging two slots is reading through the exchange of their positions. -/
theorem getElem?_swap_eq (slots : Array (Slot α)) {a b : Nat} (ha : a < slots.size)
    (hb : b < slots.size) (j : Nat) :
    (slots.swap a b)[j]? = slots[Equiv.swap a b j]? := by
  rw [Array.getElem?_swap]
  by_cases hja : j = a
  · subst hja
    by_cases hjb : j = b
    · subst hjb; simp [ha]
    · simp [Ne.symm hjb, hb]
  · by_cases hjb : j = b
    · subst hjb; simp [ha]
    · rw [Equiv.swap_apply_of_ne_of_ne hja hjb]
      simp [Ne.symm hja, Ne.symm hjb]

namespace Sifted.Cycles

variable {s : Sifted α} {slots : Array (Slot α)}

/-- One exchange in front of a sift that starts at the other of the two places. -/
theorem startingAt {a b i c : Nat} {ha : a < slots.size} {hb : b < slots.size}
    (hs : s.Cycles (slots.swap a b)) (hc : s.path.head? = some c)
    (hswap : Equiv.swap a b = Equiv.swap i c) : (s.startingAt i).Cycles slots := by
  obtain ⟨rest, hpath⟩ := List.head?_eq_some_iff.mp hc
  intro j
  rw [slots_startingAt, hs j, getElem?_swap_eq, hswap, path_startingAt, hpath,
    List.formPerm_cons_cons, Equiv.Perm.mul_apply]

/-- A slot off the path stays where it is. -/
theorem getElem?_of_notMem (hs : s.Cycles slots) {j : Nat} (hj : j ∉ s.path) :
    s.slots[j]? = slots[j]? := by
  rw [hs j, List.formPerm_apply_of_notMem hj]

/-- A cycle of the path moves nothing else. -/
theorem rearranges (hs : s.Cycles slots) : s.Rearranges slots :=
  ⟨s.path.formPerm, fun _ hj => List.formPerm_apply_of_notMem hj, hs⟩

end Sifted.Cycles

namespace Sift

variable (p : Priority α)

theorem mem_path_up (slots : Array (Slot α)) (i : Nat) (hi : i < slots.size) :
    i ∈ (up p slots i hi).path :=
  List.mem_of_head? (head?_path_up p slots i hi)

theorem mem_path_down (slots : Array (Slot α)) (i : Nat) (hi : i < slots.size) :
    i ∈ (down p slots i hi).path :=
  List.mem_of_head? (head?_path_down p slots i hi)

theorem mem_path_settle (slots : Array (Slot α)) (i : Nat) (hi : i < slots.size) :
    i ∈ (settle p slots i hi).path := by
  unfold settle
  dsimp only
  split
  · exact mem_path_up p slots i hi
  · exact mem_path_down p slots i hi

/-- A sift visits positions of the array only. -/
theorem path_up_lt_size (slots : Array (Slot α)) (i : Nat) (hi : i < slots.size) :
    ∀ j ∈ (up p slots i hi).path, j < slots.size := by
  fun_induction up p slots i hi with
  | case1 slots i hi h hp hx ih =>
      intro j hj
      rcases List.mem_cons.mp hj with rfl | hj
      · exact hi
      · simpa using ih j hj
  | case2 slots i hi h hp hx => simpa using hi
  | case3 slots i hi h => simpa using hi

theorem path_down_lt_size (slots : Array (Slot α)) (i : Nat) (hi : i < slots.size) :
    ∀ j ∈ (down p slots i hi).path, j < slots.size := by
  fun_induction down p slots i hi with
  | case1 slots i hi hl hc hx ih =>
      intro j hj
      rcases List.mem_cons.mp hj with rfl | hj
      · exact hi
      · simpa using ih j hj
  | case2 slots i hi hl hc hx => simpa using hi
  | case3 slots i hi hl => simpa using hi

theorem path_settle_lt_size (slots : Array (Slot α)) (i : Nat) (hi : i < slots.size) :
    ∀ j ∈ (settle p slots i hi).path, j < slots.size := by
  unfold settle
  dsimp only
  split
  · exact path_up_lt_size p slots i hi
  · exact path_down_lt_size p slots i hi

/-- **Sifting up is one cycle.** The rest of the sift starts at the parent, the other place of the
exchange. -/
theorem cycles_up (slots : Array (Slot α)) (i : Nat) (hi : i < slots.size) :
    (up p slots i hi).Cycles slots := by
  fun_induction up p slots i hi with
  | case1 slots i hi h hp hx ih => exact ih.startingAt (head?_path_up p _ _ _) (Equiv.swap_comm ..)
  | case2 slots i hi h hp hx => exact Sifted.cycles_self slots i
  | case3 slots i hi h => exact Sifted.cycles_self slots i

theorem cycles_down (slots : Array (Slot α)) (i : Nat) (hi : i < slots.size) :
    (down p slots i hi).Cycles slots := by
  fun_induction down p slots i hi with
  | case1 slots i hi hl hc hx ih => exact ih.startingAt (head?_path_down p _ _ _) rfl
  | case2 slots i hi hl hc hx => exact Sifted.cycles_self slots i
  | case3 slots i hi hl => exact Sifted.cycles_self slots i

theorem rearranges_up (slots : Array (Slot α)) (i : Nat) (hi : i < slots.size) :
    (up p slots i hi).Rearranges slots := (cycles_up p slots i hi).rearranges

theorem rearranges_down (slots : Array (Slot α)) (i : Nat) (hi : i < slots.size) :
    (down p slots i hi).Rearranges slots := (cycles_down p slots i hi).rearranges

theorem rearranges_settle (slots : Array (Slot α)) (i : Nat) (hi : i < slots.size) :
    (settle p slots i hi).Rearranges slots := by
  unfold settle
  dsimp only
  split
  · exact rearranges_up p slots i hi
  · exact rearranges_down p slots i hi

/-! ### No place twice -/

/-- A sift up visits no place behind its start. -/
theorem le_of_mem_path_up {slots : Array (Slot α)} {i : Nat} {hi : i < slots.size} {j : Nat}
    (hj : j ∈ (up p slots i hi).path) : j ≤ i := by
  fun_induction up p slots i hi with
  | case1 slots i hi h hp hx ih =>
      rcases List.mem_cons.mp hj with rfl | hj
      · exact Nat.le_refl _
      · exact Nat.le_of_lt (Nat.lt_of_le_of_lt (ih hj) (parent_lt h))
  | case2 slots i hi h hp hx => exact Nat.le_of_eq (List.mem_singleton.mp hj)
  | case3 slots i hi h => exact Nat.le_of_eq (List.mem_singleton.mp hj)

/-- A sift down visits no place before its start. -/
theorem le_of_mem_path_down {slots : Array (Slot α)} {i : Nat} {hi : i < slots.size} {j : Nat}
    (hj : j ∈ (down p slots i hi).path) : i ≤ j := by
  fun_induction down p slots i hi with
  | case1 slots i hi hl hc hx ih =>
      rcases List.mem_cons.mp hj with rfl | hj
      · exact Nat.le_refl _
      · exact Nat.le_of_lt (Nat.lt_of_lt_of_le (lt_firstChild hl) (ih hj))
  | case2 slots i hi hl hc hx => exact Nat.le_of_eq (List.mem_singleton.mp hj).symm
  | case3 slots i hi hl => exact Nat.le_of_eq (List.mem_singleton.mp hj).symm

theorem notMem_path_up_parent {slots : Array (Slot α)} {i : Nat} (h : 0 < i)
    (hp : parent i < slots.size) : i ∉ (up p slots (parent i) hp).path := fun hi =>
  Nat.not_le_of_lt (parent_lt h) (le_of_mem_path_up p hi)

theorem notMem_path_down_of_lt {slots : Array (Slot α)} {i c : Nat} (hic : i < c)
    (hc : c < slots.size) : i ∉ (down p slots c hc).path := fun hi =>
  Nat.not_le_of_lt hic (le_of_mem_path_down p hi)

/-- No place is visited twice. -/
theorem nodup_path_up (slots : Array (Slot α)) (i : Nat) (hi : i < slots.size) :
    (up p slots i hi).path.Nodup := by
  fun_induction up p slots i hi with
  | case1 slots i hi h hp hx ih => exact List.nodup_cons.mpr ⟨notMem_path_up_parent p h _, ih⟩
  | case2 slots i hi h hp hx => exact List.nodup_singleton i
  | case3 slots i hi h => exact List.nodup_singleton i

theorem nodup_path_down (slots : Array (Slot α)) (i : Nat) (hi : i < slots.size) :
    (down p slots i hi).path.Nodup := by
  fun_induction down p slots i hi with
  | case1 slots i hi hl hc hx ih =>
      exact List.nodup_cons.mpr ⟨notMem_path_down_of_lt p (lt_firstChild hl) _, ih⟩
  | case2 slots i hi hl hc hx => exact List.nodup_singleton i
  | case3 slots i hi hl => exact List.nodup_singleton i

end Sift

end TrackedHeap
