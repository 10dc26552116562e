import TrackedHeap.Proofs.Sift.Retrace

/-!
# TrackedHeap.Proofs.Sift.Repair

**A settling sift repairs** an array that is ordered but for one slot, which may rank anywhere:
behind those below it, before the one above it, or neither.

It tries to go up, and goes down only if it did not move. A slot that rose has left its old parent
in its place. That came before all below, so a sift down from there would do nothing.
-/

namespace TrackedHeap

namespace Sift

variable {α : Type} {p : Priority α} {slots : Array (Slot α)} {i : Nat}

/-- A slot that rose leaves nothing out of order behind. -/
theorem ordered_up_of_moved (hp : p.Lawful) (hi : i < slots.size) (hd : Disturbed p slots i)
    (hm : (up p slots i hi).moved = true) : Ordered p (up p slots i hi).slots := by
  have hsettle : settle p slots i hi = up p slots i hi := if_pos hm
  exact hsettle ▸ ordered_settle hp hd

/-- **Settling repairs any single disturbed slot.** If an array is ordered but for the slot at `i`,
settling it permutes the slots and orders the array. If the slot rises, the one that is left at `i`
already ranks behind none of those below it, and sifting it down would change nothing. -/
theorem settle_repairs (hp : p.Lawful) (hi : i < slots.size) (hd : Disturbed p slots i) :
    (settle p slots i hi).slots.Perm slots ∧ Ordered p (settle p slots i hi).slots ∧
    ((up p slots i hi).moved = true →
      (∀ c, 0 < c → parent c = i → InOrder p (up p slots i hi).slots i c) ∧
      down p (up p slots i hi).slots i (by simpa using hi) = ⟨(up p slots i hi).slots, [i]⟩) := by
  refine ⟨perm_settle p slots i hi, ordered_settle hp hd, fun hm => ?_⟩
  have hbelow : ∀ c, 0 < c → parent c = i → InOrder p (up p slots i hi).slots i c :=
    fun c hc hpc => hpc ▸ ordered_up_of_moved hp hi hd hm c hc
  exact ⟨hbelow, down_eq_self _ hbelow⟩

/-- Two arrays to which this applies: the slot at `1` ranks before its parent, and the slot at `0`
behind both of its children. -/
theorem settle_repairs_of_five :
    (Priority.natural : Priority Nat).Lawful ∧
    (Disturbed (.natural : Priority Nat)
        #[⟨2, none⟩, ⟨1, some 0⟩, ⟨3, none⟩, ⟨5, none⟩, ⟨4, none⟩] 1 ∧
      (up (.natural : Priority Nat)
        #[⟨2, none⟩, ⟨1, some 0⟩, ⟨3, none⟩, ⟨5, none⟩, ⟨4, none⟩] 1 (by decide)).moved = true ∧
      InOrder (.natural : Priority Nat) (up (.natural : Priority Nat)
        #[⟨2, none⟩, ⟨1, some 0⟩, ⟨3, none⟩, ⟨5, none⟩, ⟨4, none⟩] 1 (by decide)).slots 1 4) ∧
    Disturbed (.natural : Priority Nat)
        #[⟨9, none⟩, ⟨2, some 0⟩, ⟨1, none⟩, ⟨5, none⟩, ⟨4, none⟩] 0 ∧
      Ordered (.natural : Priority Nat) (settle (.natural : Priority Nat)
        #[⟨9, none⟩, ⟨2, some 0⟩, ⟨1, none⟩, ⟨5, none⟩, ⟨4, none⟩] 0 (by decide)).slots := by
  have hp : (Priority.natural : Priority Nat).Lawful :=
    inferInstanceAs (Std.TransCmp (Ord.compare (α := Nat)))
  have hrises : Disturbed (.natural : Priority Nat)
      #[⟨2, none⟩, ⟨1, some 0⟩, ⟨3, none⟩, ⟨5, none⟩, ⟨4, none⟩] 1 := by decide
  have hsinks : Disturbed (.natural : Priority Nat)
      #[⟨9, none⟩, ⟨2, some 0⟩, ⟨1, none⟩, ⟨5, none⟩, ⟨4, none⟩] 0 := by decide
  have hm : (up (.natural : Priority Nat)
      #[⟨2, none⟩, ⟨1, some 0⟩, ⟨3, none⟩, ⟨5, none⟩, ⟨4, none⟩] 1 (by decide)).moved = true := by
    decide +kernel
  obtain ⟨-, -, hrisen⟩ := settle_repairs hp (by decide) hrises
  obtain ⟨-, hordered, -⟩ := settle_repairs hp (by decide) hsinks
  exact ⟨hp, ⟨hrises, hm, (hrisen hm).1 4 (by decide) (by decide)⟩, hsinks, hordered⟩

end Sift

end TrackedHeap
