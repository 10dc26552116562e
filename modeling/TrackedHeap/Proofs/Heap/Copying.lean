import TrackedHeap.Heap.Copy

/-!
# TrackedHeap.Proofs.Heap.Copying

**Copying out** is exact, and all or nothing.

`Copied.Of` says what copying values into a target has to come to, in terms of the values, the
target and the offset alone: which of the three refusals is given and when, that the target is
untouched then, and otherwise what stands at each place of it. The four ways in which a copy can
end are shown to be such (`Copied.Of.beyond`, `cramped`, `unconverted`, `written`), and a copy of a
heap ends in one of them. A copy without conversion is one in which every element is its own
counterpart.
-/

namespace TrackedHeap

variable {α β : Type}

/-- The value at `i` is the first of these without a counterpart. -/
def FirstUnconverted (convert : α → Option β) (values : List α) (i : Nat) : Prop :=
  ∃ hi : i < values.length, convert values[i] = none ∧
    ∀ j, ∀ hj : j < i, convert values[j] ≠ none

namespace FirstUnconverted

variable {convert : α → Option β} {values : List α} {i j : Nat}

theorem zero {value : α} (h : convert value = none) :
    FirstUnconverted convert (value :: values) 0 :=
  ⟨Nat.succ_pos _, h, nofun⟩

theorem succ {value : α} (h : convert value ≠ none) (hf : FirstUnconverted convert values i) :
    FirstUnconverted convert (value :: values) (i + 1) := by
  obtain ⟨hi, hnone, hbefore⟩ := hf
  refine ⟨Nat.succ_lt_succ hi, hnone, fun j hj => ?_⟩
  cases j with
  | zero => exact h
  | succ j => exact hbefore j (Nat.lt_of_succ_lt_succ hj)

theorem unique (hi : FirstUnconverted convert values i) (hj : FirstUnconverted convert values j) :
    i = j := by
  obtain ⟨hi, hin, hib⟩ := hi
  obtain ⟨hj, hjn, hjb⟩ := hj
  rcases Nat.lt_trichotomy i j with hlt | heq | hlt
  · exact absurd hin (hjb i hlt)
  · exact heq
  · exact absurd hjn (hib j hlt)

end FirstUnconverted

/-! ### What a copy comes to -/

/-- What copying `values`, each of them converted, into `target` from `offset` on comes to. -/
structure Copied.Of (values : List α) (convert : α → Option β) (target : List β) (offset : Nat)
    (c : Copied β) : Prop where
  /-- The offset is judged first. -/
  beyond_iff : c.answer = .error (.offsetOutOfRange offset target.length) ↔ target.length < offset
  /-- The room behind the offset is judged next. -/
  cramped_iff :
    c.answer = .error (.insufficientSpace values.length (target.length - offset)) ↔
      offset ≤ target.length ∧ target.length - offset < values.length
  /-- Then the first value without a counterpart is found fault with. -/
  unconverted_iff : ∀ i, c.answer = .error (.incompatibleElement i) ↔
    offset + values.length ≤ target.length ∧ FirstUnconverted convert values i
  /-- Nothing else is in the way. -/
  written_iff : c.answer = .ok () ↔
    offset + values.length ≤ target.length ∧ ∀ value ∈ values, convert value ≠ none
  /-- A refused copy has not touched its target. -/
  unchanged : ∀ cause, c.answer = .error cause → c.target = target
  /-- No copy makes its target longer or shorter. -/
  length_eq : c.target.length = target.length
  /-- From the offset on stand the counterparts, in order. -/
  counterparts : c.answer = .ok () → ∀ i, ∀ hi : i < values.length,
    ∃ converted, convert values[i] = some converted ∧ c.target[offset + i]? = some converted
  /-- Before them and behind them is what was there. -/
  aside : c.answer = .ok () → ∀ j, j < offset ∨ offset + values.length ≤ j →
    c.target[j]? = target[j]?

namespace Heap

/-- Each place of an overwritten list holds a value, or what was there. -/
theorem getElem?_overwrite {target values : List β} {offset : Nat}
    (hroom : offset + values.length ≤ target.length) (j : Nat) :
    (overwrite target values offset)[j]? =
      if offset ≤ j ∧ j < offset + values.length then values[j - offset]? else target[j]? := by
  have htake : (target.take offset).length = offset := by
    rw [List.length_take]
    omega
  rw [overwrite, List.append_assoc]
  rcases Nat.lt_or_ge j offset with hj | hj
  · rw [List.getElem?_append_left (by omega), List.getElem?_take_of_lt hj, if_neg (by omega)]
  · rw [List.getElem?_append_right (by omega), htake]
    rcases Nat.lt_or_ge j (offset + values.length) with hin | hout
    · rw [List.getElem?_append_left (by omega), if_pos ⟨hj, hin⟩]
    · rw [List.getElem?_append_right (by omega), List.getElem?_drop, if_neg (by omega)]
      congr 1
      omega

/-- Room is judged by the offset first. -/
theorem checkTarget_cases (needed length offset : Nat) :
    (length < offset ∧
        checkTarget needed length offset = .error (.offsetOutOfRange offset length)) ∨
      (offset ≤ length ∧ length - offset < needed ∧
        checkTarget needed length offset =
          .error (.insufficientSpace needed (length - offset))) ∨
      (offset + needed ≤ length ∧ checkTarget needed length offset = .ok ()) := by
  unfold checkTarget
  split
  · next hlt => exact Or.inl ⟨hlt, rfl⟩
  · next hle =>
      split
      · next hlt => exact Or.inr (Or.inl ⟨by omega, hlt, rfl⟩)
      · next hge => exact Or.inr (Or.inr ⟨by omega, rfl⟩)

/-- All values are converted, or the first without a counterpart is named. -/
theorem convertFrom_cases (convert : α → Option β) (i : Nat) (values : List α) :
    (∃ converted, convertFrom convert i values = .ok converted ∧
        values.map convert = converted.map some) ∨
      ∃ j, convertFrom convert i values = .error (.incompatibleElement (i + j)) ∧
        FirstUnconverted convert values j := by
  induction values generalizing i with
  | nil => exact Or.inl ⟨[], rfl, rfl⟩
  | cons value rest ih =>
      cases hc : convert value with
      | none =>
          refine Or.inr ⟨0, ?_, .zero hc⟩
          rw [convertFrom, hc]
          rfl
      | some first =>
          have hne : convert value ≠ none := by simp [hc]
          rcases ih (i + 1) with ⟨converted, hrest, hmap⟩ | ⟨j, hrest, hfirst⟩
          · refine Or.inl ⟨first :: converted, ?_, ?_⟩
            · rw [convertFrom, hc]
              simp only [hrest, Except.map]
            · rw [List.map_cons, List.map_cons, hc, hmap]
          · refine Or.inr ⟨j + 1, ?_, hfirst.succ hne⟩
            rw [convertFrom, hc]
            simp only [hrest, Except.map]
            congr 2
            omega

end Heap

namespace Copied.Of

variable {values : List α} {convert : α → Option β} {target : List β} {offset : Nat}

/-- The copy would start behind the end. -/
theorem beyond (h : target.length < offset) :
    Copied.Of values convert target offset
      ⟨target, .error (.offsetOutOfRange offset target.length)⟩ where
  beyond_iff := by simp [h]
  cramped_iff := by simp; omega
  unconverted_iff := fun i => by simp; omega
  written_iff := by simp; omega
  unchanged := fun _ _ => rfl
  length_eq := rfl
  counterparts := nofun
  aside := nofun

/-- There is too little room. -/
theorem cramped (hle : offset ≤ target.length) (h : target.length - offset < values.length) :
    Copied.Of values convert target offset
      ⟨target, .error (.insufficientSpace values.length (target.length - offset))⟩ where
  beyond_iff := by simp; omega
  cramped_iff := by simp [hle, h]
  unconverted_iff := fun i => by simp; omega
  written_iff := by simp; omega
  unchanged := fun _ _ => rfl
  length_eq := rfl
  counterparts := nofun
  aside := nofun

/-- There is a value without a counterpart. -/
theorem unconverted (hroom : offset + values.length ≤ target.length) {i : Nat}
    (h : FirstUnconverted convert values i) :
    Copied.Of values convert target offset ⟨target, .error (.incompatibleElement i)⟩ where
  beyond_iff := by simp; omega
  cramped_iff := by simp; omega
  unconverted_iff := fun j => by
    simp only [Except.error.injEq, Refusal.incompatibleElement.injEq, hroom, true_and]
    exact ⟨fun hij => hij ▸ h, h.unique⟩
  written_iff := by
    obtain ⟨hi, hnone, -⟩ := h
    refine ⟨nofun, fun hall => ?_⟩
    exact absurd hnone (hall.2 values[i] (List.getElem_mem hi))
  unchanged := fun _ _ => rfl
  length_eq := rfl
  counterparts := nofun
  aside := nofun

/-- All values have their counterparts, and are written. -/
theorem written (hroom : offset + values.length ≤ target.length) {converted : List β}
    (h : values.map convert = converted.map some) :
    Copied.Of values convert target offset ⟨Heap.overwrite target converted offset, .ok ()⟩ := by
  have hlen : values.length = converted.length := by simpa using congrArg List.length h
  have hroom' : offset + converted.length ≤ target.length := hlen ▸ hroom
  have hget : ∀ i, ∀ hi : i < values.length,
      ∃ v, convert values[i] = some v ∧ converted[i]? = some v := by
    intro i hi
    have hi' := congrArg (·[i]?) h
    simp only [List.getElem?_map, List.getElem?_eq_getElem hi, Option.map_some] at hi'
    obtain ⟨v, hv, hconvert⟩ := Option.map_eq_some_iff.mp hi'.symm
    exact ⟨v, hconvert.symm, hv⟩
  have hsome : ∀ value ∈ values, convert value ≠ none := by
    intro value hv
    obtain ⟨i, hi, rfl⟩ := List.getElem_of_mem hv
    obtain ⟨v, hconvert, -⟩ := hget i hi
    simp [hconvert]
  refine ⟨?_, ?_, ?_, ?_, nofun, Heap.length_overwrite hroom', ?_, ?_⟩
  · simp; omega
  · simp; omega
  · intro i
    refine ⟨nofun, fun hi => ?_⟩
    obtain ⟨-, hi, hnone, -⟩ := hi
    exact absurd hnone (hsome _ (List.getElem_mem hi))
  · exact ⟨fun _ => ⟨hroom, hsome⟩, fun _ => rfl⟩
  · intro _ i hi
    obtain ⟨v, hconvert, hv⟩ := hget i hi
    refine ⟨v, hconvert, ?_⟩
    rw [Heap.getElem?_overwrite hroom', if_pos ⟨by omega, by omega⟩, Nat.add_sub_cancel_left, hv]
  · intro _ j hj
    rw [Heap.getElem?_overwrite hroom', if_neg (by omega)]

end Copied.Of

/-! ### Copies of a heap -/

namespace Heap

variable (h : Heap α)

/-- A copy with a conversion ends in one of the four ways. -/
theorem copyConverted_of (convert : α → Option β) (target : List β) (offset : Nat) :
    (h.copyConverted convert target offset).Of h.values convert target offset := by
  unfold copyConverted
  rw [← length_values]
  rcases checkTarget_cases h.values.length target.length offset with
    ⟨hlt, hcheck⟩ | ⟨hle, hlt, hcheck⟩ | ⟨hroom, hcheck⟩
  · rw [hcheck]
    exact .beyond hlt
  · rw [hcheck]
    exact .cramped hle hlt
  · rw [hcheck]
    rcases convertFrom_cases convert 0 h.values with
      ⟨converted, hconvert, hmap⟩ | ⟨i, hconvert, hfirst⟩
    · simp only [hconvert]
      exact .written hroom hmap
    · simp only [hconvert, Nat.zero_add]
      exact .unconverted hroom hfirst

/-- Values that are their own counterparts are converted to themselves. -/
theorem convertFrom_of_forall {convert : α → Option α} {values : List α}
    (hself : ∀ value ∈ values, convert value = some value) (i : Nat) :
    convertFrom convert i values = .ok values := by
  induction values generalizing i with
  | nil => rfl
  | cons value rest ih =>
      rw [List.forall_mem_cons] at hself
      simp only [convertFrom, hself.1, ih hself.2, Except.map]

/-- A copy in which every element is its own counterpart is one without conversion. -/
theorem copyConverted_eq_copyTo {convert : α → Option α}
    (hself : ∀ value ∈ h.values, convert value = some value) (target : List α) (offset : Nat) :
    h.copyConverted convert target offset = h.copyTo target offset := by
  unfold copyConverted copyTo
  simp only [convertFrom_of_forall hself]

/-- A copy without conversion is one in which every element is its own counterpart. -/
theorem copyTo_of (target : List α) (offset : Nat) :
    (h.copyTo target offset).Of h.values some target offset := by
  have hself : ∀ value ∈ h.values, some value = some value := fun _ _ => rfl
  rw [← h.copyConverted_eq_copyTo hself]
  exact h.copyConverted_of some target offset

/-- **Copying out is all or nothing.** A copy is refused for its offset, for want of room, or for
the first element without a counterpart, in this order, and its target is untouched then; in all
other cases the counterparts of all elements stand in the target from the offset on, and the rest
of it is as it was. A copy without conversion obeys the same law with every element as its own
counterpart, and is the copy with any conversion that gives each element itself.

The heap is only read: a copy hands back its target and an answer, and no heap. -/
theorem copies_all_or_nothing :
    (∀ (β : Type) (convert : α → Option β) (target : List β) (offset : Nat),
      (h.copyConverted convert target offset).Of h.values convert target offset) ∧
    (∀ (target : List α) (offset : Nat),
      (h.copyTo target offset).Of h.values some target offset) ∧
    ∀ convert : α → Option α, (∀ value ∈ h.values, convert value = some value) →
      ∀ (target : List α) (offset : Nat),
        h.copyConverted convert target offset = h.copyTo target offset := by
  refine ⟨?_, h.copyTo_of, ?_⟩
  · intro β convert target offset
    exact h.copyConverted_of convert target offset
  · intro convert hself target offset
    exact h.copyConverted_eq_copyTo hself target offset

/-- A heap to which this applies: `300` does not fit into one byte, and fits into two. -/
theorem copies_all_or_nothing_of_two : ∃ h : Heap Nat, h.values = [7, 300] ∧
    ((h.copyConverted (fun n => if n < 256 then some n else none) [1, 2, 3, 4] 1).answer =
        .error (.incompatibleElement 1) ∧
      (h.copyConverted (fun n => if n < 256 then some n else none) [1, 2, 3, 4] 1).target =
        [1, 2, 3, 4]) ∧
    (∀ value ∈ h.values, (if value < 65536 then some value else none) = some value) ∧
    h.copyConverted (fun n => if n < 65536 then some n else none) [1, 2, 3, 4] 1 =
      h.copyTo [1, 2, 3, 4] 1 ∧
    (h.copyTo [1, 2, 3, 4] 1).answer = .ok () ∧
    (h.copyTo [1, 2, 3, 4] 1).target[2]? = some 300 ∧
    (h.copyTo [1, 2, 3, 4] 1).target[3]? = some 4 := by
  obtain ⟨h, hvalues⟩ : ∃ h : Heap Nat, h.values = [7, 300] :=
    ⟨{ id := ⟨1⟩, priority := .natural, policy := {}, slotSize := .word,
       slots := #[⟨7, none⟩, ⟨300, none⟩], registry := { owner := ⟨2⟩ }, floor_lt := by decide },
      rfl⟩
  obtain ⟨hconvert, hcopy, hsame⟩ := h.copies_all_or_nothing
  have hbyte := hconvert Nat (fun n => if n < 256 then some n else none) [1, 2, 3, 4] 1
  have hplain := hcopy [1, 2, 3, 4] 1
  have hfits : ∀ value ∈ h.values, (if value < 65536 then some value else none) = some value := by
    rw [hvalues]
    decide
  have hrefused := (hbyte.unconverted_iff 1).mpr
    ⟨by rw [hvalues]; decide, by rw [hvalues]; exact .succ (by decide) (.zero (by decide))⟩
  have hwritten := hplain.written_iff.mpr ⟨by rw [hvalues]; decide, fun _ _ => nofun⟩
  obtain ⟨converted, hself, hplace⟩ := hplain.counterparts hwritten 1 (by rw [hvalues]; decide)
  refine ⟨h, hvalues, ⟨hrefused, hbyte.unchanged _ hrefused⟩, hfits, hsame _ hfits _ 1, hwritten,
    ?_, hplain.aside hwritten 3 (Or.inr (by rw [hvalues]; decide))⟩
  rw [hplace, ← hself]
  simp [hvalues]

end Heap

end TrackedHeap
