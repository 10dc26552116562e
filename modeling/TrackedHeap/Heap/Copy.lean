import TrackedHeap.Heap.Basic

/-!
# TrackedHeap.Heap.Copy

**Copying out**: writing the elements, in tree order, into a part of a list that the
caller brings. Either all of them are written or none is.
-/

namespace TrackedHeap

/-- What a copy leaves behind. -/
structure Copied (β : Type) where
  /-- The target afterwards. -/
  target : List β
  /-- Whether the elements were written. -/
  answer : Except Refusal Unit

namespace Heap

variable {α β : Type}

/-- Whether `needed` elements fit into a target of this length from `offset` on. -/
def checkTarget (needed length offset : Nat) : Except Refusal Unit :=
  if length < offset then .error (.offsetOutOfRange offset length)
  else if length - offset < needed then .error (.insufficientSpace needed (length - offset))
  else .ok ()

/-- Converts all of `values`, the first of which is at position `i`. The first one
without a counterpart is named in the refusal. -/
def convertFrom (convert : α → Option β) (i : Nat) : List α → Except Refusal (List β)
  | [] => .ok []
  | value :: rest =>
      match convert value with
      | none => .error (.incompatibleElement i)
      | some converted => (convertFrom convert (i + 1) rest).map (converted :: ·)

/-- Puts `values` over the part of `target` that begins at `offset`. -/
def overwrite (target values : List β) (offset : Nat) : List β :=
  target.take offset ++ values ++ target.drop (offset + values.length)

/-- Overwriting a part that is there changes no length. -/
theorem length_overwrite {target values : List β} {offset : Nat}
    (h : offset + values.length ≤ target.length) :
    (overwrite target values offset).length = target.length := by
  simp only [overwrite, List.length_append, List.length_take, List.length_drop]
  omega

/-- Writes the elements into `target` from `offset` on. -/
def copyTo (h : Heap α) (target : List α) (offset : Nat) : Copied α :=
  match checkTarget h.size target.length offset with
  | .error cause => ⟨target, .error cause⟩
  | .ok () => ⟨overwrite target h.values offset, .ok ()⟩

/-- Writes the converted elements into `target` from `offset` on. Room is judged
before any element is converted, and all are converted before any is written. -/
def copyConverted (h : Heap α) (convert : α → Option β) (target : List β) (offset : Nat) :
    Copied β :=
  match checkTarget h.size target.length offset with
  | .error cause => ⟨target, .error cause⟩
  | .ok () =>
      match convertFrom convert 0 h.values with
      | .error cause => ⟨target, .error cause⟩
      | .ok converted => ⟨overwrite target converted offset, .ok ()⟩

end Heap

end TrackedHeap
