import TrackedHeap.Handle
import TrackedHeap.Failure

/-!
# TrackedHeap.Registry

**The registry of handles**: it issues handles, and knows of each key whether it
is issued and where its element is.

* There is one record a key. A record counts how often its key has been retired,
  and a handle carries that count: when the key is issued again, handles from
  before no longer agree with the record.
* Retired keys wait on a stack and are issued again before a new key is made.
* A key whose count cannot grow any further is not put back on the stack, so it
  is never issued again.
* When no key is issued the whole registry can be emptied under a new owner
  token. Keys and counts then start from zero once more, and the new token tells
  the old handles from the new ones.
-/

namespace TrackedHeap

/-- What a key is doing. -/
inductive Status
  /-- Not issued. -/
  | vacant
  /-- Issued, with no element yet. -/
  | reserved
  /-- Issued, and the name of the element at this position. -/
  | bound (position : Nat)
  deriving DecidableEq, Repr

/-- What is known of a key. -/
structure Record where
  /-- How often the key has been retired. -/
  generation : Nat := 0
  /-- What the key is doing now. -/
  status : Status := .reserved
  deriving DecidableEq, Repr

/-- The keys of a heap. -/
structure Registry where
  /-- The token stamped on the handles issued from now on. -/
  owner : Token
  /-- The record of each key. -/
  records : Array Record := #[]
  /-- The keys that wait to be issued again, the next one first. -/
  free : List Nat := []
  /-- How many keys are issued. -/
  issued : Nat := 0
  deriving DecidableEq, Repr

namespace Registry

/-- The number of different keys, `2 ^ 32`. -/
def keyLimit : Nat := 4294967296

/-- The last value of a key's retirement count, `2 ^ 32 - 1`. -/
def lastGeneration : Nat := 4294967295

/-- The keys that have a record, issued or not. -/
def tracked (r : Registry) : Nat := r.records.size

/-- The handle that `key` is issued as while its record is `record`. -/
def handle (r : Registry) (key : Nat) (record : Record) : Handle :=
  ⟨r.owner, key, record.generation⟩

/-- Issues a handle that names no element yet. The key retired last is used again,
and a new one is made when none waits. -/
def reserve (r : Registry) : Except Fault (Handle × Registry) :=
  match r.free with
  | key :: rest =>
      if h : key < r.records.size then
        let record := { r.records[key] with status := .reserved }
        .ok (r.handle key record,
          { r with records := r.records.set key record, free := rest, issued := r.issued + 1 })
      else .error (.strayKey key)
  | [] =>
      if r.records.size < keyLimit then
        .ok (r.handle r.records.size {},
          { r with records := r.records.push {}, issued := r.issued + 1 })
      else .error .keysExhausted

/-- The status of the key that `h` names. The owner is judged first, then whether
the key exists, then whether the handle is the one now issued for it. -/
def statusOf (r : Registry) (h : Handle) : Except Refusal Status :=
  if h.owner ≠ r.owner then .error .foreignHandle
  else
    match r.records[h.key]? with
    | none => .error (.malformedHandle h.key)
    | some record =>
        if record.status = .vacant ∨ record.generation ≠ h.generation then .error .staleHandle
        else .ok record.status

/-- The position of the element that `h` names. -/
def position (r : Registry) (h : Handle) : Except Refusal Nat :=
  match r.statusOf h with
  | .error cause => .error cause
  | .ok (.bound position) => .ok position
  | .ok _ => .error .unboundHandle

/-- The key of `h`, if `h` is issued and names no element. -/
def unboundKey (r : Registry) (h : Handle) : Except Refusal Nat :=
  match r.statusOf h with
  | .error cause => .error cause
  | .ok (.bound _) => .error .handleInUse
  | .ok _ => .ok h.key

/-- Notes that the element of `key` is at `position`. -/
def bind (r : Registry) (key position : Nat) : Except Fault Registry :=
  if h : key < r.records.size then
    .ok { r with records := r.records.set key { r.records[key] with status := .bound position } }
  else .error (.strayKey key)

/-- Takes `key` back. Handles issued for it stop being valid, and it waits to be
issued again unless its count is at the end. -/
def retire (r : Registry) (key : Nat) : Except Fault Registry :=
  if h : key < r.records.size then
    if r.issued = 0 then .error .issuedUnderflow
    else
      let generation := r.records[key].generation
      -- At the end of the count the key stays vacant for good: a second handle with the
      -- same count could not be told from the first.
      if generation < lastGeneration then
        .ok { r with
          records := r.records.set key ⟨generation + 1, .vacant⟩
          free := key :: r.free
          issued := r.issued - 1 }
      else
        .ok { r with
          records := r.records.set key ⟨generation, .vacant⟩
          issued := r.issued - 1 }
  else .error (.strayKey key)

/-- Takes the key of an element back, if the element has one. -/
def retire? (r : Registry) : Option Nat → Except Fault Registry
  | some key => r.retire key
  | none => .ok r

/-- Takes the keys of a list of elements back, in order. -/
def retireAll (r : Registry) : List (Option Nat) → Except Fault Registry
  | [] => .ok r
  | key :: rest =>
      match r.retire? key with
      | .ok r => r.retireAll rest
      | .error fault => .error fault

/-- A handle that shows another owner is foreign, whatever else it says. -/
theorem statusOf_of_owner_ne {r : Registry} {h : Handle} (ho : h.owner ≠ r.owner) :
    r.statusOf h = .error .foreignHandle := by
  simp [statusOf, ho]

/-- Reserving issues one more key, under the owner of the registry. -/
theorem reserve_eq_ok {r s : Registry} {h : Handle} (hr : r.reserve = .ok (h, s)) :
    h.owner = r.owner ∧ s.owner = r.owner ∧ s.issued = r.issued + 1 := by
  simp only [reserve] at hr
  repeat' split at hr
  all_goals cases hr
  all_goals simp [handle]

@[simp] theorem retire?_none (r : Registry) : r.retire? none = .ok r := rfl

@[simp] theorem retire?_some (r : Registry) (key : Nat) : r.retire? (some key) = r.retire key := rfl

@[simp] theorem retireAll_nil (r : Registry) : r.retireAll [] = .ok r := rfl

@[simp] theorem tracked_new (owner : Token) : ({ owner := owner } : Registry).tracked = 0 := rfl

end Registry

end TrackedHeap
