import TrackedHeap.Proofs.Heap.Operations

/-!
# TrackedHeap.Proofs.Heap.Moves

**Moves**: the seven ways in which a heap changes.

Thirteen requests come down to seven moves. Each is labelled with what it means to
handles: that one was issued, that an element was stored under a key, that a key was
retired, or that the registry was opened afresh under another owner. What every move
keeps holds after every request, so an invariant is proved with one case per move.
-/

namespace TrackedHeap

variable {α : Type}

/-- What can happen to the handles of a heap. -/
inductive HandleEvent
  /-- The registry begins, or begins again, under this owner. -/
  | opened (owner : Token)
  /-- A handle is issued. -/
  | issued (x : Handle)
  /-- An element is stored under a key. -/
  | stored (key : Nat)
  /-- A key is retired, with the element under it if there is one. -/
  | retired (key : Nat)
  deriving DecidableEq, Repr

/-- What a request means to the handles of the heap, if it is answered so. The element
that `pop`, `removeFirst` and `removeValue` take out may have a key or not. -/
def Op.handleEvents [BEq α] (h : Heap α) (answer : Except Failure (Reply α)) :
    Op α → List HandleEvent
  | .push _ | .extend _ | .update _ _ | .trim => []
  | .reserve =>
      match answer with
      | .ok (.handle x) => [.issued x]
      | _ => []
  | .insert _ =>
      match h.registry.reserve, answer with
      | .ok (x, _), .ok _ => [.issued x, .stored x.key]
      -- The handle is out, though there was no room for the element.
      | .ok (x, _), .error _ => [.issued x]
      | .error _, _ => []
  | .insertWith x _ => if answer.isOk then [.stored x.key] else []
  | .release x | .remove x => if answer.isOk then [.retired x.key] else []
  | .pop => (keyAt h.slots 0).toList.map .retired
  | .removeFirst holds => ((h.indexOf? holds).bind (keyAt h.slots)).toList.map .retired
  | .removeValue value => ((h.indexOf? (· == value)).bind (keyAt h.slots)).toList.map .retired
  | .clear => h.keys.reduceOption.map .retired

namespace Heap

/-- One change of a heap, and what it means to handles. -/
inductive Move (h : Heap α) : List HandleEvent → Heap α → Prop
  | issue {x : Handle} {r : Registry} (hr : r.Sound) (hg : h.registry.Grants x r) :
      Move h [.issued x] { h with registry := r }
  | withdraw {x : Handle} {r : Registry} (hr : r.Sound) (hx : h.registry.Issues x)
      (hk : some x.key ∉ h.keys) (hwith : h.registry.Withdraws [some x.key] r) :
      Move h [.retired x.key] { h with registry := r }
  | store {slot : Slot α} {events : List Event} {h' : Heap α} (hs : h.Stores slot events h') :
      Move h (slot.key.toList.map .stored) h'
  | replace {i : Nat} {hi : i < h.slots.size} {value : α} {h' : Heap α}
      (hr : h.Replaces i hi value h') : Move h [] h'
  | takeOut {i : Nat} {hi : i < h.slots.size} {h' : Heap α} (hd : h.Drops [h.slots[i]] h')
      (hs : h'.slots = slotsWithout h.priority h.slots i hi) :
      Move h (h.slots[i].key.toList.map .retired) h'
  | clear {h' : Heap α} (hd : h.Drops h.slots.toList h') :
      Move h (h.keys.reduceOption.map .retired) h'
  | resize (capacity : Nat) : Move h [] { h with capacity := capacity }

/-- A row of moves. -/
inductive Moves : Heap α → List HandleEvent → Heap α → Prop
  | none {h : Heap α} : Moves h [] h
  | next {h₁ h₂ h₃ : Heap α} {e es : List HandleEvent} (first : h₁.Move e h₂)
      (rest : Moves h₂ es h₃) : Moves h₁ (e ++ es) h₃

theorem Move.moves {h h' : Heap α} {e : List HandleEvent} (hm : h.Move e h') : h.Moves e h' := by
  simpa using Moves.next hm .none

/-! ### What every move keeps -/

namespace Move

variable {h h' : Heap α} {e : List HandleEvent}

theorem wellFormed (hm : h.Move e h') (hw : h.WellFormed) : h'.WellFormed := by
  cases hm with
  | issue hr hg => exact hw.of_grants hr hg
  | withdraw hr hx hk hwith => exact hw.of_withdraws hr hk hwith
  | store hs => exact hs.wellFormed hw
  | replace hr => exact Adopts.wellFormed hr hw.registry
  | takeOut hd hs => exact hd.wellFormed
  | clear hd => exact hd.wellFormed
  | resize capacity => exact ⟨hw.registry, hw.tied⟩

theorem priority_eq (hm : h.Move e h') : h'.priority = h.priority := by
  cases hm with
  | issue hr hg => rfl
  | withdraw hr hx hk hwith => rfl
  | store hs => exact hs.priority_eq
  | replace hr => exact Adopts.priority_eq hr
  | takeOut hd hs => exact hd.priority_eq
  | clear hd => exact hd.priority_eq
  | resize capacity => rfl

/-- A heap stays the one it is. -/
theorem id_eq (hm : h.Move e h') : h'.id = h.id := by
  cases hm with
  | issue hr hg => rfl
  | withdraw hr hx hk hwith => rfl
  | store hs => exact hs.id_eq
  | replace hr => exact Adopts.id_eq hr
  | takeOut hd hs => exact hd.id_eq
  | clear hd => exact hd.id_eq
  | resize capacity => rfl

/-- Only a renewal changes the owner, and a move is none. -/
theorem owner_eq (hm : h.Move e h') : h'.owner = h.owner := by
  cases hm with
  | issue hr hg => exact hg.owner_eq
  | withdraw hr hx hk hwith => exact hwith.owner_eq
  | store hs => exact hs.owner_eq
  | replace hr => exact Registry.owner_congr hr.unplaced_eq
  | takeOut hd hs => exact hd.owner_eq
  | clear hd => exact hd.owner_eq
  | resize capacity => rfl

end Move

namespace Moves

variable {h h' : Heap α} {es : List HandleEvent}

theorem wellFormed (hm : h.Moves es h') (hw : h.WellFormed) : h'.WellFormed := by
  induction hm with
  | none => exact hw
  | next first rest ih => exact ih (first.wellFormed hw)

theorem id_eq (hm : h.Moves es h') : h'.id = h.id := by
  induction hm with
  | none => rfl
  | next first rest ih => exact ih.trans first.id_eq

theorem priority_eq (hm : h.Moves es h') : h'.priority = h.priority := by
  induction hm with
  | none => rfl
  | next first rest ih => exact ih.trans first.priority_eq

theorem owner_eq (hm : h.Moves es h') : h'.owner = h.owner := by
  induction hm with
  | none => rfl
  | next first rest ih => exact ih.trans first.owner_eq

end Moves

/-! ### Requests are rows of moves -/

/-- The key of the element that a handle names is the handle's. -/
theorem WellFormed.key_of_position {h : Heap α} (hw : h.WellFormed) {x : Handle} {i : Nat}
    (hp : h.registry.position x = .ok i) (hi : i < h.slots.size) : h.slots[i].key = some x.key := by
  rw [← keyAt_getElem hi]
  exact (hw.position_eq_ok_iff.mp hp).2

end Heap

namespace Op.Effect

open Heap

variable [BEq α] {h : Heap α} {m : Mint} {o : Outcome α (Reply α)}

/-- Adding many elements is a row of moves, none of which concerns a handle. -/
theorem moves_extend {values : List α} (he : (Op.extend values).Effect h m o) :
    h.Moves [] o.heap ∧ o.mint = m := by
  induction values generalizing h o with
  | nil =>
      cases he
      exact ⟨.none, rfl⟩
  | cons value rest ih =>
      cases he with
      | extendMore hs ho =>
          obtain ⟨hrest, hm⟩ := ih ho
          exact ⟨.next (.store hs) hrest, hm⟩
      | extendFull hl => exact ⟨.none, rfl⟩

/-- **Requests are moves**: whatever a request comes to is a row of moves, which mean to
handles what the request and its answer say, and perhaps a renewal of the registry. -/
theorem moves {op : Op α} (he : op.Effect h m o) (hw : h.WellFormed) :
    ∃ h', h.Moves (op.handleEvents h o.answer) h' ∧ h'.MayRenew m o.heap o.mint := by
  -- The key of what was taken out is retired.
  have htakesOut : ∀ {i : Nat} {hi : i < h.slots.size} {c : Change α α} {key : Option Nat},
      h.TakesOut m i hi c → h.slots[i].key = key →
      ∃ h', h.Moves (key.toList.map .retired) h' ∧ h'.MayRenew m c.heap c.mint := by
    intro i hi c key ht hkey
    subst hkey
    obtain ⟨h', hd, hs, hren⟩ := ht.drops hw
    exact ⟨h', (Move.takeOut hd hs).moves, hren⟩
  cases he with
  | pushed hs => exact ⟨_, (Move.store hs).moves, .kept⟩
  | extended => exact ⟨h, .none, .kept⟩
  | extendMore hs ho =>
      obtain ⟨hrest, hm⟩ := moves_extend ho
      exact ⟨_, .next (.store hs) hrest, hm ▸ .kept⟩
  | reserved hres hr hg => exact ⟨_, (Move.issue hr hg).moves, .kept⟩
  | inserted hres hr hg hs =>
      simp only [handleEvents, hres]
      exact ⟨_, .next (.issue hr hg) (Move.store hs).moves, .kept⟩
  | insertFull hres hr hg hl =>
      simp only [handleEvents, hres]
      exact ⟨_, (Move.issue hr hg).moves, .kept⟩
  | insertExhausted he =>
      simp only [handleEvents, he]
      exact ⟨h, .none, .kept⟩
  | released hu hr hwith =>
      obtain ⟨hx, hk, -⟩ := hw.unboundKey_eq_ok_iff.mp hu
      exact ⟨_, (Move.withdraw hr hx hk hwith).moves, .kept⟩
  | insertedWith hu hs => exact ⟨_, (Move.store hs).moves, .kept⟩
  | @popped _ _ hi c ht =>
      simp only [handleEvents, keyAt_getElem hi]
      exact htakesOut ht rfl
  | popEmpty he =>
      simp only [handleEvents, he]
      exact ⟨h, .none, .kept⟩
  | removed hp ht => exact htakesOut ht (hw.key_of_position hp _)
  | @removedFirst _ _ _ i hi c hf ht =>
      simp only [handleEvents, hf, Option.bind_some, keyAt_getElem hi]
      exact htakesOut ht rfl
  | noneFirst hf =>
      simp only [handleEvents, hf]
      exact ⟨h, .none, .kept⟩
  | @removedValue _ _ _ i hi c hf ht =>
      simp only [handleEvents, hf, Option.bind_some, keyAt_getElem hi]
      exact htakesOut ht rfl
  | noValue hf =>
      simp only [handleEvents, hf]
      exact ⟨h, .none, .kept⟩
  | updated hp hr => exact ⟨_, (Move.replace hr).moves, .kept⟩
  | cleared hc =>
      obtain ⟨h', hd, hren⟩ := hc.drops hw
      exact ⟨h', (Move.clear hd).moves, hren⟩
  | trimmed ht => exact ⟨_, (Move.resize _).moves, .kept⟩
  | untrimmed ht => exact ⟨h, .none, .kept⟩
  -- What is left was turned down, and nothing has changed.
  | pushFull | extendFull | exhausted | releaseRefused | insertWithFull | insertWithRefused
  | removeRefused | updateRefused => exact ⟨h, .none, .kept⟩

end Op.Effect

end TrackedHeap
