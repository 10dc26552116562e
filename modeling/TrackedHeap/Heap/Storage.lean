import TrackedHeap.Heap.Outcome

/-!
# TrackedHeap.Heap.Storage

**Storage** of a heap: growing when full, being cut back on request, and going back
to the floor when empty. None of it touches an element, and every change of capacity
comes with the event that tells it.
-/

namespace TrackedHeap

namespace Heap

variable {α : Type}

/-- Sees to it that one more slot fits. Only a full heap grows. -/
def makeRoom (h : Heap α) : Except Fault (Heap α × List Event) :=
  if h.size < h.capacity then .ok (h, [])
  else
    let grown := h.policy.grown h.capacity
    if grown < h.slotSize.limit then
      .ok ({ h with capacity := grown }, [.grew h.capacity grown])
    else .error .capacityOverflow

/-- Cuts the storage back if it is under-used. The decision is told as an event also
when there turns out to be nothing to cut. -/
def trim (h : Heap α) (mint : Mint) : Outcome α Unit :=
  if h.policy.shouldTrim h.size h.capacity then
    let left := h.policy.trimmed h.size h.capacity
    ⟨{ h with capacity := left }, mint, [.trimmed h.capacity left h.size], .ok ()⟩
  else .done h mint ()

/-- Takes an emptied heap back to the floor if it has grown far beyond it. -/
def releaseStorage (h : Heap α) (mint : Mint) : Change α Unit :=
  if h.policy.shouldRelease h.capacity then
    ⟨{ h with capacity := h.policy.floor }, mint, [.released h.capacity h.policy.floor], ()⟩
  else ⟨h, mint, [], ()⟩

/-- Starts an idle registry afresh under a new owner token. Only a registry that was
large is worth an event. A registry with an issued key is left alone, for its handle
may still be used. -/
def releaseRegistry (h : Heap α) (mint : Mint) : Change α Unit :=
  if h.registry.tracked ≠ 0 ∧ h.registry.issued = 0 then
    ⟨{ h with registry := { owner := mint.draw.1 } }, mint.draw.2,
      if h.policy.shouldRelease h.registry.tracked then
        [.registryReleased h.registry.tracked mint.draw.1]
      else [],
      ()⟩
  else ⟨h, mint, [], ()⟩

/-- What a heap does on becoming empty: it releases its storage, then its registry. -/
def releaseEmpty (h : Heap α) (mint : Mint) : Change α Unit :=
  let first := h.releaseStorage mint
  let second := first.heap.releaseRegistry first.mint
  { second with events := first.events ++ second.events }

end Heap

end TrackedHeap
