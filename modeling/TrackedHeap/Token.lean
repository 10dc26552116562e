/-!
# TrackedHeap.Token

**Identities** and the supply they come from.

A heap is told apart from every other heap by a token, and so is each period of
its registry of handles. Both kinds are drawn from one `Mint`, so a token never
means two things, however the heaps that share the mint take turns.
-/

namespace TrackedHeap

/-- An identity: a 64-bit word. Tokens are compared and never computed with. -/
structure Token where
  /-- The word itself. -/
  val : UInt64
  deriving DecidableEq, Hashable, Repr

namespace Token

/-- The token handed out after this one; the last word is followed by the first. -/
def succ (t : Token) : Token := ⟨t.val + 1⟩

/-- The signed reading of the word: a token from before the first one of a run is
not positive. -/
def toInt (t : Token) : Int := t.val.toInt64.toInt

/-- The token whose signed reading is `n`, modulo `2 ^ 64`. -/
def ofInt (n : Int) : Token := ⟨(Int64.ofInt n).toUInt64⟩

end Token

/-- The supply of tokens, given by the one it hands out next. A fresh mint starts
at one. -/
structure Mint where
  /-- The token to hand out next. -/
  next : Token := ⟨1⟩
  deriving DecidableEq, Repr

namespace Mint

/-- The token to use, and the mint without it. -/
def draw (m : Mint) : Token × Mint := (m.next, ⟨m.next.succ⟩)

@[simp] theorem draw_fst (m : Mint) : m.draw.1 = m.next := rfl

@[simp] theorem draw_snd_next (m : Mint) : m.draw.2.next = m.next.succ := rfl

end Mint

end TrackedHeap
