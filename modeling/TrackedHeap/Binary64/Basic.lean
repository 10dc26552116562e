/-!
# TrackedHeap.Binary64.Basic

**64-bit binary floating point numbers**, kept as their words.

Two comparisons are in use. The numeric one looks at values: both zeros are equal,
and what is not a number compares with nothing. The total one looks at words: it
puts every word in a row, from the negative words that are not numbers to the
positive ones, with the negative zero before the positive one. Each is read off one
integer key of a word.
-/

namespace TrackedHeap

/-- A floating point number. Words that are not numbers are told apart. -/
structure Binary64 where
  /-- The word. -/
  bits : UInt64
  deriving Repr

namespace Binary64

/-- The worth of the sign bit in the word, `2 ^ 63`. -/
def signPlace : Nat := 0x8000000000000000

/-- The sign bit. -/
def isNegative (x : Binary64) : Bool := signPlace ≤ x.bits.toNat

/-- The word without its sign bit. Among words of one sign it grows with the
absolute value. -/
def magnitude (x : Binary64) : Nat := x.bits.toNat % signPlace

/-- The magnitude of the infinities: the largest exponent and no fraction. -/
def infinityMagnitude : Nat := 0x7ff0000000000000

/-- Whether the word is not a number: the magnitudes beyond the infinities are not. -/
def isNaN (x : Binary64) : Bool := infinityMagnitude < x.magnitude

/-- The place of the value among the numbers; both zeros have the same. -/
def numericKey (x : Binary64) : Int := if x.isNegative then -x.magnitude else x.magnitude

/-- The place of the word in the row of all words. -/
def totalKey (x : Binary64) : Int := if x.isNegative then -x.magnitude - 1 else x.magnitude

/-- The numeric comparison. -/
def compare? (x y : Binary64) : Option Ordering :=
  if x.isNaN || y.isNaN then none else some (compare x.numericKey y.numericKey)

/-- The total comparison. -/
def totalCompare (x y : Binary64) : Ordering := compare x.totalKey y.totalKey

/-- Equality is that of the numeric comparison: what is not a number differs from
itself. -/
instance : BEq Binary64 := ⟨fun x y => x.compare? y == some .eq⟩

theorem isNegative_iff (x : Binary64) : x.isNegative = true ↔ signPlace ≤ x.bits.toNat := by
  simp [isNegative]

/-- A word is known by its place in the row. -/
theorem totalKey_injective {x y : Binary64} (h : x.totalKey = y.totalKey) : x = y := by
  obtain ⟨a⟩ := x
  obtain ⟨b⟩ := y
  have ha := a.toNat_lt
  have hb := b.toNat_lt
  have : a.toNat = b.toNat := by
    simp only [totalKey, isNegative_iff, magnitude, signPlace] at h
    split at h <;> split at h <;> omega
  rw [UInt64.toNat_inj.mp this]

end Binary64

end TrackedHeap
