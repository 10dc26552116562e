import TrackedHeap.Binary64.Basic

/-!
# TrackedHeap.Binary64.Decimal

**The shortest decimal** of a floating point number: of all decimals that are read
back as the number, one with the fewest digits, and of those the nearest.

The numbers that are read back as a given one fill an interval that reaches half way to
each neighbour. A decimal of the interval with the fewest digits lies on the coarsest
grid `10 ^ e` that meets the interval, so the search goes through the grids from the
coarsest on and looks at the two points of each that enclose the number. All of it is
exact arithmetic on natural numbers.
-/

namespace TrackedHeap

namespace Binary64

/-- A decimal number. -/
structure Decimal where
  /-- The digits, read as one number. -/
  digits : Nat
  /-- The power of ten that they count. -/
  exponent : Int
  deriving DecidableEq, Repr

/-- The numbers that are read back as a given positive one. The value and both ends
are counted in units of `1 / scale`. -/
structure Interval where
  /-- The number itself. -/
  value : Nat
  /-- Half way to the neighbour below. -/
  low : Nat
  /-- Half way to the neighbour above. -/
  high : Nat
  /-- How many units make one. -/
  scale : Nat
  /-- Whether the ends belong to the interval. -/
  closed : Bool

/-- The worth of the exponent's last bit in the word, `2 ^ 52`. -/
def exponentPlace : Nat := 0x10000000000000

/-- The interval of a positive finite number. The ends belong to it if the fraction is
even. Below a power of two the neighbours lie twice as close. -/
def interval (x : Binary64) : Interval :=
  let field := x.magnitude / exponentPlace
  let fraction := x.magnitude % exponentPlace
  let significand := if field = 0 then fraction else exponentPlace + fraction
  let power := max field 1
  let unit := Nat.pow 2 (power - 1075)
  let below := if fraction = 0 ∧ 1 < field then 1 else 2
  { value := 4 * significand * unit
    low := (4 * significand - below) * unit
    high := (4 * significand + 2) * unit
    scale := 4 * Nat.pow 2 (1075 - power)
    closed := fraction % 2 = 0 }

namespace Interval

/-- What the units of the interval are divided into, to be compared with a decimal that
counts `10 ^ e`. -/
def fineness (e : Int) : Nat := Nat.pow 10 (-e).toNat

/-- How far apart the points of the grid `10 ^ e` are, in those finer units. -/
def gridStep (i : Interval) (e : Int) : Nat := Nat.pow 10 e.toNat * i.scale

/-- Whether a decimal lies in the interval. -/
def contains (i : Interval) (d : Decimal) : Bool :=
  let point := d.digits * i.gridStep d.exponent
  let low := i.low * fineness d.exponent
  let high := i.high * fineness d.exponent
  if i.closed then low ≤ point ∧ point ≤ high else low < point ∧ point < high

/-- The point of the grid `10 ^ e` that lies in the interval, and the one nearer to the
number if two do; of two equally near ones the larger. -/
def onGrid? (i : Interval) (e : Int) : Option Decimal :=
  let value := i.value * fineness e
  let below : Decimal := ⟨value / i.gridStep e, e⟩
  let above : Decimal := ⟨value / i.gridStep e + 1, e⟩
  match i.contains below, i.contains above with
  | true, true => if 2 * (value % i.gridStep e) < i.gridStep e then some below else some above
  | true, false => some below
  | false, true => some above
  | false, false => none

/-- What is found on a grid is read back as the number. -/
theorem contains_of_onGrid? {i : Interval} {e : Int} {d : Decimal} (h : i.onGrid? e = some d) :
    i.contains d = true := by
  simp only [onGrid?] at h
  repeat' split at h
  all_goals simp_all

end Interval

/-- The exponents of the grids to look at, the coarsest first: no number reaches
`10 ^ 309`, and every two neighbours are further apart than `10 ^ (-324)`. -/
def gridExponents : List Int := (List.range 633).map fun n : Nat => (308 - n : Int)

/-- The shortest decimal of the absolute value of a finite number. -/
def shortest (x : Binary64) : Decimal :=
  if x.magnitude = 0 then ⟨0, 0⟩
  else (gridExponents.findSome? x.interval.onGrid?).getD ⟨0, 0⟩

end Binary64

end TrackedHeap
