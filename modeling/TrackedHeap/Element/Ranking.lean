import TrackedHeap.Element.Basic
import TrackedHeap.Priority

/-!
# TrackedHeap.Element.Ranking

**Rankings** of elements beside the order they come with. Each is meant for some kinds,
and ranks elements of other kinds as equal. Several of them rank different elements as
equal, and two of them contradict themselves; a heap has to keep its contents under
every one of them.
-/

namespace TrackedHeap

/-- A ranking of elements. -/
inductive Ranking
  /-- Any two are equal. -/
  | equal
  /-- The first of any two comes first. -/
  | less
  /-- The second of any two comes first. -/
  | greater
  /-- Integers or texts in their order. -/
  | ascending
  /-- Integers or texts in the opposite order. -/
  | descending
  /-- Integers by absolute value. -/
  | absolute
  /-- Integers by their remainder modulo ten, which is not negative. -/
  | modTen
  /-- Texts by the number of their encoded bytes. -/
  | byteLength
  /-- Texts by the number of their code points. -/
  | charCount
  /-- Texts in their order, with the letters from `A` to `Z` taken for small ones. -/
  | caseless
  /-- Pairs by their first part. -/
  | first
  /-- Pairs by their second part. -/
  | second
  /-- Pairs by their first part, the larger one first. -/
  | firstDescending
  /-- Floating point numbers by their words. -/
  | total
  /-- Floating point numbers by their values. -/
  | numeric
  deriving DecidableEq, Repr

namespace Ranking

/-- How the first element ranks beside the second. -/
def compare (r : Ranking) (a b : Element) : Ordering :=
  match r, a, b with
  | equal, _, _ => .eq
  | less, _, _ => .lt
  | greater, _, _ => .gt
  | ascending, .int m, .int n => Ord.compare m n
  | ascending, .text s, .text t => Ord.compare s t
  | descending, .int m, .int n => Ord.compare n m
  | descending, .text s, .text t => Ord.compare t s
  | absolute, .int m, .int n => Ord.compare m.natAbs n.natAbs
  | modTen, .int m, .int n => Ord.compare (m % 10) (n % 10)
  | byteLength, .text s, .text t => Ord.compare s.utf8ByteSize t.utf8ByteSize
  | charCount, .text s, .text t => Ord.compare s.length t.length
  | caseless, .text s, .text t => Ord.compare (s.map Char.toLower) (t.map Char.toLower)
  | first, .pair m _, .pair n _ => Ord.compare m n
  | second, .pair _ s, .pair _ t => Ord.compare s t
  | firstDescending, .pair m _, .pair n _ => Ord.compare n m
  | total, .real x, .real y => x.totalCompare y
  | numeric, .real x, .real y => (x.compare? y).getD .eq
  | _, _, _ => .eq

/-- The ranking as a priority. -/
def priority (r : Ranking) : Priority Element := .custom r.compare

end Ranking

end TrackedHeap
