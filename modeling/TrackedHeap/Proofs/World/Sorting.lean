import Mathlib.Logic.Function.Iterate
import TrackedHeap.Proofs.Bag.Runs
import TrackedHeap.Proofs.World.Order

/-!
# TrackedHeap.Proofs.World.Sorting

**Popping sorts**: the elements popped from a heap with a lawful ranking come in rank order,
whatever the heap went through before.

One `pop` takes out an element that ranks behind no other and leaves an ordered heap
(`Heap.Ranked.pop`); a row of pops is an induction on that. Where only equal elements have equal
rank there is one list in rank order for the contents of a heap, so nothing of its history shows
in what is popped.
-/

namespace TrackedHeap

variable {α : Type}

namespace Priority

/-- No element of the list ranks behind a later one. -/
def InRank (p : Priority α) (xs : List α) : Prop := xs.Pairwise fun a b => p.compare a b ≠ .gt

variable {p : Priority α}

theorem Lawful.reversed (hp : p.Lawful) : p.reversed.Lawful := by
  have : Std.TransCmp p.compare := hp
  have hswap : ∀ a b, p.compare a b = (p.compare b a).swap := fun _ _ => Std.OrientedCmp.eq_swap
  have htrans : ∀ a b c, (p.compare a b).isLE → (p.compare b c).isLE → (p.compare a c).isLE :=
    fun _ _ _ => Std.TransCmp.isLE_trans
  exact { eq_swap := hswap _ _
          isLE_trans := fun hab hbc => htrans _ _ _ hbc hab }

theorem Lawful.congr {q : Priority α} (hp : p.Lawful) (h : q.compare = p.compare) : q.Lawful := by
  rw [Lawful, h]
  exact hp

/-- Rankings stay lawful however often they are turned round. -/
theorem Lawful.iterate_reversed (hp : p.Lawful) (depth : Nat) :
    (Priority.reversed^[depth] p).Lawful := by
  induction depth generalizing p with
  | zero => exact hp
  | succ depth ih => exact ih hp.reversed

/-- If only equal elements have equal rank, their order in rank is the only one. -/
theorem Lawful.inRank_unique (hp : p.Lawful) {xs ys : List α} (hx : p.InRank xs)
    (hy : p.InRank ys) (hperm : xs.Perm ys)
    (heq : ∀ a ∈ xs, ∀ b ∈ xs, p.compare a b = .eq → a = b) : xs = ys := by
  refine List.Perm.eq_of_pairwise (fun a b ha hb hab hba => ?_) hx hy hperm
  have : Std.TransCmp p.compare := hp
  refine heq a ha b (hperm.mem_iff.mpr hb) ?_
  have hswap : p.compare a b = (p.compare b a).swap := Std.OrientedCmp.eq_swap
  cases hcmp : p.compare b a with
  | lt =>
      rw [hcmp] at hswap
      exact absurd hswap hab
  | eq =>
      rw [hcmp] at hswap
      exact hswap
  | gt => exact absurd hcmp hba

end Priority

namespace Heap

/-! ### One pop -/

/-- A well-formed heap that is ordered under a lawful ranking. -/
structure Ranked (h : Heap α) : Prop where
  wellFormed : h.WellFormed
  lawful : h.priority.Lawful
  ordered : Ordered h.priority h.slots

/-- Popping takes out an element that ranks behind no other, and leaves an ordered heap. -/
theorem Ranked.pop {h : Heap α} (hr : h.Ranked) (hne : h.slots ≠ #[]) (m : Mint) :
    ∃ first, (h.pop m).answer = .ok first ∧ (h.pop m).heap.Ranked ∧
      (h.pop m).heap.priority = h.priority ∧
      (first :: (h.pop m).heap.values).Perm h.values ∧
      ∀ value ∈ h.values, h.priority.compare first value ≠ .gt := by
  obtain ⟨first, -, hle, hpop⟩ := hr.wellFormed.exists_first hr.lawful hr.ordered hne
  obtain ⟨c, heq, ht⟩ := hr.wellFormed.pop_eq (Array.size_pos_iff.mpr hne) m
  obtain ⟨hans, hperm⟩ := hpop m
  rw [heq] at hans hperm ⊢
  have hp := ht.priority_eq
  refine ⟨first, hans, ⟨ht.wellFormed hr.wellFormed, hp ▸ hr.lawful, ?_⟩, hp, hperm, hle⟩
  rw [hp, ht.slots_eq]
  exact hr.ordered.slotsWithout hr.lawful _

/-! ### A row of pops -/

/-- The elements `xs` were popped from `h`, and `h'` is left. -/
structure Pops (h : Heap α) (xs : List α) (h' : Heap α) : Prop where
  ranked : h'.Ranked
  priority_eq : h'.priority = h.priority
  inRank : h.priority.InRank xs
  perm : (xs ++ h'.values).Perm h.values
  /-- Nothing that is left ranks before what was popped. -/
  le : ∀ x ∈ xs, ∀ y ∈ h'.values, h.priority.compare x y ≠ .gt

namespace Pops

variable {h h₁ h' : Heap α} {x : α} {xs ys : List α}

theorem nil (hr : h.Ranked) : h.Pops [] h := ⟨hr, rfl, .nil, .refl _, nofun⟩

theorem cons (hp : h₁.priority = h.priority) (hperm : (x :: h₁.values).Perm h.values)
    (hx : ∀ value ∈ h.values, h.priority.compare x value ≠ .gt) (hs : h₁.Pops xs h') :
    h.Pops (x :: xs) h' := by
  -- All that comes after the first element was in the heap with it, and ranks no earlier.
  have hmem : ∀ y, y ∈ xs ++ h'.values → y ∈ h.values := fun y hy =>
    hperm.mem_iff.mp (List.mem_cons_of_mem x (hs.perm.mem_iff.mp hy))
  refine ⟨hs.ranked, hs.priority_eq.trans hp, ?_, (hs.perm.cons x).trans hperm, ?_⟩
  · refine List.pairwise_cons.mpr ⟨fun y hy => hx y (hmem y (by simp [hy])), ?_⟩
    exact hp ▸ hs.inRank
  · intro y hy z hz
    rcases List.mem_cons.mp hy with rfl | hy
    · exact hx z (hmem z (by simp [hz]))
    · exact hp ▸ hs.le y hy z hz

/-- What is popped later goes on in rank order. -/
theorem inRank_append (hs : h.Pops xs h') (hy : h.priority.InRank ys)
    (hperm : ys.Perm h'.values) :
    h.priority.InRank (xs ++ ys) ∧ (xs ++ ys).Perm h.values := by
  refine ⟨List.pairwise_append.mpr ⟨hs.inRank, hy, ?_⟩, (hperm.append_left xs).trans hs.perm⟩
  intro x hx y hy
  exact hs.le x hx y (hperm.mem_iff.mp hy)

/-- When as many are popped as there were, none is left. -/
theorem perm_of_length (hs : h.Pops xs h') (hlen : xs.length = h.size) : xs.Perm h.values := by
  have hall := hs.perm.length_eq
  rw [List.length_append, hlen, length_values, length_values] at hall
  have hnil : h'.values = [] := List.length_eq_zero_iff.mp (by rw [length_values]; omega)
  simpa [hnil] using hs.perm

end Pops

end Heap

namespace World

variable [BEq α]

theorem ranked_of_run {commands : List (Command α)} {w : World α}
    (hrun : World.run {} commands = some w) {n : Nat} {h : Heap α} (hn : w.heap? n = some h)
    (hp : h.priority.Lawful) : h.Ranked :=
  ⟨heap_wellFormed hrun hn, hp, ordered_of_run hrun hn hp⟩

/-- **A row of pops**, no more than there are elements: all of them go through, in rank order,
and they are the elements that `popMany` answers with. -/
theorem exists_pops {w : World α} {n : Nat} {h : Heap α} (hn : w.heap? n = some h)
    (hr : h.Ranked) {count : Nat} (hcount : count ≤ h.size) :
    ∃ xs w' h', w.run (List.replicate count (.act n .pop)) = some w' ∧
      w.answers (List.replicate count (.act n .pop)) = xs.map (fun x => .ok (.value x)) ∧
      (h.popMany w.mint count).answer = .ok (xs, none) ∧ xs.length = count ∧
      w'.heap? n = some h' ∧ h.Pops xs h' := by
  -- The induction is on the pops that are left, from whatever world the first one leads to.
  induction count generalizing w h with
  | zero => exact ⟨[], w, h, rfl, rfl, rfl, rfl, hn, .nil hr⟩
  | succ count ih =>
      have hne : h.slots ≠ #[] := by
        intro he
        simp [Heap.size, he] at hcount
      obtain ⟨first, hans, hr₁, hp, hperm, hle⟩ := hr.pop hne w.mint
      obtain ⟨s, hx, hans', hm, hn₁⟩ := exists_exec_act hn .pop
      have hsize : count ≤ (h.pop w.mint).heap.size := by
        have hlen := hperm.length_eq
        rw [List.length_cons, Heap.length_values, Heap.length_values] at hlen
        omega
      obtain ⟨xs, w', h', hrun, hanswers, hpops, hlen, hn', hs⟩ := ih hn₁ hr₁ hsize
      refine ⟨first :: xs, w', h', ?_, ?_, ?_, by simp [hlen], hn', .cons hp hperm hle hs⟩
      · rw [List.replicate_succ]
        exact run_cons_eq_some.mpr ⟨s, hx, hrun⟩
      · simp only [List.replicate_succ, answers, hx, hanswers, List.map_cons]
        rw [hans', Op.run, Outcome.map, hans]
        rfl
      · have hpops' : ((h.pop w.mint).heap.popMany (h.pop w.mint).mint count).answer =
            .ok (xs, none) := hm ▸ hpops
        simp only [Heap.popMany, hans, Outcome.andThen, Outcome.map, hpops', Except.map]

/-- Draining a heap answers with its elements in rank order. -/
theorem exists_drain {w : World α} {n : Nat} {h : Heap α} (hn : w.heap? n = some h)
    (hr : h.Ranked) : ∃ ys, w.answers [.drain n] = [.ok (.values ys)] ∧ h.priority.InRank ys ∧
      ys.Perm h.values := by
  obtain ⟨ys, w', h', -, -, hpops, hlen, -, hs⟩ := exists_pops hn hr (Nat.le_refl h.size)
  refine ⟨ys, ?_, hs.inRank, hs.perm_of_length hlen⟩
  simp [answers, exec, hn, Heap.drain, Outcome.map, hpops, Except.map]

/-- If only equal elements have equal rank, what is popped or drained is the one list in rank
order of the contents. -/
theorem answers_of_inRank {w : World α} {n : Nat} {h : Heap α} (hn : w.heap? n = some h)
    (hr : h.Ranked)
    (heq : ∀ a ∈ h.values, ∀ b ∈ h.values, h.priority.compare a b = .eq → a = b) {zs : List α}
    (hz : h.priority.InRank zs) (hperm : zs.Perm h.values) :
    w.answers [.drain n] = [.ok (.values zs)] ∧ ∀ count ≤ h.size,
      w.answers (List.replicate count (.act n .pop)) =
        (zs.take count).map fun x => .ok (.value x) := by
  have hunique : ∀ ys, h.priority.InRank ys → ys.Perm h.values → ys = zs := by
    intro ys hy hperm'
    refine hr.lawful.inRank_unique hy hz (hperm'.trans hperm.symm) fun a ha b hb => ?_
    exact heq a (hperm'.mem_iff.mp ha) b (hperm'.mem_iff.mp hb)
  constructor
  · obtain ⟨ys, hans, hy, hperm'⟩ := exists_drain hn hr
    rw [hans, hunique ys hy hperm']
  · intro count hcount
    -- What is popped, and then what is left in rank order, is the contents in rank order.
    obtain ⟨xs, w', h', -, hans, -, hlen, hn', hs⟩ := exists_pops hn hr hcount
    obtain ⟨ys, -, hy, hperm'⟩ := exists_drain hn' hs.ranked
    obtain ⟨hall, hallperm⟩ := hs.inRank_append (hs.priority_eq ▸ hy) hperm'
    rw [hans, ← hunique (xs ++ ys) hall hallperm, List.take_left' hlen]

/-- **Popping sorts.** From a heap that a run reaches, under a lawful ranking turned round any
number of times, pops take the elements out in rank order and leave those that come later, and
draining answers with all of them in rank order. If only equal elements have equal rank, that order
is the only one of the contents: another heap with the same contents and the same ranking, however
it came to them, gives the same answers. -/
theorem popping_sorts {commands : List (Command α)} {w : World α}
    (hrun : World.run {} commands = some w) {n : Nat} {h : Heap α} (hn : w.heap? n = some h)
    {p : Priority α} {depth : Nat} (hp : p.Lawful)
    (hcmp : h.priority.compare = (Priority.reversed^[depth] p).compare) :
    (∀ count ≤ h.size, ∃ xs w' h', w.run (List.replicate count (.act n .pop)) = some w' ∧
      w.answers (List.replicate count (.act n .pop)) = xs.map (fun x => .ok (.value x)) ∧
      xs.length = count ∧ w'.heap? n = some h' ∧ h.priority.InRank xs ∧
      (xs ++ h'.values).Perm h.values ∧
      ∀ x ∈ xs, ∀ y ∈ h'.values, h.priority.compare x y ≠ .gt) ∧
    (∃ ys, w.answers [.drain n] = [.ok (.values ys)] ∧ h.priority.InRank ys ∧
      ys.Perm h.values) ∧
    ((∀ a ∈ h.values, ∀ b ∈ h.values, h.priority.compare a b = .eq → a = b) →
      (∀ zs, h.priority.InRank zs → zs.Perm h.values →
        w.answers [.drain n] = [.ok (.values zs)] ∧ ∀ count ≤ h.size,
          w.answers (List.replicate count (.act n .pop)) =
            (zs.take count).map fun x => .ok (.value x)) ∧
      ∀ commands' w' n' h', World.run {} commands' = some w' → w'.heap? n' = some h' →
        h'.priority.compare = h.priority.compare → h'.values.Perm h.values →
        w'.answers [.drain n'] = w.answers [.drain n] ∧ ∀ count ≤ h.size,
          w'.answers (List.replicate count (.act n' .pop)) =
            w.answers (List.replicate count (.act n .pop))) := by
  have hlawful : h.priority.Lawful := (hp.iterate_reversed depth).congr hcmp
  have hr := ranked_of_run hrun hn hlawful
  refine ⟨?_, exists_drain hn hr, fun heq => ⟨?_, ?_⟩⟩
  · intro count hcount
    obtain ⟨xs, w', h', hpops, hans, -, hlen, hn', hs⟩ := exists_pops hn hr hcount
    exact ⟨xs, w', h', hpops, hans, hlen, hn', hs.inRank, hs.perm, hs.le⟩
  · intro zs hz hperm
    exact answers_of_inRank hn hr heq hz hperm
  · intro commands' w' n' h' hrun' hn' hsame hperm
    have hsize : h'.size = h.size := by
      rw [← Heap.length_values, ← Heap.length_values, hperm.length_eq]
    -- Both heaps answer with the list that the first one is drained as.
    obtain ⟨zs, -, hz, hzs⟩ := exists_drain hn hr
    have hz' : h'.priority.InRank zs := by
      rw [Priority.InRank, hsame]
      exact hz
    have heq' : ∀ a ∈ h'.values, ∀ b ∈ h'.values, h'.priority.compare a b = .eq → a = b := by
      intro a ha b hb
      rw [hsame]
      exact heq a (hperm.mem_iff.mp ha) b (hperm.mem_iff.mp hb)
    obtain ⟨hdrain, hpops⟩ := answers_of_inRank hn hr heq hz hzs
    obtain ⟨hdrain', hpops'⟩ :=
      answers_of_inRank hn' (ranked_of_run hrun' hn' (hlawful.congr hsame)) heq' hz'
        (hzs.trans hperm.symm)
    refine ⟨hdrain'.trans hdrain.symm, fun count hcount => ?_⟩
    rw [hpops' count (hsize ▸ hcount), hpops count hcount]

/-- Two runs to which this applies, both of heaps whose greatest element comes first. They have
the same elements in different tree order, and are drained alike. -/
theorem popping_sorts_of_three : ∃ (w w' : World (Fin 3)) (h h' : Heap (Fin 3)),
    World.run {} [.create {} Priority.natural.reversed, .act 0 (.push 0), .act 0 (.insert 2),
      .act 0 (.push 1)] = some w ∧ w.heap? 0 = some h ∧ h.values = [2, 0, 1] ∧
    World.run {} [.create { floor := 0 } Priority.natural.reversed, .act 0 (.push 2),
      .act 0 (.insert 0), .act 0 (.push 0), .act 0 (.update ⟨⟨2⟩, 0, 0⟩ 1)] = some w' ∧
    w'.heap? 0 = some h' ∧ h'.values = [2, 1, 0] ∧
    h.priority.compare = (Priority.reversed^[1] Priority.natural).compare ∧
    (Priority.natural : Priority (Fin 3)).Lawful ∧
    w.answers [.drain 0] = [.ok (.values [2, 1, 0])] ∧
    w'.answers [.drain 0] = w.answers [.drain 0] := by
  obtain ⟨w, h, hrun, hn, hcheck⟩ := exists_of_any_run (α := Fin 3)
    [.create {} Priority.natural.reversed, .act 0 (.push 0), .act 0 (.insert 2),
      .act 0 (.push 1)] 0
    (fun h => decide (h.values = [2, 0, 1] ∧ ∀ a b, h.priority.compare a b = compare b a))
    (by decide +kernel)
  obtain ⟨w', h', hrun', hn', hcheck'⟩ := exists_of_any_run (α := Fin 3)
    [.create { floor := 0 } Priority.natural.reversed, .act 0 (.push 2), .act 0 (.insert 0),
      .act 0 (.push 0), .act 0 (.update ⟨⟨2⟩, 0, 0⟩ 1)] 0
    (fun h => decide (h.values = [2, 1, 0] ∧ ∀ a b, h.priority.compare a b = compare b a))
    (by decide +kernel)
  obtain ⟨hvalues, hcmp⟩ := of_decide_eq_true hcheck
  obtain ⟨hvalues', hcmp'⟩ := of_decide_eq_true hcheck'
  have hp : (Priority.natural : Priority (Fin 3)).Lawful := inferInstanceAs (Std.TransOrd (Fin 3))
  have hreversed : h.priority.compare = (Priority.reversed^[1] Priority.natural).compare :=
    funext fun a => funext fun b => hcmp a b
  have hsame : h'.priority.compare = h.priority.compare :=
    funext fun a => funext fun b => (hcmp' a b).trans (hcmp a b).symm
  obtain ⟨-, -, hunique⟩ := popping_sorts hrun hn hp hreversed
  have hties : ∀ a b : Fin 3, compare b a = .eq → a = b := by decide
  obtain ⟨hsorted, hother⟩ := hunique fun a _ b _ hab => hties a b (hcmp a b ▸ hab)
  refine ⟨w, w', h, h', hrun, hn, hvalues, hrun', hn', hvalues', hreversed, hp, ?_, ?_⟩
  · refine (hsorted [2, 1, 0] ?_ ?_).1
    · simp only [Priority.InRank, hcmp]
      decide
    · rw [hvalues]
      decide
  · refine (hother _ w' 0 h' hrun' hn' hsame ?_).1
    rw [hvalues, hvalues']
    decide

end World

end TrackedHeap
