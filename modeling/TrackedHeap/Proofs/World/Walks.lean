import TrackedHeap.Proofs.Heap.Versions
import TrackedHeap.Proofs.World.Tokens

/-!
# TrackedHeap.Proofs.World.Walks

**Walks**: what a cursor has to answer, told by its history.

A walk remembers on which heap it was begun, what was shown since, and whether the heap was
altered since. It is read off the commands and their answers, and knows nothing of identities
and of positions. A cursor, which keeps no history but only two words and a number, gives the
answers of its walk for as long as the version of the heap has not come round.
-/

namespace TrackedHeap

variable {α : Type}

/-! ### Steps of a cursor -/

namespace Cursor

/-- The heap is the one the cursor walks, and has the version it had at the start. -/
def Fits (c : Cursor) (h : Heap α) : Prop := h.id = c.heap ∧ h.version = c.version

variable {c : Cursor} {h : Heap α}

theorem next_of_ne_id (hid : h.id ≠ c.heap) : c.next h = (.error .foreignHandle, c) := by
  simp [next, hid]

theorem next_of_ne_version (hid : h.id = c.heap) (hv : h.version ≠ c.version) :
    c.next h = (.error .concurrentModification, c) := by
  simp [next, hid, hv]

/-- A cursor shows the element at its position, and stands still at the end. -/
theorem Fits.next_eq (hf : c.Fits h) :
    c.next h = match h.values[c.position]? with
      | some value => (.ok (some value), { c with position := c.position + 1 })
      | none => (.ok none, c) := by
  simp only [next, hf.1, hf.2, ne_eq, not_true_eq_false, if_false, Heap.values, List.getElem?_map,
    Array.getElem?_toList]
  cases h.slots[c.position]? <;> rfl

theorem next_of_not_fits (hf : ¬ c.Fits h) : ∃ cause, c.next h = (.error cause, c) := by
  by_cases hid : h.id = c.heap
  · exact ⟨_, next_of_ne_version hid fun hv => hf ⟨hid, hv⟩⟩
  · exact ⟨_, next_of_ne_id hid⟩

theorem rest_of_next_some {d : Cursor} {value : α} (hn : c.next h = (.ok (some value), d)) :
    c.rest h = ((d.rest h).1.map (value :: ·), (d.rest h).2) := by
  rw [rest]
  split <;> simp_all

theorem rest_of_next_none {d : Cursor} (hn : c.next h = (.ok none, d)) :
    c.rest h = (.ok [], d) := by
  rw [rest]
  split <;> simp_all

theorem rest_of_next_error {d : Cursor} {cause : Refusal} (hn : c.next h = (.error cause, d)) :
    c.rest h = (.error cause, d) := by
  rw [rest]
  split <;> simp_all

/-- Up to the end, a cursor shows the elements from its position on. -/
theorem Fits.rest_eq (hf : c.Fits h) :
    c.rest h = (.ok (h.values.drop c.position),
      { c with position := c.position + (h.values.drop c.position).length }) := by
  induction hn : h.values.drop c.position generalizing c with
  | nil =>
      have hnext := hf.next_eq
      rw [List.getElem?_eq_none (List.drop_eq_nil_iff.mp hn)] at hnext
      exact rest_of_next_none hnext
  | cons value rest ih =>
      have hnext := hf.next_eq
      rw [← List.head?_drop, hn] at hnext
      have htail : h.values.drop (c.position + 1) = rest := by
        rw [← List.tail_drop, hn, List.tail_cons]
      rw [rest_of_next_some hnext, ih (c := { c with position := c.position + 1 }) hf htail,
        List.length_cons, Nat.add_assoc, Nat.add_comm 1]
      rfl

theorem rest_of_not_fits (hf : ¬ c.Fits h) : ∃ cause, c.rest h = (.error cause, c) := by
  obtain ⟨cause, hnext⟩ := next_of_not_fits hf
  exact ⟨cause, rest_of_next_error hnext⟩

section Level

variable {d : Cursor} {k : Heap α} (hid : k.id = d.heap ↔ h.id = c.heap)
  (hversion : k.version = d.version ↔ h.version = c.version) (hvalues : k.values = h.values)
include hid hversion hvalues

/-- Two cursors at the same place over the same elements, each of its heap or neither, show the
same and go on to the same place. -/
theorem next_congr (hposition : d.position = c.position) : (d.next k).1 = (c.next h).1 ∧
    ∃ i, (c.next h).2 = { c with position := i } ∧ (d.next k).2 = { d with position := i } := by
  have hstill : c = { c with position := c.position } ∧ d = { d with position := c.position } :=
    ⟨rfl, by rw [← hposition]⟩
  by_cases hheap : h.id = c.heap
  · by_cases hsame : h.version = c.version
    · have hf : c.Fits h := ⟨hheap, hsame⟩
      have hf' : d.Fits k := ⟨hid.mpr hheap, hversion.mpr hsame⟩
      rw [hf.next_eq, hf'.next_eq, hvalues, hposition]
      cases h.values[c.position]? with
      | none => exact ⟨rfl, c.position, hstill⟩
      | some value => exact ⟨rfl, c.position + 1, rfl, rfl⟩
    · rw [next_of_ne_version hheap hsame,
        next_of_ne_version (hid.mpr hheap) fun heq => hsame (hversion.mp heq)]
      exact ⟨rfl, c.position, hstill⟩
  · rw [next_of_ne_id hheap, next_of_ne_id fun heq => hheap (hid.mp heq)]
    exact ⟨rfl, c.position, hstill⟩

/-- They show the same up to the end. -/
theorem rest_congr (hposition : d.position = c.position) : (d.rest k).1 = (c.rest h).1 ∧
    ∃ i, (c.rest h).2 = { c with position := i } ∧ (d.rest k).2 = { d with position := i } := by
  fun_induction c.rest h generalizing d with
  | case1 c value c' hnext ih =>
      obtain ⟨hshown, i, hc, hd⟩ := next_congr hid hversion hvalues hposition
      rw [hnext] at hshown hc
      cases hc
      have hnext' : d.next k = (.ok (some value), { d with position := i }) := Prod.ext hshown hd
      rw [rest_of_next_some hnext']
      obtain ⟨hrest, j, hc, hd⟩ := ih (d := { d with position := i }) hid hversion rfl
      exact ⟨congrArg (Except.map (value :: ·)) hrest, j, hc, hd⟩
  | case2 c c' hnext =>
      obtain ⟨hshown, i, hc, hd⟩ := next_congr hid hversion hvalues hposition
      rw [hnext] at hshown hc
      have hnext' : d.next k = (.ok none, { d with position := i }) := Prod.ext hshown hd
      rw [rest_of_next_none hnext']
      exact ⟨rfl, i, hc, rfl⟩
  | case3 c cause c' hnext =>
      obtain ⟨hshown, i, hc, hd⟩ := next_congr hid hversion hvalues hposition
      rw [hnext] at hshown hc
      have hnext' : d.next k = (.error cause, { d with position := i }) := Prod.ext hshown hd
      rw [rest_of_next_error hnext']
      exact ⟨rfl, i, hc, rfl⟩

end Level

end Cursor

/-! ### Writing down walks -/

/-- What was shown and what was done to a heap since a cursor was put before its first
element. -/
structure Walk (α : Type) where
  /-- The number of the heap. -/
  heap : Nat
  /-- The elements shown since then, in order. -/
  shown : List α := []
  /-- Whether the heap was altered since then. -/
  altered : Bool := false
  /-- How often the version of the heap has moved since then. -/
  bumps : Nat := 0
  deriving DecidableEq, Repr

namespace Walk

/-- More elements are shown. -/
def showing (walk : Walk α) (values : List α) : Walk α :=
  { walk with shown := walk.shown ++ values }

/-- The heap is asked for something. -/
def seeing (walk : Walk α) (altered : Bool) (bumps : Nat) : Walk α :=
  { walk with altered := walk.altered || altered, bumps := walk.bumps + bumps }

/-- The elements that the answer to a step shows. -/
def shownBy : Except Failure (Reply α) → List α
  | .ok (.found found) => found.toList
  | .ok (.values values) => values
  | _ => []

end Walk

namespace Cursor

/-- A step of `c` over `h` was answered and left `d`: it has moved past the elements shown, which
are the next ones of the heap it walks. -/
def Shows (c : Cursor) (h : Heap α) (answer : Except Failure (Reply α)) (d : Cursor) : Prop :=
  d = { c with position := c.position + (Walk.shownBy answer).length } ∧
    (Walk.shownBy answer ≠ [] → c.Fits h ∧ Walk.shownBy answer <+: h.values.drop c.position)

theorem shows_next (c : Cursor) (h : Heap α) :
    c.Shows h (((c.next h).1.map .found).mapError .refused) (c.next h).2 := by
  by_cases hf : c.Fits h
  · rw [hf.next_eq]
    cases hv : h.values[c.position]? with
    | none => exact ⟨rfl, nofun⟩
    | some value =>
        refine ⟨rfl, fun _ => ⟨hf, ?_⟩⟩
        obtain ⟨hlt, rfl⟩ := List.getElem?_eq_some_iff.mp hv
        rw [List.drop_eq_getElem_cons hlt]
        exact List.cons_prefix_cons.mpr ⟨rfl, List.nil_prefix⟩
  · obtain ⟨cause, hnext⟩ := next_of_not_fits hf
    rw [hnext]
    exact ⟨rfl, nofun⟩

theorem shows_rest (c : Cursor) (h : Heap α) :
    c.Shows h (((c.rest h).1.map .values).mapError .refused) (c.rest h).2 := by
  by_cases hf : c.Fits h
  · rw [hf.rest_eq]
    exact ⟨rfl, fun _ => ⟨hf, List.prefix_rfl⟩⟩
  · obtain ⟨cause, hrest⟩ := rest_of_not_fits hf
    rw [hrest]
    exact ⟨rfl, nofun⟩

end Cursor

/-- What a command that led to `s` means to the walks of the cursors. A copy of a cursor goes on
with a copy of its walk. -/
def Command.walks [BEq α] (command : Command α) (w : World α) (s : Step α (Reply α))
    (walks : Array (Walk α)) : Array (Walk α) :=
  match command with
  | .act n op => match w.heap? n with
      | some h => walks.map fun walk =>
          if walk.heap = n then walk.seeing (op.alters h w.mint s.answer) (op.bumps h w.mint)
          else walk
      | none => walks
  | .openCursor n => walks.push { heap := n }
  | .copyCursor cursor => match walks[cursor]? with
      | some walk => walks.push walk
      | none => walks
  | .step cursor _ | .stepToEnd cursor _ => walks.modify cursor (·.showing (Walk.shownBy s.answer))
  | .restart cursor n => walks.modify cursor fun _ => { heap := n }
  | .create .. | .collect .. | .consume _ | .drain _ => walks

namespace World

/-- The walks of the cursors after commands were carried out. -/
def walks [BEq α] (w : World α) (walks : Array (Walk α)) : List (Command α) → Array (Walk α)
  | [] => walks
  | command :: rest =>
      match w.exec command with
      | none => walks
      | some s => s.world.walks (command.walks w s walks) rest

end World

/-! ### Cursors agree with their walks -/

/-- A heap of which nothing was asked is as it was. -/
theorem World.Turn.heap?_of_unasked [BEq α] {w : World α} {command : Command α}
    {s : Step α (Reply α)} (ht : w.Turn command s) {n : Nat}
    (hreq : ∀ op, command.request? ≠ some (n, op)) (hlt : n < w.heaps.size) {h' : Heap α}
    (hn' : s.world.heap? n = some h') : w.heap? n = some h' := by
  rcases ht.heap?_cases hn' with hn | ⟨op, h, o, hc, -⟩ | ⟨policy, priority, size, h, rfl, -⟩
  · exact hn
  · exact absurd hc (hreq op)
  · exact absurd hlt (Nat.lt_irrefl _)

/-- A cursor with this walk: what it has kept is what the walk says. Other heaps cannot be taken
for the one it walks while fewer than `2 ^ 64` tokens are drawn. -/
structure Walk.Tells (walk : Walk α) (drawn : Nat) (w : World α) (c : Cursor) : Prop where
  lt_size : walk.heap < w.heaps.size
  position_eq : c.position = walk.shown.length
  id_eq : ∀ h, w.heap? walk.heap = some h → h.id = c.heap
  version_eq : ∀ h, w.heap? walk.heap = some h →
    h.version = c.version + UInt64.ofNat walk.bumps
  altered_iff : walk.altered = true ↔ 0 < walk.bumps
  le_drawn : drawn < 0x10000000000000000 → c.heap.val.toNat ≤ drawn
  eq_heap : drawn < 0x10000000000000000 → ∀ n h, w.heap? n = some h → h.id = c.heap →
    n = walk.heap
  shown_prefix : drawn < 0x10000000000000000 → walk.altered = false →
    ∀ h, w.heap? walk.heap = some h → walk.shown <+: h.values

namespace Walk.Tells

variable {walk : Walk α} {w w' : World α} {drawn drawn' n : Nat} {c : Cursor} {h : Heap α}

/-- A cursor put before the first element begins a walk. -/
theorem start (hs : drawn < 0x10000000000000000 → w.Supplied drawn) (hn : w.heap? n = some h) :
    ({ heap := n } : Walk α).Tells drawn w (.start h) := by
  have hid : w.token? n .identity = some h.id := World.token?_eq_some_iff.mpr ⟨h, hn, rfl⟩
  have hsame : ∀ h', w.heap? n = some h' → h' = h := fun h' hn' =>
    Option.some.inj (hn'.symm.trans hn)
  refine ⟨World.lt_size_of_heap? hn, rfl, ?_, ?_, by simp, ?_, ?_, ?_⟩
  · intro h' hn'
    rw [hsame h' hn', Cursor.start]
  · intro h' hn'
    simp [hsame h' hn', Cursor.start]
  · intro hlt
    exact (hs hlt).le n .identity h.id hid
  · intro hlt k h' hk heq
    exact ((hs hlt).apart k n .identity .identity h.id
      (World.token?_eq_some_iff.mpr ⟨h', hk, heq⟩) hid).1
  · intro _ _ h' _
    exact List.nil_prefix

/-- A cursor that answered goes on with its walk. Only the heap it walks can have shown
elements. -/
theorem showing (ht : walk.Tells drawn w c) (hn : w.heap? n = some h)
    {answer : Except Failure (Reply α)} {d : Cursor} (hs : c.Shows h answer d) :
    (walk.showing (Walk.shownBy answer)).Tells drawn w d where
  lt_size := ht.lt_size
  position_eq := by rw [hs.1, Walk.showing, List.length_append, ht.position_eq]
  id_eq := by rw [hs.1]; exact ht.id_eq
  version_eq := by rw [hs.1]; exact ht.version_eq
  altered_iff := ht.altered_iff
  le_drawn := by rw [hs.1]; exact ht.le_drawn
  eq_heap := by rw [hs.1]; exact ht.eq_heap
  shown_prefix := by
    intro hlt haltered h' hn'
    have hbefore := ht.shown_prefix hlt haltered h' hn'
    by_cases hnil : Walk.shownBy answer = []
    · simpa [Walk.showing, hnil] using hbefore
    · obtain ⟨hfits, hprefix⟩ := hs.2 hnil
      -- What was shown so far ends where the cursor stands, and the new elements follow there.
      cases ht.eq_heap hlt n h hn hfits.1
      cases hn.symm.trans hn'
      obtain ⟨later, heq⟩ := hbefore
      rw [← heq, ht.position_eq, List.drop_left] at hprefix
      rw [← heq]
      exact List.prefix_append_right_inj _ |>.mpr hprefix

/-- Heaps that changed, but not the cursor. -/
theorem seeing (ht : walk.Tells drawn w c) (hsize : w.heaps.size ≤ w'.heaps.size)
    (hle : drawn ≤ drawn') (hl : drawn' < 0x10000000000000000 → w.Later drawn w')
    {altered : Bool} {bumps : Nat} (ha : altered = true ↔ 0 < bumps)
    (hh : ∀ h', w'.heap? walk.heap = some h' → ∃ h, w.heap? walk.heap = some h ∧ h'.id = h.id ∧
      h.Counts h' altered bumps) : (walk.seeing altered bumps).Tells drawn' w' c where
  lt_size := Nat.lt_of_lt_of_le ht.lt_size hsize
  position_eq := ht.position_eq
  id_eq := by
    intro h' hn'
    obtain ⟨h, hn, hid, -⟩ := hh h' hn'
    rw [hid, ht.id_eq h hn]
  version_eq := by
    intro h' hn'
    obtain ⟨h, hn, -, hc⟩ := hh h' hn'
    rw [hc.version_eq, ht.version_eq h hn, Walk.seeing, UInt64.ofNat_add, UInt64.add_assoc]
  altered_iff := by
    show (walk.altered || altered) = true ↔ 0 < walk.bumps + bumps
    rw [Bool.or_eq_true, ht.altered_iff, ha, Nat.add_pos_iff_pos_or_pos]
  le_drawn hlt := Nat.le_trans (ht.le_drawn (Nat.lt_of_le_of_lt hle hlt)) hle
  eq_heap := by
    intro hlt k h' hk hid
    have hbefore := Nat.lt_of_le_of_lt hle hlt
    -- A token drawn since has a greater number than the one the cursor has kept.
    rcases hl hlt k .identity c.heap (World.token?_eq_some_iff.mpr ⟨h', hk, hid⟩) with hold | hnew
    · obtain ⟨h, hk, hid⟩ := World.token?_eq_some_iff.mp hold
      exact ht.eq_heap hbefore k h hk hid
    · exact absurd hnew (Nat.not_lt.mpr (ht.le_drawn hbefore))
  shown_prefix := by
    intro hlt haltered h' hn'
    obtain ⟨h, hn, -, hc⟩ := hh h' hn'
    obtain ⟨hwalk, hnow⟩ := Bool.or_eq_false_iff.mp haltered
    have hslots := hc.slots_eq hnow
    rw [Heap.values, hslots]
    exact ht.shown_prefix (Nat.lt_of_le_of_lt hle hlt) hwalk h hn

/-- Nothing was asked of the heap of the walk. -/
theorem unasked [BEq α] (ht : walk.Tells drawn w c) {command : Command α}
    {s : Step α (Reply α)} (hturn : w.Turn command s)
    (hreq : ∀ op, command.request? ≠ some (walk.heap, op)) (hle : drawn ≤ drawn')
    (hl : drawn' < 0x10000000000000000 → w.Later drawn s.world) :
    walk.Tells drawn' s.world c := by
  have hsee : (walk.seeing false 0).Tells drawn' s.world c :=
    ht.seeing hturn.size_le hle hl (by simp) fun h' hn' =>
      ⟨h', hturn.heap?_of_unasked hreq ht.lt_size hn', rfl, .refl h'⟩
  simpa [Walk.seeing] using hsee

end Walk.Tells

/-! ### Runs with their walks -/

/-- There are as many walks as cursors, and those of one number belong together. -/
structure Paired (R : Cursor → Walk α → Prop) (cursors : Array Cursor) (walks : Array (Walk α)) :
    Prop where
  size_eq : walks.size = cursors.size
  rel : ∀ (j : Nat) c walk, cursors[j]? = some c → walks[j]? = some walk → R c walk

namespace Paired

variable {R R' : Cursor → Walk α → Prop} {cursors : Array Cursor} {walks : Array (Walk α)}
  {c : Cursor} {walk : Walk α} {j : Nat}

theorem exists_walk (hp : Paired R cursors walks) (hc : cursors[j]? = some c) :
    ∃ walk, walks[j]? = some walk ∧ R c walk := by
  have hlt : j < walks.size := hp.size_eq ▸ (Array.getElem?_eq_some_iff.mp hc).1
  exact ⟨walks[j], Array.getElem?_eq_getElem hlt, hp.rel j c _ hc (Array.getElem?_eq_getElem hlt)⟩

theorem map (hp : Paired R cursors walks) {f : Walk α → Walk α}
    (hf : ∀ c walk, R c walk → R' c (f walk)) : Paired R' cursors (walks.map f) := by
  refine ⟨by simp [hp.size_eq], ?_⟩
  intro j c walk' hc hwalk
  obtain ⟨walk, hold, hr⟩ := hp.exists_walk hc
  rw [Array.getElem?_map, hold] at hwalk
  cases hwalk
  exact hf c walk hr

theorem imp (hp : Paired R cursors walks) (hr : ∀ c walk, R c walk → R' c walk) :
    Paired R' cursors walks :=
  ⟨hp.size_eq, fun j c walk hc hwalk => hr c walk (hp.rel j c walk hc hwalk)⟩

theorem push (hp : Paired R cursors walks) (hr : R c walk) :
    Paired R (cursors.push c) (walks.push walk) := by
  refine ⟨by simp [hp.size_eq], ?_⟩
  intro j c' walk' hc hwalk
  rw [Array.getElem?_push] at hc hwalk
  -- Both rows are equally long, so their new entries have one number.
  rw [hp.size_eq] at hwalk
  split at hc
  · next hlast =>
      rw [if_pos hlast] at hwalk
      cases hc
      cases hwalk
      exact hr
  · next hlast =>
      rw [if_neg hlast] at hwalk
      exact hp.rel j c' walk' hc hwalk

/-- Another cursor in the place of a number, with a walk that takes the old one's place. -/
theorem modify (hp : Paired R cursors walks) {f : Walk α → Walk α}
    (hr : ∀ walk, walks[j]? = some walk → R c (f walk)) :
    Paired R (cursors.setIfInBounds j c) (walks.modify j f) := by
  refine ⟨by simp [hp.size_eq], ?_⟩
  intro k c' walk' hc hwalk
  rw [Array.getElem?_setIfInBounds] at hc
  rw [Array.getElem?_modify] at hwalk
  split at hc
  · next heq =>
      rw [if_pos heq] at hwalk
      obtain ⟨walk, hold, rfl⟩ := Option.map_eq_some_iff.mp hwalk
      split at hc
      · cases hc
        exact hr walk (heq ▸ hold)
      · cases hc
  · next hne =>
      rw [if_neg hne] at hwalk
      exact hp.rel k c' walk' hc hwalk

end Paired

namespace World

theorem cursors_create (w : World α) (policy : StoragePolicy) (priority : Priority α)
    (size : SlotSize) : (w.create policy priority size).world.cursors = w.cursors := by
  unfold World.create
  split <;> rfl

theorem cursors_collect (w : World α) (priority : Priority α) (promised : Nat)
    (values : List α) (size : SlotSize) :
    (w.collect priority promised values size).world.cursors = w.cursors := by
  unfold World.collect
  dsimp only
  split
  · split <;> rfl
  · rfl

/-- All cursors of a world agree with their walks, after `drawn` tokens. -/
structure Tracks (w : World α) (drawn : Nat) (walks : Array (Walk α)) : Prop where
  wellFormed : w.WellFormed
  supplied : drawn < 0x10000000000000000 → w.Supplied drawn
  paired : Paired (fun c walk => walk.Tells drawn w c) w.cursors walks

namespace Tracks

variable [BEq α] {w w' : World α} {drawn drawn' : Nat} {walks : Array (Walk α)}

omit [BEq α] in
theorem empty : ({} : World α).Tracks 0 #[] :=
  ⟨wellFormed_empty, fun _ => .empty, rfl, nofun⟩

/-- A command that asks no heap for anything leaves every walk as it is. -/
theorem unasked (ht : w.Tracks drawn walks) {command : Command α} {s : Step α (Reply α)}
    (hturn : w.Turn command s) (hc : command.request? = none) (hle : drawn ≤ drawn')
    (hl : drawn' < 0x10000000000000000 → w.Later drawn s.world) :
    Paired (fun c walk => walk.Tells drawn' s.world c) w.cursors walks :=
  ht.paired.imp fun _ _ hold => hold.unasked hturn (by simp [hc]) hle hl

/-- A request is seen by the walks over the heap it is made to. -/
theorem act (ht : w.Tracks drawn walks) {n : Nat} {op : Op α} {s : Step α (Reply α)}
    (hx : w.exec (.act n op) = some s) (hle : drawn ≤ drawn')
    (hl : drawn' < 0x10000000000000000 → w.Later drawn s.world) :
    Paired (fun c walk => walk.Tells drawn' s.world c) s.world.cursors
      ((Command.act n op).walks w s walks) := by
  have hturn := turn_of_exec ht.wellFormed hx
  obtain ⟨h, hn, rfl⟩ := exec_act_eq_some.mp hx
  obtain ⟨s, hx', -, -, hn₁⟩ := exists_exec_act hn op
  cases hx'.symm.trans hx
  have hcount := op.counts (ht.wellFormed n h hn) w.mint
  simp only [Command.walks, hn]
  -- The split is on whether the request is made to the heap of the walk.
  refine ht.paired.map fun c walk hold => ?_
  split
  · next heq =>
      subst heq
      refine hold.seeing hturn.size_le hle hl hcount.altered_iff fun h' hn' => ?_
      obtain ⟨h₀, hn₀, hid⟩ := hturn.exists_heap? ht.wellFormed hn' hold.lt_size
      cases hn₀.symm.trans hn
      cases hn'.symm.trans hn₁
      exact ⟨h, hn, hid, hcount⟩
  · next hne =>
      exact hold.unasked hturn (by simp [Command.request?, Ne.symm hne]) hle hl

/-- **One command**: the cursors agree with their walks before and after. -/
theorem step (ht : w.Tracks drawn walks) {command : Command α} {s : Step α (Reply α)}
    (hx : w.exec command = some s) :
    s.world.Tracks (drawn + (s.world.mint.next.val - w.mint.next.val).toNat)
      (command.walks w s walks) := by
  have hturn := turn_of_exec ht.wellFormed hx
  have hle := Nat.le_add_right drawn (s.world.mint.next.val - w.mint.next.val).toNat
  have hsupply := fun hlt => (ht.supplied (Nat.lt_of_le_of_lt hle hlt)).step hx hlt
  have hs := fun hlt => (hsupply hlt).1
  have hl := fun hlt => (hsupply hlt).2
  refine ⟨hturn.wellFormed ht.wellFormed, hs, ?_⟩
  -- Only a request changes a heap that is walked. The other commands leave the walks as they are
  -- and differ in the cursors they add or move.
  cases command with
  | create policy priority size =>
      have hcursors : s.world.cursors = w.cursors := by
        cases hx
        exact cursors_create w policy priority size
      exact hcursors ▸ ht.unasked hturn rfl hle hl
  | collect priority promised values size =>
      have hcursors : s.world.cursors = w.cursors := by
        cases hx
        exact cursors_collect w priority promised values size
      exact hcursors ▸ ht.unasked hturn rfl hle hl
  | act n op => exact ht.act hx hle hl
  | consume n =>
      obtain ⟨h, hn, heq⟩ := Option.bind_eq_some_iff.mp hx
      cases heq
      exact ht.unasked hturn rfl hle hl
  | drain n =>
      obtain ⟨h, hn, heq⟩ := Option.bind_eq_some_iff.mp hx
      cases heq
      exact ht.unasked hturn rfl hle hl
  | openCursor n =>
      obtain ⟨h, hn, rfl⟩ := exec_openCursor_eq_some.mp hx
      exact (ht.unasked hturn rfl hle hl).push (.start hs hn)
  | copyCursor cursor =>
      obtain ⟨c, hc, rfl⟩ := exec_copyCursor_eq_some.mp hx
      have hpaired := ht.unasked hturn rfl hle hl
      obtain ⟨walk, hwalk, hold⟩ := hpaired.exists_walk hc
      simp only [Command.walks, hwalk]
      exact hpaired.push hold
  | step cursor n =>
      obtain ⟨c, h, hc, hn, rfl⟩ := exec_step_eq_some.mp hx
      have hpaired := ht.unasked hturn rfl hle hl
      exact hpaired.modify fun walk hwalk =>
        (hpaired.rel cursor c walk hc hwalk).showing hn (c.shows_next h)
  | stepToEnd cursor n =>
      obtain ⟨c, h, hc, hn, rfl⟩ := exec_stepToEnd_eq_some.mp hx
      have hpaired := ht.unasked hturn rfl hle hl
      exact hpaired.modify fun walk hwalk =>
        (hpaired.rel cursor c walk hc hwalk).showing hn (c.shows_rest h)
  | restart cursor n =>
      obtain ⟨c, h, hc, hn, rfl⟩ := exec_restart_eq_some.mp hx
      exact (ht.unasked hturn rfl hle hl).modify fun _ _ => .start hs hn

/-- **A whole run**: the cursors it leaves agree with their walks. -/
theorem run (ht : w.Tracks drawn walks) {commands : List (Command α)}
    (hrun : w.run commands = some w') :
    w'.Tracks (drawn + w.minted commands) (w.walks walks commands) := by
  induction commands generalizing w drawn walks with
  | nil =>
      cases hrun
      exact ht
  | cons command commands ih =>
      obtain ⟨s, hx, hrest⟩ := run_cons_eq_some.mp hrun
      simp only [minted, World.walks, hx, ← Nat.add_assoc]
      exact ih (ht.step hx) hrest

end Tracks

end World

/-! ### What a cursor answers -/

/-- What the next step of a cursor comes to is said by its walk. -/
structure Cursor.Follows (c : Cursor) (walk : Walk α) (drawn : Nat) (w : World α) : Prop where
  /-- A heap with another identity is foreign. Every other heap has another one, for as long as
  the supply of tokens has not come round. -/
  foreign : ∀ n h, w.heap? n = some h → n ≠ walk.heap →
    h.id ≠ c.heap ∨ drawn < 0x10000000000000000 → c.next h = (.error .foreignHandle, c)
  /-- The heap of the walk is refused exactly if it was altered, for as long as its version has
  not come round. -/
  modified_iff : ∀ h, w.heap? walk.heap = some h → walk.bumps < 0x10000000000000000 →
    ((c.next h).1 = .error .concurrentModification ↔ walk.altered = true)
  /-- Otherwise the next element is shown, or that there is none. -/
  next_eq : ∀ h, w.heap? walk.heap = some h → walk.altered = false →
    c.next h = match h.values[walk.shown.length]? with
      | some value => (.ok (some value), { c with position := c.position + 1 })
      | none => (.ok none, c)
  position_eq : c.position = walk.shown.length
  /-- What was shown is how the heap begins, so nothing was left out or shown twice. -/
  shown_prefix : drawn < 0x10000000000000000 → walk.altered = false →
    ∀ h, w.heap? walk.heap = some h → walk.shown <+: h.values
  /-- A refused step leaves the cursor where it is. -/
  unmoved : ∀ (h : Heap α) cause, (c.next h).1 = .error cause → (c.next h).2 = c

theorem Walk.Tells.follows {walk : Walk α} {drawn : Nat} {w : World α} {c : Cursor}
    (ht : walk.Tells drawn w c) : c.Follows walk drawn w where
  foreign := by
    intro n h hn hne hother
    refine Cursor.next_of_ne_id fun hid => ?_
    rcases hother with hdiff | hlt
    · exact hdiff hid
    · exact hne (ht.eq_heap hlt n h hn hid)
  modified_iff := by
    intro h hn hlt
    have hid := ht.id_eq h hn
    have hversion := ht.version_eq h hn
    rw [ht.altered_iff]
    by_cases hzero : walk.bumps = 0
    · have hfits : c.Fits h := ⟨hid, by simpa [hzero] using hversion⟩
      refine iff_of_false ?_ (by omega)
      rw [hfits.next_eq]
      split <;> nofun
    · refine iff_of_true ?_ (Nat.pos_of_ne_zero hzero)
      rw [Cursor.next_of_ne_version hid]
      -- A version that moved and is the old one again has gone all the way round.
      intro heq
      have hround : UInt64.ofNat walk.bumps = 0 := by
        rwa [hversion, UInt64.add_eq_left] at heq
      have hnat := congrArg UInt64.toNat hround
      rw [UInt64.toNat_ofNat_of_lt' hlt] at hnat
      exact hzero hnat
  next_eq := by
    intro h hn haltered
    have hzero : walk.bumps = 0 := by
      have := ht.altered_iff
      simp [haltered] at this
      omega
    have hfits : c.Fits h := ⟨ht.id_eq h hn, by simpa [hzero] using ht.version_eq h hn⟩
    rw [← ht.position_eq]
    exact hfits.next_eq
  position_eq := ht.position_eq
  shown_prefix := ht.shown_prefix
  unmoved := by
    intro h cause hc
    by_cases hfits : c.Fits h
    · rw [hfits.next_eq] at hc
      split at hc <;> cases hc
    · obtain ⟨cause, hnext⟩ := Cursor.next_of_not_fits hfits
      rw [hnext]

namespace World

variable [BEq α]

/-- **Cursors follow their walks.** However commands on any number of heaps and cursors are
interleaved, each cursor has a walk that decides what its next step comes to: another heap is
foreign, a heap that was altered since the walk was begun is refused, and any other shows its
next element. Nothing else breaks a walk: neither handles reserved or released, nor storage
trimmed, nor what failed, nor what was done to other heaps. -/
theorem cursor_follows_walk {commands : List (Command α)} {w : World α}
    (hrun : World.run {} commands = some w) {j : Nat} {c : Cursor} (hc : w.cursors[j]? = some c) :
    ∃ walk, (World.walks {} #[] commands)[j]? = some walk ∧
      c.Follows walk (World.minted {} commands) w := by
  have htracks := Tracks.empty.run hrun
  rw [Nat.zero_add] at htracks
  obtain ⟨walk, hwalk, htells⟩ := htracks.paired.exists_walk hc
  exact ⟨walk, hwalk, htells.follows⟩

/-- A run to which this applies. The first cursor has shown one of two elements, and its heap
has issued a handle since: it shows the second element, and the other heap is foreign to it. The
second cursor walks the other heap, which was cleared though it was empty. -/
theorem cursor_follows_walk_of_two : ∃ (w : World Nat) (c d : Cursor) (h k : Heap Nat),
    World.run {} [.create {} .natural, .create {} .natural, .act 0 (.push 5), .act 0 (.push 6),
      .openCursor 0, .step 0 0, .openCursor 1, .act 0 .reserve, .act 1 .clear] = some w ∧
    w.cursors[0]? = some c ∧ w.cursors[1]? = some d ∧ w.heap? 0 = some h ∧ w.heap? 1 = some k ∧
    c.next h = (.ok (some 6), { c with position := 2 }) ∧
    c.next k = (.error .foreignHandle, c) ∧
    (d.next k).1 = .error .concurrentModification := by
  have hcheck : (World.run ({} : World Nat) [.create {} .natural, .create {} .natural,
      .act 0 (.push 5), .act 0 (.push 6), .openCursor 0, .step 0 0, .openCursor 1, .act 0 .reserve,
      .act 1 .clear]).any (fun w => w.cursors[0]?.isSome && w.cursors[1]?.isSome &&
        (w.heap? 0).any (fun h => h.values = [5, 6]) && (w.heap? 1).isSome) = true := by
    decide +kernel
  have hwalks : World.walks ({} : World Nat) #[] [.create {} .natural, .create {} .natural,
      .act 0 (.push 5), .act 0 (.push 6), .openCursor 0, .step 0 0, .openCursor 1, .act 0 .reserve,
      .act 1 .clear] = #[⟨0, [5], false, 0⟩, ⟨1, [], true, 1⟩] := by decide +kernel
  have hminted : World.minted ({} : World Nat) [.create {} .natural, .create {} .natural,
      .act 0 (.push 5), .act 0 (.push 6), .openCursor 0, .step 0 0, .openCursor 1, .act 0 .reserve,
      .act 1 .clear] < 0x10000000000000000 := by decide +kernel
  obtain ⟨w, hrun, hw⟩ := (Option.any_eq_true ..).mp hcheck
  simp only [Bool.and_eq_true, Option.isSome_iff_exists, Option.any_eq_true,
    decide_eq_true_eq] at hw
  obtain ⟨⟨⟨⟨c, hc⟩, ⟨d, hd⟩⟩, ⟨h, hh, hvalues⟩⟩, ⟨k, hk⟩⟩ := hw
  obtain ⟨walk, hwalk, hfollow⟩ := cursor_follows_walk hrun hc
  obtain ⟨walk', hwalk', hfollow'⟩ := cursor_follows_walk hrun hd
  rw [hwalks] at hwalk hwalk'
  cases hwalk
  cases hwalk'
  have hnext := hfollow.next_eq h hh rfl
  rw [hvalues, hfollow.position_eq] at hnext
  exact ⟨w, c, d, h, k, hrun, hc, hd, hh, hk, hnext,
    hfollow.foreign 1 k hk (by decide) (Or.inr hminted),
    (hfollow'.modified_iff k hk (by decide)).mpr rfl⟩

end World

end TrackedHeap
