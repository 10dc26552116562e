import TrackedHeap.Proofs.World.Walks

/-!
# TrackedHeap.Proofs.Heap.Renamed

**Tokens are names.** A heap draws tokens, stamps them on handles and compares them, and does
nothing else with them. So two heaps that differ in their tokens alone go on doing so, whatever
mints they draw from, and answer alike but for the tokens in their answers.

Which token of the one stands for which of the other is told by a relation. It need not be a
function; all that is asked of it is that no token goes with two (`Matching`), and that only where
a handle is judged. Where tokens are drawn the relation grows by those that the two mints hand out
next (`Drawing`).
-/

namespace TrackedHeap

variable {α β γ : Type} {R S : Token → Token → Prop}

/-! ### Tokens -/

/-- No token goes with two. -/
def Matching (R : Token → Token → Prop) : Prop :=
  ∀ t t' u u', R t t' → R u u' → (t = u ↔ t' = u')

namespace Mint

/-- The token that is handed out after `n` others. -/
def nth (m : Mint) (n : Nat) : Token := ⟨m.next.val + UInt64.ofNat n⟩

/-- The mint without the next `n` tokens. -/
def skip (m : Mint) (n : Nat) : Mint := ⟨m.nth n⟩

variable (m : Mint)

@[simp] theorem nth_zero : m.nth 0 = m.next := by
  simp [nth]

@[simp] theorem skip_zero : m.skip 0 = m := by
  simp [skip]

@[simp] theorem skip_two : m.skip 2 = m.draw.2.draw.2 := by
  simp only [skip, nth, draw, Token.succ, UInt64.add_assoc]
  rfl

@[simp] theorem nth_one : m.nth 1 = m.next.succ := rfl

/-- How many tokens were skipped can be read off the mint, up to the number there is. -/
theorem distance_skip {n : Nat} (hn : n < 0x10000000000000000) :
    ((m.skip n).next.val - m.next.val).toNat = n := by
  rw [skip, nth, UInt64.add_comm, UInt64.add_sub_cancel, UInt64.toNat_ofNat_of_lt' hn]

end Mint

/-- A relation of tokens, grown by the next `n` that two mints hand out. -/
def Drawing (R : Token → Token → Prop) (m m' : Mint) (n : Nat) (t t' : Token) : Prop :=
  R t t' ∨ ∃ j < n, t = m.nth j ∧ t' = m'.nth j

@[simp] theorem drawing_zero (R : Token → Token → Prop) (m m' : Mint) : Drawing R m m' 0 = R := by
  funext t t'
  simp [Drawing]

/-! ### What has tokens in it -/

/-- Two handles that differ at most in their tokens. -/
structure Handle.Renamed (R : Token → Token → Prop) (x y : Handle) : Prop where
  owner : R x.owner y.owner
  key_eq : y.key = x.key
  generation_eq : y.generation = x.generation

/-- Two registries that differ at most in their tokens. -/
structure Registry.Renamed (R : Token → Token → Prop) (r s : Registry) : Prop where
  owner : R r.owner s.owner
  records_eq : s.records = r.records
  free_eq : s.free = r.free
  issued_eq : s.issued = r.issued

/-- Two heaps that differ at most in their tokens. -/
structure Heap.Renamed (R : Token → Token → Prop) (h k : Heap α) : Prop where
  id : R h.id k.id
  registry : h.registry.Renamed R k.registry
  priority_eq : k.priority = h.priority
  policy_eq : k.policy = h.policy
  slotSize_eq : k.slotSize = h.slotSize
  slots_eq : k.slots = h.slots
  capacity_eq : k.capacity = h.capacity
  version_eq : k.version = h.version

/-- Two cursors that differ at most in their tokens. -/
structure Cursor.Renamed (R : Token → Token → Prop) (c d : Cursor) : Prop where
  heap : R c.heap d.heap
  version_eq : d.version = c.version
  position_eq : d.position = c.position

/-- Two reports that differ at most in their tokens. -/
inductive Event.Renamed (R : Token → Token → Prop) : Event → Event → Prop
  | grew (before after : Nat) : Renamed R (.grew before after) (.grew before after)
  | trimmed (before after live : Nat) :
      Renamed R (.trimmed before after live) (.trimmed before after live)
  | released (before after : Nat) : Renamed R (.released before after) (.released before after)
  | registryReleased (tracked : Nat) {t t' : Token} (h : R t t') :
      Renamed R (.registryReleased tracked t) (.registryReleased tracked t')

/-- Two replies that differ at most in their tokens, and in the numbers that heaps and cursors go
by. -/
inductive Reply.Renamed (R : Token → Token → Prop) : Reply α → Reply α → Prop
  | done : Renamed R .done .done
  | handle {x y : Handle} (h : x.Renamed R y) : Renamed R (.handle x) (.handle y)
  | value (value : α) : Renamed R (.value value) (.value value)
  | found (value : Option α) : Renamed R (.found value) (.found value)
  | values (values : List α) : Renamed R (.values values) (.values values)
  | flag (flag : Bool) : Renamed R (.flag flag) (.flag flag)
  | number (n n' : Nat) : Renamed R (.number n) (.number n')

/-- Two requests that differ at most in their tokens. -/
inductive Op.Renamed (R : Token → Token → Prop) : Op α → Op α → Prop
  | push (value : α) : Renamed R (.push value) (.push value)
  | insert (value : α) : Renamed R (.insert value) (.insert value)
  | extend (values : List α) : Renamed R (.extend values) (.extend values)
  | reserve : Renamed R .reserve .reserve
  | release {x y : Handle} (h : x.Renamed R y) : Renamed R (.release x) (.release y)
  | insertWith {x y : Handle} (h : x.Renamed R y) (value : α) :
      Renamed R (.insertWith x value) (.insertWith y value)
  | pop : Renamed R .pop .pop
  | remove {x y : Handle} (h : x.Renamed R y) : Renamed R (.remove x) (.remove y)
  | removeValue (value : α) : Renamed R (.removeValue value) (.removeValue value)
  | removeFirst (holds : α → Bool) : Renamed R (.removeFirst holds) (.removeFirst holds)
  | update {x y : Handle} (h : x.Renamed R y) (value : α) :
      Renamed R (.update x value) (.update y value)
  | clear : Renamed R .clear .clear
  | trim : Renamed R .trim .trim

/-- Two results of a computation: both were cut off in the same way, or both went through and `A`
holds of what they left. -/
inductive Agree {ε : Type} (A : β → γ → Prop) : Except ε β → Except ε γ → Prop
  | error (e : ε) : Agree A (.error e) (.error e)
  | ok {b : β} {c : γ} (h : A b c) : Agree A (.ok b) (.ok c)

namespace Agree

variable {ε ε' β' γ' : Type} {A : β → γ → Prop} {B : β' → γ' → Prop} {x : Except ε β}
  {y : Except ε γ}

theorem bind (hx : Agree A x y) {f : β → Except ε β'} {g : γ → Except ε γ'}
    (hf : ∀ b c, A b c → Agree B (f b) (g c)) : Agree B (x >>= f) (y >>= g) := by
  cases hx with
  | error e => exact .error e
  | ok h => exact hf _ _ h

theorem map (hx : Agree A x y) {f : β → β'} {g : γ → γ'} (hf : ∀ b c, A b c → B (f b) (g c)) :
    Agree B (x.map f) (y.map g) := by
  cases hx with
  | error e => exact .error e
  | ok h => exact .ok (hf _ _ h)

theorem mapError (hx : Agree A x y) (f : ε → ε') : Agree A (x.mapError f) (y.mapError f) := by
  cases hx with
  | error e => exact .error (f e)
  | ok h => exact .ok h

theorem mono {A' : β → γ → Prop} (hx : Agree A x y) (h : ∀ b c, A b c → A' b c) :
    Agree A' x y := by
  cases hx with
  | error e => exact .error e
  | ok hb => exact .ok (h _ _ hb)

/-- Equal results agree. -/
theorem of_eq {A : β → β → Prop} (h : ∀ b, A b b) {x y : Except ε β} (hx : y = x) :
    Agree A x y := by
  subst hx
  cases y with
  | error e => exact .error e
  | ok b => exact .ok (h b)

end Agree

section Monotone

variable (hRS : ∀ t t', R t t' → S t t')
include hRS

theorem Handle.Renamed.mono {x y : Handle} (h : x.Renamed R y) : x.Renamed S y :=
  { h with owner := hRS _ _ h.owner }

theorem Registry.Renamed.mono {r s : Registry} (h : r.Renamed R s) : r.Renamed S s :=
  { h with owner := hRS _ _ h.owner }

theorem Heap.Renamed.mono {h k : Heap α} (hk : h.Renamed R k) : h.Renamed S k :=
  { hk with id := hRS _ _ hk.id, registry := hk.registry.mono hRS }

/-- The same where there may be no heap. -/
theorem Heap.renamed?_mono {x y : Option (Heap α)} (h : Option.Rel (Heap.Renamed R) x y) :
    Option.Rel (Heap.Renamed S) x y := by
  cases h with
  | none => exact .none
  | some hk => exact .some (hk.mono hRS)

theorem Cursor.Renamed.mono {c d : Cursor} (h : c.Renamed R d) : c.Renamed S d :=
  { h with heap := hRS _ _ h.heap }

theorem Event.Renamed.mono {e f : Event} (h : e.Renamed R f) : e.Renamed S f := by
  cases h with
  | grew before after => exact .grew before after
  | trimmed before after live => exact .trimmed before after live
  | released before after => exact .released before after
  | registryReleased tracked h => exact .registryReleased tracked (hRS _ _ h)

theorem Reply.Renamed.mono {a b : Reply α} (h : a.Renamed R b) : a.Renamed S b := by
  cases h with
  | done => exact .done
  | handle h => exact .handle (h.mono hRS)
  | value value => exact .value value
  | found value => exact .found value
  | values values => exact .values values
  | flag flag => exact .flag flag
  | number n n' => exact .number n n'

end Monotone

/-! ### Registries -/

namespace Registry

variable {r s : Registry}

/-- A renamed registry is the registry itself under another owner. -/
theorem Renamed.exists_with (hr : r.Renamed R s) :
    ∃ owner, R r.owner owner ∧ s = { r with owner := owner } := by
  obtain ⟨owner, records, free, issued⟩ := s
  obtain ⟨howner, rfl, rfl, rfl⟩ := hr
  exact ⟨owner, howner, rfl⟩

/-- A handle is judged alike: whether it is foreign is the same question on both sides. -/
theorem renamed_statusOf (hR : Matching R) (hr : r.Renamed R s) {x y : Handle}
    (hx : x.Renamed R y) : s.statusOf y = r.statusOf x := by
  have howner : y.owner = s.owner ↔ x.owner = r.owner := (hR _ _ _ _ hx.owner hr.owner).symm
  unfold statusOf
  simp only [ne_eq, howner, hr.records_eq, hx.key_eq, hx.generation_eq]

theorem renamed_position (hR : Matching R) (hr : r.Renamed R s) {x y : Handle}
    (hx : x.Renamed R y) : s.position y = r.position x := by
  unfold position
  rw [renamed_statusOf hR hr hx]

theorem renamed_unboundKey (hR : Matching R) (hr : r.Renamed R s) {x y : Handle}
    (hx : x.Renamed R y) : s.unboundKey y = r.unboundKey x := by
  unfold unboundKey
  rw [renamed_statusOf hR hr hx, hx.key_eq]

theorem renamed_reserve (hr : r.Renamed R s) :
    Agree (fun p q => p.1.Renamed R q.1 ∧ p.2.Renamed R q.2) r.reserve s.reserve := by
  obtain ⟨owner, howner, rfl⟩ := hr.exists_with
  unfold reserve handle
  dsimp only
  repeat' split
  all_goals first
    | exact .ok ⟨⟨howner, rfl, rfl⟩, howner, rfl, rfl, rfl⟩
    | exact .error _

theorem renamed_bind (hr : r.Renamed R s) (key position : Nat) :
    Agree (Registry.Renamed R) (r.bind key position) (s.bind key position) := by
  obtain ⟨owner, howner, rfl⟩ := hr.exists_with
  unfold Registry.bind
  dsimp only
  split
  · exact .ok ⟨howner, rfl, rfl, rfl⟩
  · exact .error _

theorem renamed_retire (hr : r.Renamed R s) (key : Nat) :
    Agree (Registry.Renamed R) (r.retire key) (s.retire key) := by
  obtain ⟨owner, howner, rfl⟩ := hr.exists_with
  unfold retire
  dsimp only
  repeat' split
  all_goals first
    | exact .ok ⟨howner, rfl, rfl, rfl⟩
    | exact .error _

theorem renamed_retire? (hr : r.Renamed R s) (key : Option Nat) :
    Agree (Registry.Renamed R) (r.retire? key) (s.retire? key) := by
  cases key with
  | none => exact .ok hr
  | some key => exact renamed_retire hr key

theorem renamed_retireAll (hr : r.Renamed R s) (keys : List (Option Nat)) :
    Agree (Registry.Renamed R) (r.retireAll keys) (s.retireAll keys) := by
  induction keys generalizing r s with
  | nil => exact .ok hr
  | cons key rest ih =>
      have hfirst := renamed_retire? hr key
      unfold retireAll
      generalize r.retire? key = x at hfirst
      generalize s.retire? key = y at hfirst
      cases hfirst with
      | error e => exact .error e
      | ok h => exact ih h

theorem renamed_place (hr : r.Renamed R s) (slots : Array (Slot α)) (i : Nat) :
    Agree (Registry.Renamed R) (r.place slots i) (s.place slots i) := by
  unfold place
  split
  · exact .error _
  · exact .ok hr
  · exact renamed_bind hr _ i

theorem renamed_follow (hr : r.Renamed R s) (slots : Array (Slot α)) (path : List Nat) :
    Agree (Registry.Renamed R) (r.follow slots path) (s.follow slots path) := by
  induction path generalizing r s with
  | nil => exact .ok hr
  | cons i rest ih => exact (renamed_place hr slots i).bind fun _ _ h => ih h

end Registry

/-! ### The steps of a request -/

/-- What two operations have left, after which `R` relates the tokens, and `m` and `m'` are the
mints. -/
structure Outcome.Renamed (A : β → γ → Prop) (R : Token → Token → Prop) (m m' : Mint)
    (o : Outcome α β) (p : Outcome α γ) : Prop where
  mint_eq : o.mint = m
  mint_eq' : p.mint = m'
  heap : o.heap.Renamed R p.heap
  events : List.Forall₂ (Event.Renamed R) o.events p.events
  answer : Agree A o.answer p.answer

/-- The same of two changes. -/
structure Change.Renamed (A : β → γ → Prop) (R : Token → Token → Prop) (m m' : Mint)
    (c : Change α β) (d : Change α γ) : Prop where
  mint_eq : c.mint = m
  mint_eq' : d.mint = m'
  heap : c.heap.Renamed R d.heap
  events : List.Forall₂ (Event.Renamed R) c.events d.events
  answer : A c.answer d.answer

/-- The same of two changes that have begun with `m` and `m'`, where a token may have been drawn,
but only on becoming empty. -/
def Change.Draws (A : β → γ → Prop) (R : Token → Token → Prop) (m m' : Mint) (c : Change α β)
    (d : Change α γ) : Prop :=
  ∃ n, (n = 0 ∨ n = 1 ∧ c.heap.slots = #[]) ∧
    c.Renamed A (Drawing R m m' n) (m.skip n) (m'.skip n) d

/-- The same of two outcomes. -/
def Outcome.Draws (A : β → γ → Prop) (R : Token → Token → Prop) (m m' : Mint) (o : Outcome α β)
    (p : Outcome α γ) : Prop :=
  ∃ n, (n = 0 ∨ n = 1 ∧ o.heap.slots = #[]) ∧
    o.Renamed A (Drawing R m m' n) (m.skip n) (m'.skip n) p

section Steps

variable {A : β → γ → Prop} {m m' : Mint}

theorem Change.Renamed.draws {c : Change α β} {d : Change α γ} (hc : c.Renamed A R m m' d) :
    c.Draws A R m m' d :=
  ⟨0, Or.inl rfl, by simpa using hc⟩

theorem Outcome.Renamed.draws {o : Outcome α β} {p : Outcome α γ} (ho : o.Renamed A R m m' p) :
    o.Draws A R m m' p :=
  ⟨0, Or.inl rfl, by simpa using ho⟩

end Steps

namespace Heap

variable {h k : Heap α} {m m' : Mint}

/-- A renamed heap is the heap itself under other tokens. -/
theorem Renamed.exists_with (hk : h.Renamed R k) : ∃ id owner, R h.id id ∧
    R h.registry.owner owner ∧
    k = { h with id := id, registry := { h.registry with owner := owner } } := by
  rcases h with ⟨id, priority, policy, size, slots, capacity, registry, version, hfloor⟩
  rcases k with ⟨id', priority', policy', size', slots', capacity', registry', version', hfloor'⟩
  obtain ⟨hid, hregistry, rfl, rfl, rfl, rfl, rfl, rfl⟩ := hk
  dsimp only at hid hregistry ⊢
  obtain ⟨owner, howner, rfl⟩ := hregistry.exists_with
  exact ⟨id', owner, hid, howner, rfl⟩

theorem Renamed.with_registry (hk : h.Renamed R k) {r s : Registry} (hr : r.Renamed R s) :
    Renamed R { h with registry := r } { k with registry := s } :=
  { hk with registry := hr }

theorem renamed_makeRoom (hk : h.Renamed R k) :
    Agree (fun x y => x.1.Renamed R y.1 ∧ List.Forall₂ (Event.Renamed R) x.2 y.2) h.makeRoom
      k.makeRoom := by
  have hgrown : ∀ capacity, Renamed R { h with capacity := capacity }
      { k with capacity := capacity } := fun _ => { hk with capacity_eq := rfl }
  have hself := hk
  obtain ⟨id, owner, hid, howner, rfl⟩ := hk.exists_with
  unfold makeRoom size
  dsimp only
  repeat' split
  · exact .ok ⟨hself, .nil⟩
  · exact .ok ⟨hgrown _, .cons (.grew _ _) .nil⟩
  · exact .error _

theorem renamed_adopt (hk : h.Renamed R k) (s : Sifted α) :
    Agree (Renamed R) (h.adopt s) (k.adopt s) := by
  refine (Registry.renamed_follow hk.registry s.slots s.path).bind fun r r' hr => ?_
  exact .ok { hk with registry := hr, slots_eq := rfl, version_eq := by rw [hk.version_eq] }

theorem renamed_append (hk : h.Renamed R k) (slot : Slot α) :
    Agree (Change.Renamed Eq R m m') (h.append m slot) (k.append m' slot) := by
  refine (renamed_makeRoom hk).bind ?_
  rintro ⟨roomy, events⟩ ⟨roomy', events'⟩ ⟨hroomy, hevents⟩
  obtain ⟨id, owner, hid, howner, rfl⟩ := Renamed.exists_with hroomy
  refine (renamed_adopt hroomy _).bind fun longer longer' hlonger => ?_
  exact .ok ⟨rfl, rfl, hlonger, hevents, rfl⟩

theorem renamed_releaseStorage (hk : h.Renamed R k) (m m' : Mint) :
    Change.Renamed Eq R m m' (h.releaseStorage m) (k.releaseStorage m') := by
  have hself := hk
  obtain ⟨id, owner, hid, howner, rfl⟩ := hk.exists_with
  unfold releaseStorage
  dsimp only
  split
  · exact ⟨rfl, rfl, { hself with capacity_eq := rfl }, .cons (.released _ _) .nil, rfl⟩
  · exact ⟨rfl, rfl, hself, .nil, rfl⟩

/-- An idle registry is renewed under the tokens that are drawn. -/
theorem renamed_releaseRegistry (hk : h.Renamed R k) (m m' : Mint) : ∃ n ≤ 1,
    Change.Renamed Eq (Drawing R m m' n) (m.skip n) (m'.skip n) (h.releaseRegistry m)
      (k.releaseRegistry m') := by
  have hself := hk
  obtain ⟨id, owner, hid, howner, rfl⟩ := hk.exists_with
  unfold releaseRegistry Registry.tracked
  dsimp only
  split
  · have hfresh : Drawing R m m' 1 m.next m'.next :=
      Or.inr ⟨0, Nat.one_pos, m.nth_zero.symm, m'.nth_zero.symm⟩
    refine ⟨1, Nat.le_refl 1, rfl, rfl,
      { hself with id := Or.inl hid, registry := ⟨hfresh, rfl, rfl, rfl⟩ }, ?_, rfl⟩
    split
    · exact .cons (.registryReleased _ hfresh) .nil
    · exact .nil
  · rw [← drawing_zero R m m'] at hself
    exact ⟨0, Nat.zero_le 1, m.skip_zero.symm, m'.skip_zero.symm, hself, .nil, rfl⟩

/-- What a heap does on becoming empty is decided by its storage and its registry. -/
theorem renamed_releaseEmpty (hk : h.Renamed R k) (m m' : Mint) : ∃ n ≤ 1,
    Change.Renamed Eq (Drawing R m m' n) (m.skip n) (m'.skip n) (h.releaseEmpty m)
      (k.releaseEmpty m') := by
  have hfirst := renamed_releaseStorage hk m m'
  obtain ⟨n, hn, hsecond⟩ := renamed_releaseRegistry hfirst.heap m m'
  unfold releaseEmpty
  dsimp only
  rw [hfirst.mint_eq, hfirst.mint_eq']
  refine ⟨n, hn, hsecond.mint_eq, hsecond.mint_eq', hsecond.heap, ?_, hsecond.answer⟩
  exact List.rel_append (hfirst.events.imp fun _ _ he => he.mono fun _ _ => Or.inl) hsecond.events

theorem renamed_removeAt (hk : h.Renamed R k) (i : Nat) :
    Agree (Change.Draws Eq R m m') (h.removeAt m i) (k.removeAt m' i) := by
  have hself := hk
  obtain ⟨id, owner, hid, howner, rfl⟩ := hk.exists_with
  unfold removeAt
  dsimp only
  split
  · next hi =>
      refine (Registry.renamed_retire? hself.registry _).bind fun r r' hr => ?_
      have hshorter := hself.with_registry hr
      split
      · have hgap : Renamed R { h with slots := withoutSlot h.slots i hi, registry := r }
            { h with id := id, slots := withoutSlot h.slots i hi, registry := r' } :=
          { hshorter with slots_eq := rfl }
        refine (renamed_adopt hgap _).bind fun settled settled' hsettled => ?_
        exact .ok (Change.Renamed.draws ⟨rfl, rfl, hsettled, .nil, rfl⟩)
      · have htouched : Renamed R
            { h with slots := withoutSlot h.slots i hi, registry := r, version := h.version + 1 }
            { h with
              id := id, slots := withoutSlot h.slots i hi, registry := r',
              version := h.version + 1 } :=
          { hshorter with slots_eq := rfl, version_eq := rfl }
        split
        · next he =>
            obtain ⟨n, hn, hreleased⟩ := renamed_releaseEmpty htouched m m'
            refine .ok ⟨n, ?_, hreleased.mint_eq, hreleased.mint_eq', hreleased.heap,
              hreleased.events, rfl⟩
            rcases Nat.le_one_iff_eq_zero_or_eq_one.mp hn with rfl | rfl
            · exact Or.inl rfl
            · exact Or.inr ⟨rfl, (slots_releaseEmpty _ m).trans (Array.isEmpty_iff.mp he)⟩
        · exact .ok (Change.Renamed.draws ⟨rfl, rfl, htouched, .nil, rfl⟩)
  · exact .error _

theorem renamed_replaceAt (hk : h.Renamed R k) (i : Nat) (value : α) :
    Agree (Change.Renamed Eq R m m') (h.replaceAt m i value) (k.replaceAt m' i value) := by
  have hself := hk
  obtain ⟨id, owner, hid, howner, rfl⟩ := hk.exists_with
  unfold replaceAt
  dsimp only
  split
  · refine (renamed_adopt hself _).bind fun settled settled' hsettled => ?_
    exact .ok ⟨rfl, rfl, hsettled, .nil, rfl⟩
  · exact .error _

end Heap

/-! ### Outcomes -/

namespace Outcome.Renamed

variable {h k : Heap α} {m m' : Mint} {β' γ' : Type} {A : β → γ → Prop} {B : β' → γ' → Prop}
  {o : Outcome α β} {p : Outcome α γ}

theorem ofChange (hk : h.Renamed R k) {x : Except Fault (Change α β)}
    {y : Except Fault (Change α γ)}
    (hx : Agree (Change.Renamed A R m m') x y) :
    (Outcome.ofChange h m x).Renamed A R m m' (.ofChange k m' y) := by
  cases hx with
  | error e => exact ⟨rfl, rfl, hk, .nil, .error _⟩
  | ok hc => exact ⟨hc.mint_eq, hc.mint_eq', hc.heap, hc.events, .ok hc.answer⟩

theorem failed (hk : h.Renamed R k) (failure : Failure) :
    (Outcome.failed h m failure : Outcome α β).Renamed A R m m' (.failed k m' failure) :=
  ⟨rfl, rfl, hk, .nil, .error failure⟩

theorem done (hk : h.Renamed R k) {b : β} {c : γ} (hb : A b c) :
    (Outcome.done h m b).Renamed A R m m' (.done k m' c) :=
  ⟨rfl, rfl, hk, .nil, .ok hb⟩

theorem map (ho : o.Renamed A R m m' p) {f : β → β'} {g : γ → γ'}
    (hf : ∀ b c, A b c → B (f b) (g c)) : (o.map f).Renamed B R m m' (p.map g) :=
  { ho with answer := ho.answer.map hf }

/-- One operation after another, where the second draws no token. -/
theorem andThen (ho : o.Renamed A R m m' p) {next : Heap α → Mint → β → Outcome α β'}
    {next' : Heap α → Mint → γ → Outcome α γ'}
    (hnext : ∀ h k b c, h.Renamed R k → A b c →
      (next h m b).Renamed B R m m' (next' k m' c)) :
    (o.andThen next).Renamed B R m m' (p.andThen next') := by
  have hanswer := ho.answer
  unfold Outcome.andThen
  rw [ho.mint_eq, ho.mint_eq']
  generalize o.answer = x at hanswer
  generalize p.answer = y at hanswer
  cases hanswer with
  | error e => exact ⟨rfl, rfl, ho.heap, ho.events, .error e⟩
  | ok hb =>
      have hlast := hnext _ _ _ _ ho.heap hb
      exact { hlast with events := List.rel_append ho.events hlast.events }

end Outcome.Renamed

namespace Outcome.Draws

variable {h k : Heap α} {m m' : Mint} {β' γ' : Type} {A : β → γ → Prop} {B : β' → γ' → Prop}
  {o : Outcome α β} {p : Outcome α γ}

theorem ofChange (hk : h.Renamed R k) {x : Except Fault (Change α β)}
    {y : Except Fault (Change α γ)}
    (hx : Agree (Change.Draws A R m m') x y) :
    (Outcome.ofChange h m x).Draws A R m m' (.ofChange k m' y) := by
  cases hx with
  | error e => exact (Outcome.Renamed.failed hk _).draws
  | ok hc =>
      obtain ⟨n, hn, hc⟩ := hc
      exact ⟨n, hn, .ofChange hc.heap (.ok hc)⟩

theorem map (ho : o.Draws A R m m' p) {f : β → β'} {g : γ → γ'}
    (hf : ∀ b c, A b c → B (f b) (g c)) : (o.map f).Draws B R m m' (p.map g) := by
  obtain ⟨n, hn, ho⟩ := ho
  exact ⟨n, hn, ho.map hf⟩

/-- One operation after another, where the second draws no token from an empty heap. -/
theorem andThen (ho : o.Draws A R m m' p) {next : Heap α → Mint → β → Outcome α β'}
    {next' : Heap α → Mint → γ → Outcome α γ'}
    (hnext : ∀ h k b c, h.Renamed R k → A b c → (next h m b).Draws B R m m' (next' k m' c))
    (hempty : ∀ S h k n n' b c, h.slots = #[] → h.Renamed S k → A b c →
      (next h n b).heap.slots = #[] ∧ (next h n b).Renamed B S n n' (next' k n' c)) :
    (o.andThen next).Draws B R m m' (p.andThen next') := by
  obtain ⟨n, hn, ho⟩ := ho
  have hanswer := ho.answer
  unfold Outcome.andThen
  rw [ho.mint_eq, ho.mint_eq']
  generalize o.answer = x at hanswer
  generalize p.answer = y at hanswer
  cases hanswer with
  | error e => exact ⟨n, hn, rfl, rfl, ho.heap, ho.events, .error e⟩
  | ok hb =>
      rcases hn with rfl | ⟨rfl, he⟩
      · have hfirst := ho.heap
        rw [drawing_zero] at hfirst
        obtain ⟨n, hn, hlast⟩ := hnext _ _ _ _ hfirst hb
        rw [Mint.skip_zero, Mint.skip_zero]
        have hevents : List.Forall₂ (Event.Renamed (Drawing R m m' n)) o.events p.events := by
          have hbefore := ho.events
          rw [drawing_zero] at hbefore
          exact hbefore.imp fun _ _ he => he.mono fun _ _ => Or.inl
        exact ⟨n, hn, { hlast with events := List.rel_append hevents hlast.events }⟩
      · obtain ⟨he', hlast⟩ := hempty _ _ _ _ _ _ _ he ho.heap hb
        exact ⟨1, Or.inr ⟨rfl, he'⟩,
          { hlast with events := List.rel_append ho.events hlast.events }⟩

end Outcome.Draws

/-! ### Requests -/

namespace Heap

variable {h k : Heap α} {m m' : Mint} {x y : Handle}

theorem renamed_push (hk : h.Renamed R k) (value : α) :
    (h.push m value).Renamed Eq R m m' (k.push m' value) :=
  .ofChange hk (renamed_append hk _)

theorem renamed_extend (hk : h.Renamed R k) (values : List α) :
    (h.extend m values).Renamed Eq R m m' (k.extend m' values) := by
  induction values generalizing h k with
  | nil => exact .done hk rfl
  | cons value rest ih => exact (renamed_push hk value).andThen fun _ _ _ _ hk _ => ih hk

theorem renamed_reserve (hk : h.Renamed R k) :
    (h.reserve m).Renamed (Handle.Renamed R) R m m' (k.reserve m') := by
  have hreserved := Registry.renamed_reserve hk.registry
  unfold reserve
  generalize h.registry.reserve = r at hreserved
  generalize k.registry.reserve = s at hreserved
  cases hreserved with
  | error e => exact .failed hk _
  | ok h => exact .done (hk.with_registry h.2) h.1

theorem renamed_insert (hk : h.Renamed R k) (value : α) :
    (h.insert m value).Renamed (Handle.Renamed R) R m m' (k.insert m' value) := by
  refine (renamed_reserve hk).andThen fun h k x y hk hx => .ofChange hk ?_
  rw [hx.key_eq]
  refine (renamed_append hk _).map fun c d hc => ?_
  exact { hc with answer := hx }

theorem renamed_release (hR : Matching R) (hk : h.Renamed R k) (hx : x.Renamed R y) :
    (h.release m x).Renamed Eq R m m' (k.release m' y) := by
  unfold release
  rw [Registry.renamed_unboundKey hR hk.registry hx]
  split
  · exact .failed hk _
  · next key _ =>
      have hretired := Registry.renamed_retire hk.registry key
      generalize h.registry.retire key = r at hretired
      generalize k.registry.retire key = s at hretired
      cases hretired with
      | error e => exact .failed hk _
      | ok hr => exact .done (hk.with_registry hr) rfl

theorem renamed_insertWith (hR : Matching R) (hk : h.Renamed R k) (hx : x.Renamed R y) (value : α) :
    (h.insertWith m x value).Renamed Eq R m m' (k.insertWith m' y value) := by
  unfold insertWith
  rw [Registry.renamed_unboundKey hR hk.registry hx]
  split
  · exact .failed hk _
  · exact .ofChange hk (renamed_append hk _)

theorem renamed_pop (hk : h.Renamed R k) (m m' : Mint) : (h.pop m).Draws Eq R m m' (k.pop m') := by
  unfold pop isEmpty size
  rw [hk.slots_eq]
  split
  · exact (Outcome.Renamed.failed hk _).draws
  · exact .ofChange hk (renamed_removeAt hk 0)

theorem renamed_remove (hR : Matching R) (hk : h.Renamed R k) (hx : x.Renamed R y) :
    (h.remove m x).Draws Eq R m m' (k.remove m' y) := by
  unfold remove
  rw [Registry.renamed_position hR hk.registry hx]
  split
  · exact (Outcome.Renamed.failed hk _).draws
  · exact .ofChange hk (renamed_removeAt hk _)

theorem renamed_removeFirst (hk : h.Renamed R k) (holds : α → Bool) :
    (h.removeFirst m holds).Draws Eq R m m' (k.removeFirst m' holds) := by
  unfold removeFirst indexOf?
  rw [hk.slots_eq]
  split
  · exact (Outcome.Renamed.done hk rfl).draws
  · exact (Outcome.Draws.ofChange hk (renamed_removeAt hk _)).map fun b c => congrArg some

theorem renamed_update (hR : Matching R) (hk : h.Renamed R k) (hx : x.Renamed R y) (value : α) :
    (h.update m x value).Renamed Eq R m m' (k.update m' y value) := by
  unfold update
  rw [Registry.renamed_position hR hk.registry hx]
  split
  · exact .failed hk _
  · exact .ofChange hk (renamed_replaceAt hk _ value)

theorem renamed_clear (hk : h.Renamed R k) : (h.clear m).Draws Eq R m m' (k.clear m') := by
  refine .ofChange hk ?_
  unfold keys
  rw [hk.slots_eq]
  refine (Registry.renamed_retireAll hk.registry _).bind fun r s hr => ?_
  have hemptied : Renamed R { h with slots := #[], registry := r }
      { k with slots := #[], registry := s } :=
    { hk.with_registry hr with slots_eq := rfl }
  obtain ⟨n, hn, hreleased⟩ := renamed_releaseEmpty hemptied m m'
  have hslots := slots_releaseEmpty { h with slots := #[], registry := r } m
  refine .ok ⟨n, ?_, hreleased.mint_eq, hreleased.mint_eq', ?_, hreleased.events, rfl⟩
  · rcases Nat.le_one_iff_eq_zero_or_eq_one.mp hn with rfl | rfl
    · exact Or.inl rfl
    · exact Or.inr ⟨rfl, hslots⟩
  · exact { hreleased.heap with version_eq := by rw [hk.version_eq] }

theorem renamed_trim (hk : h.Renamed R k) : (h.trim m).Renamed Eq R m m' (k.trim m') := by
  have hself := hk
  obtain ⟨id, owner, hid, howner, rfl⟩ := hk.exists_with
  unfold trim size
  dsimp only
  split
  · exact ⟨rfl, rfl, { hself with capacity_eq := rfl }, .cons (.trimmed _ _ _) .nil, .ok rfl⟩
  · exact .done hself rfl

theorem popMany_of_empty (he : h.slots = #[]) (m : Mint) (count : Nat) :
    h.popMany m count = .done h m ([], if count = 0 then none else some .empty) := by
  cases count with
  | zero => rfl
  | succ count =>
      simp only [popMany, WellFormed.pop_of_empty he]
      rfl

/-- A row of `pop`s draws a token when the heap becomes empty, and ends there. -/
theorem renamed_popMany (hk : h.Renamed R k) (count : Nat) :
    (h.popMany m count).Draws Eq R m m' (k.popMany m' count) := by
  induction count generalizing h k m m' with
  | zero => exact (Outcome.Renamed.done hk rfl).draws
  | succ count ih =>
      have hthen : Outcome.Draws Eq R m m'
          ((h.pop m).andThen fun h m value =>
            (h.popMany m count).map fun popped => (value :: popped.1, popped.2))
          ((k.pop m').andThen fun k m value =>
            (k.popMany m count).map fun popped => (value :: popped.1, popped.2)) := by
        refine (renamed_pop hk m m').andThen ?_ ?_
        · rintro h k b _ hk rfl
          exact (ih hk).map fun _ _ heq => by rw [heq]
        · rintro S h k l l' b _ he hk rfl
          rw [popMany_of_empty he, popMany_of_empty (hk.slots_eq.trans he)]
          exact ⟨he, (Outcome.Renamed.done hk rfl).map fun _ _ heq => by rw [heq]⟩
      obtain ⟨n, hn, hpop⟩ := renamed_pop hk m m'
      have hanswer := hpop.answer
      unfold popMany
      dsimp only
      rcases hx : (h.pop m).answer with e | value <;> rw [hx] at hanswer
      · generalize hy : (k.pop m').answer = y at hanswer
        cases hanswer
        cases e with
        | refused cause =>
            exact ⟨n, hn, hpop.mint_eq, hpop.mint_eq', hpop.heap, hpop.events, .ok rfl⟩
        | fault fault => exact hthen
      · generalize hy : (k.pop m').answer = y at hanswer
        cases hanswer
        exact hthen

theorem renamed_drain (hk : h.Renamed R k) (m m' : Mint) :
    (h.drain m).Draws Eq R m m' (k.drain m') := by
  unfold drain size
  rw [hk.slots_eq]
  exact (renamed_popMany hk _).map fun _ _ => congrArg Prod.fst

/-- A new heap draws two tokens. -/
theorem renamed_create (policy : StoragePolicy) (priority : Priority α) (size : SlotSize)
    (m m' : Mint) :
    Agree (fun x y => x.1.Renamed (Drawing R m m' 2) y.1 ∧ x.2 = m.skip 2 ∧ y.2 = m'.skip 2)
      (Heap.create policy priority size m) (Heap.create policy priority size m') := by
  have hfirst : Drawing R m m' 2 m.next m'.next :=
    Or.inr ⟨0, Nat.two_pos, m.nth_zero.symm, m'.nth_zero.symm⟩
  have hsecond : Drawing R m m' 2 m.next.succ m'.next.succ :=
    Or.inr ⟨1, Nat.one_lt_two, m.nth_one.symm, m'.nth_one.symm⟩
  unfold Heap.create
  split
  · exact .ok ⟨⟨hfirst, ⟨hsecond, rfl, rfl, rfl⟩, rfl, rfl, rfl, rfl, rfl, rfl⟩, m.skip_two.symm,
      m'.skip_two.symm⟩
  · exact .error _

/-! ### Reading -/

theorem Renamed.values_eq (hk : h.Renamed R k) : k.values = h.values := by
  rw [values, values, hk.slots_eq]

theorem Renamed.get_eq (hR : Matching R) (hk : h.Renamed R k) (hx : x.Renamed R y) :
    k.get y = h.get x := by
  unfold get
  rw [Registry.renamed_position hR hk.registry hx, hk.slots_eq]

theorem Renamed.containsHandle_eq (hR : Matching R) (hk : h.Renamed R k) (hx : x.Renamed R y) :
    k.containsHandle y = h.containsHandle x := by
  unfold containsHandle
  rw [Registry.renamed_position hR hk.registry hx]

end Heap

namespace Cursor

variable {c d : Cursor} {h k : Heap α}

theorem renamed_start (hk : h.Renamed R k) : (start h).Renamed R (start k) :=
  ⟨hk.id, hk.version_eq, rfl⟩

theorem renamed_next (hR : Matching R) (hk : h.Renamed R k) (hc : c.Renamed R d) :
    (d.next k).1 = (c.next h).1 ∧ (c.next h).2.Renamed R (d.next k).2 := by
  obtain ⟨hshown, i, hc', hd'⟩ := next_congr (hR _ _ _ _ hk.id hc.heap).symm
    (by rw [hk.version_eq, hc.version_eq]) hk.values_eq hc.position_eq
  rw [hc', hd']
  exact ⟨hshown, hc.heap, hc.version_eq, rfl⟩

theorem renamed_rest (hR : Matching R) (hk : h.Renamed R k) (hc : c.Renamed R d) :
    (d.rest k).1 = (c.rest h).1 ∧ (c.rest h).2.Renamed R (d.rest k).2 := by
  obtain ⟨hshown, i, hc', hd'⟩ := rest_congr (hR _ _ _ _ hk.id hc.heap).symm
    (by rw [hk.version_eq, hc.version_eq]) hk.values_eq hc.position_eq
  rw [hc', hd']
  exact ⟨hshown, hc.heap, hc.version_eq, rfl⟩

end Cursor

/-- **Requests on renamed heaps** leave renamed heaps and answer alike but for the tokens. -/
theorem Op.run_renamed [BEq α] (hR : Matching R) {h k : Heap α} (hk : h.Renamed R k) {op op' : Op α}
    (hop : op.Renamed R op') (m m' : Mint) : ∃ n ≤ 1,
      (op.run h m).Renamed (Reply.Renamed (Drawing R m m' n)) (Drawing R m m' n) (m.skip n)
        (m'.skip n) (op'.run k m') := by
  have hkept : ∀ {o p : Outcome α (Reply α)}, o.Renamed (Reply.Renamed R) R m m' p → ∃ n ≤ 1,
      o.Renamed (Reply.Renamed (Drawing R m m' n)) (Drawing R m m' n) (m.skip n) (m'.skip n) p :=
    fun ho => ⟨0, Nat.zero_le 1, by simpa using ho⟩
  have hdrawn : ∀ {β : Type} {o p : Outcome α β} {f : β → Reply α},
      (∀ S b, Reply.Renamed S (f b) (f b)) → o.Draws Eq R m m' p → ∃ n ≤ 1,
      (o.map f).Renamed (Reply.Renamed (Drawing R m m' n)) (Drawing R m m' n) (m.skip n)
        (m'.skip n) (p.map f) := by
    rintro β o p f hf ⟨n, hn, ho⟩
    refine ⟨n, by omega, ho.map ?_⟩
    rintro b _ rfl
    exact hf _ b
  cases hop with
  | push value => exact hkept ((Heap.renamed_push hk value).map fun _ _ _ => .done)
  | insert value => exact hkept ((Heap.renamed_insert hk value).map fun _ _ hx => .handle hx)
  | extend values => exact hkept ((Heap.renamed_extend hk values).map fun _ _ _ => .done)
  | reserve => exact hkept ((Heap.renamed_reserve hk).map fun _ _ hx => .handle hx)
  | release hx => exact hkept ((Heap.renamed_release hR hk hx).map fun _ _ _ => .done)
  | insertWith hx value =>
      exact hkept ((Heap.renamed_insertWith hR hk hx value).map fun _ _ _ => .done)
  | pop => exact hdrawn (fun _ => .value) (Heap.renamed_pop hk m m')
  | remove hx => exact hdrawn (fun _ => .value) (Heap.renamed_remove hR hk hx)
  | removeValue value =>
      exact hdrawn (fun _ => .flag)
        ((Heap.renamed_removeFirst hk _).map fun _ _ => congrArg Option.isSome)
  | removeFirst holds => exact hdrawn (fun _ => .found) (Heap.renamed_removeFirst hk holds)
  | update hx value =>
      exact hkept ((Heap.renamed_update hR hk hx value).map fun _ _ heq => heq ▸ .value _)
  | clear => exact hdrawn (fun _ _ => .done) (Heap.renamed_clear hk)
  | trim => exact hkept ((Heap.renamed_trim hk).map fun _ _ _ => .done)

end TrackedHeap
