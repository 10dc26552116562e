import TrackedHeap.Proofs.Heap.Renamed
import TrackedHeap.Proofs.World.Abreast

/-!
# TrackedHeap.Proofs.World.Renamed

**The same command in two worlds**, whose heaps differ in their tokens, and which may have quite
different mints. It is carried out in both or in neither, draws equally many tokens, and what it
leaves differs in tokens alone.
-/

namespace TrackedHeap

variable {α : Type} {R S : Token → Token → Prop}

/-- From a renamed heap the same is read. -/
theorem Heap.Renamed.readsSame {h k : Heap α} (hk : h.Renamed R k) : h.ReadsSame k := by
  obtain ⟨id, owner, -, -, rfl⟩ := hk.exists_with
  exact ⟨rfl, rfl, rfl, rfl, rfl, fun _ => rfl, fun _ _ => rfl, fun _ _ _ _ => rfl⟩

/-- The number of the heap that a command, answered so, has made. -/
def Command.made : Command α → Except Failure (Reply α) → Option Nat
  | create .., .ok (.number n) | collect .., .ok (.number n) => some n
  | _, _ => none

/-- Two steps that differ at most in tokens, and in the numbers that the heap concerned and its
cursors go by. -/
structure Step.Renamed (R : Token → Token → Prop) (n n' : Option Nat) (pairs : List (Nat × Nat))
    (s t : Step α (Reply α)) : Prop where
  answer : Agree (Reply.Renamed R) s.answer t.answer
  events : List.Forall₂ (Event.Renamed R) s.events t.events
  number_iff : n.isSome = n'.isSome
  heap : Option.Rel (Heap.Renamed R) (n.bind s.world.heap?) (n'.bind t.world.heap?)
  cursors : CursorsPaired (Cursor.Renamed R) pairs s.world.cursors t.world.cursors

/-- The same of two steps that have begun with the mints `m` and `m'`, and may have drawn tokens,
equally many. -/
def Step.Draws (R : Token → Token → Prop) (m m' : Mint) (n n' : Option Nat)
    (pairs : List (Nat × Nat)) (s t : Step α (Reply α)) : Prop :=
  ∃ l ≤ 2, s.world.mint = m.skip l ∧ t.world.mint = m'.skip l ∧
    s.Renamed (Drawing R m m' l) n n' pairs t

section Steps

variable {n n' : Option Nat} {pairs : List (Nat × Nat)} {s t : Step α (Reply α)}

theorem Step.Renamed.mono (hRS : ∀ t t', R t t' → S t t') (hs : s.Renamed R n n' pairs t) :
    s.Renamed S n n' pairs t where
  answer := hs.answer.mono fun _ _ h => h.mono hRS
  events := hs.events.imp fun _ _ h => h.mono hRS
  number_iff := hs.number_iff
  heap := Heap.renamed?_mono hRS hs.heap
  cursors := hs.cursors.imp fun _ _ h => h.mono hRS

/-- A step that draws no token. -/
theorem Step.Renamed.draws {m m' : Mint} (hs : s.Renamed R n n' pairs t) (hm : s.world.mint = m)
    (hm' : t.world.mint = m') : s.Draws R m m' n n' pairs t :=
  ⟨0, Nat.zero_le 2, by simpa using hm, by simpa using hm', by simpa using hs⟩

end Steps

namespace Command

variable {A : Op α → Op α → Prop} {n n' : Nat} {pairs : List (Nat × Nat)}
  {command command' : Command α} {x y : Except Failure (Reply α)}

/-- Two commands that correspond, answered alike, have both made a cursor or neither. -/
theorem Corresponds.opened_iff (hc : command.Corresponds A pairs n n' command')
    (hxy : Agree (Reply.Renamed R) x y) :
    (command.opened x).isSome = (command'.opened y).isSome := by
  cases hc with
  | openCursor | copyCursor =>
      cases hxy with
      | error => rfl
      | ok h => cases h <;> rfl
  | _ => rfl

end Command

namespace World

variable [BEq α] {w v : World α} {n n' : Nat} {pairs : List (Nat × Nat)}
  {command command' : Command α} {s : Step α (Reply α)}

/-- A request to two heaps that differ in their tokens. -/
theorem act_renamed (hR : Matching R) {op op' : Op α} (hop : op.Renamed R op') {h k : Heap α}
    (hk : h.Renamed R k) (hn : w.heap? n = some h) (hn' : v.heap? n' = some k)
    (hcursors : CursorsPaired (Cursor.Renamed R) pairs w.cursors v.cursors) :
    ∃ s t, w.exec (.act n op) = some s ∧ v.exec (.act n' op') = some t ∧
      s.Draws R w.mint v.mint (some n) (some n') pairs t := by
  obtain ⟨l, hl, ho⟩ := Op.run_renamed hR hk hop w.mint v.mint
  refine ⟨_, _, exec_act_eq_some.mpr ⟨h, hn, rfl⟩, exec_act_eq_some.mpr ⟨k, hn', rfl⟩, l, by omega,
    ho.mint_eq, ho.mint_eq', ho.answer, ho.events, rfl, ?_, ?_⟩
  · dsimp only [Option.bind_some]
    rw [heap?_of_set rfl (lt_size_of_heap? hn), if_pos rfl,
      heap?_of_set rfl (lt_size_of_heap? hn'), if_pos rfl]
    exact .some ho.heap
  · exact hcursors.imp fun _ _ hcd => hcd.mono fun _ _ => Or.inl

/-- Two heaps that differ in their tokens, used up in rank order. -/
theorem drain_renamed {h k : Heap α} (hk : h.Renamed R k) (hn : w.heap? n = some h)
    (hn' : v.heap? n' = some k)
    (hcursors : CursorsPaired (Cursor.Renamed R) pairs w.cursors v.cursors) :
    ∃ s t, w.exec (.drain n) = some s ∧ v.exec (.drain n') = some t ∧
      s.Draws R w.mint v.mint (some n) (some n') pairs t := by
  obtain ⟨l, hl, ho⟩ := Heap.renamed_drain hk w.mint v.mint
  refine ⟨_, _, Option.bind_eq_some_iff.mpr ⟨h, hn, rfl⟩,
    Option.bind_eq_some_iff.mpr ⟨k, hn', rfl⟩, l, by omega, ho.mint_eq, ho.mint_eq', ?_, ho.events,
    rfl, ?_, ?_⟩
  · exact ho.answer.map fun _ _ heq => heq ▸ .values _
  · dsimp only [Option.bind_some]
    rw [heap?_of_drop_self rfl, heap?_of_drop_self rfl]
    exact .none
  · exact hcursors.imp fun _ _ hcd => hcd.mono fun _ _ => Or.inl

/-- **The same command in two worlds**, to heaps that differ in their tokens: if it is carried out
in the one, then in the other too. It draws equally many tokens, and what it leaves differs in
tokens alone, if those that were drawn are taken into account. -/
theorem exec_renamed (hR : Matching R) (hc : command.Corresponds (Op.Renamed R) pairs n n' command')
    (hh : Option.Rel (Heap.Renamed R) (w.heap? n) (v.heap? n'))
    (hcursors : CursorsPaired (Cursor.Renamed R) pairs w.cursors v.cursors)
    (hx : w.exec command = some s) : ∃ t, v.exec command' = some t ∧
      s.Draws R w.mint v.mint (some n) (some n')
        (pairs ++ pairOf (command.opened s.answer) (command'.opened t.answer)) t := by
  have hrel : ∀ {h}, w.heap? n = some h → ∃ k, v.heap? n' = some k ∧ h.Renamed R k :=
    exists_of_rel hh
  cases hc with
  | act hop =>
      obtain ⟨h, hn, -⟩ := exec_act_eq_some.mp hx
      obtain ⟨k, hn', hk⟩ := hrel hn
      obtain ⟨s', t, hs, ht, hst⟩ := act_renamed hR hop hk hn hn' hcursors
      cases hx.symm.trans hs
      exact ⟨t, ht, by simpa only [Command.opened, pairOf_none, List.append_nil] using hst⟩
  | consume =>
      obtain ⟨h, hn, hs⟩ := Option.bind_eq_some_iff.mp hx
      obtain ⟨k, hn', hk⟩ := hrel hn
      cases hs
      refine ⟨_, Option.bind_eq_some_iff.mpr ⟨k, hn', rfl⟩,
        Step.Renamed.draws ⟨?_, .nil, rfl, ?_, hcursors.append_none⟩ rfl rfl⟩
      · rw [hk.values_eq]
        exact .ok (.values _)
      · dsimp only [Option.bind_some]
        rw [heap?_of_drop_self rfl, heap?_of_drop_self rfl]
        exact .none
  | drain =>
      obtain ⟨h, hn, -⟩ := Option.bind_eq_some_iff.mp hx
      obtain ⟨k, hn', hk⟩ := hrel hn
      obtain ⟨s', t, hs, ht, hst⟩ := drain_renamed hk hn hn' hcursors
      cases hx.symm.trans hs
      exact ⟨t, ht, by simpa only [Command.opened, pairOf_none, List.append_nil] using hst⟩
  | openCursor =>
      obtain ⟨h, hn, rfl⟩ := exec_openCursor_eq_some.mp hx
      obtain ⟨k, hn', hk⟩ := hrel hn
      exact ⟨_, exec_openCursor_eq_some.mpr ⟨k, hn', rfl⟩, Step.Renamed.draws
        ⟨.ok (.number _ _), .nil, rfl, hh, hcursors.push (Cursor.renamed_start hk)⟩ rfl rfl⟩
  | @copyCursor p hp =>
      obtain ⟨c, hc, rfl⟩ := exec_copyCursor_eq_some.mp hx
      obtain ⟨d, hd, hcd⟩ := hcursors.exists_pair hp hc
      exact ⟨_, exec_copyCursor_eq_some.mpr ⟨d, hd, rfl⟩, Step.Renamed.draws
        ⟨.ok (.number _ _), .nil, rfl, hh, hcursors.push hcd⟩ rfl rfl⟩
  | @step p hp =>
      obtain ⟨c, h, hc, hn, rfl⟩ := exec_step_eq_some.mp hx
      obtain ⟨k, hn', hk⟩ := hrel hn
      obtain ⟨d, hd, hcd⟩ := hcursors.exists_pair hp hc
      obtain ⟨hshown, hmoved⟩ := Cursor.renamed_next hR hk hcd
      refine ⟨_, exec_step_eq_some.mpr ⟨d, k, hd, hn', rfl⟩,
        Step.Renamed.draws ⟨?_, .nil, rfl, hh, (hcursors.set hp hmoved).append_none⟩ rfl rfl⟩
      exact ((Agree.of_eq (fun _ => rfl) hshown).map fun _ _ heq => heq ▸ .found _).mapError _
  | @stepToEnd p hp =>
      obtain ⟨c, h, hc, hn, rfl⟩ := exec_stepToEnd_eq_some.mp hx
      obtain ⟨k, hn', hk⟩ := hrel hn
      obtain ⟨d, hd, hcd⟩ := hcursors.exists_pair hp hc
      obtain ⟨hshown, hmoved⟩ := Cursor.renamed_rest hR hk hcd
      refine ⟨_, exec_stepToEnd_eq_some.mpr ⟨d, k, hd, hn', rfl⟩,
        Step.Renamed.draws ⟨?_, .nil, rfl, hh, (hcursors.set hp hmoved).append_none⟩ rfl rfl⟩
      exact ((Agree.of_eq (fun _ => rfl) hshown).map fun _ _ heq => heq ▸ .values _).mapError _
  | @restart p hp =>
      obtain ⟨c, h, hc, hn, rfl⟩ := exec_restart_eq_some.mp hx
      obtain ⟨k, hn', hk⟩ := hrel hn
      obtain ⟨d, hd, -⟩ := hcursors.exists_pair hp hc
      exact ⟨_, exec_restart_eq_some.mpr ⟨d, k, hd, hn', rfl⟩, Step.Renamed.draws
        ⟨.ok .done, .nil, rfl, hh, (hcursors.set hp (Cursor.renamed_start hk)).append_none⟩ rfl rfl⟩

omit [BEq α] in
/-- **The same heap made in two worlds** draws two tokens, and is the same but for them. -/
theorem create_renamed (R : Token → Token → Prop) (w v : World α) (policy : StoragePolicy)
    (priority : Priority α) (size : SlotSize) :
    (w.create policy priority size).Draws R w.mint v.mint
      (Command.made (.create policy priority size) (w.create policy priority size).answer)
      (Command.made (.create policy priority size) (v.create policy priority size).answer) []
      (v.create policy priority size) := by
  have hnew := Heap.renamed_create (R := R) policy priority size w.mint v.mint
  unfold World.create
  generalize Heap.create policy priority size w.mint = x at hnew
  generalize Heap.create policy priority size v.mint = y at hnew
  cases hnew with
  | error fault => exact Step.Renamed.draws ⟨.error _, .nil, rfl, .none, nofun, nofun⟩ rfl rfl
  | @ok x y h =>
      obtain ⟨hh, hm, hm'⟩ := h
      refine ⟨2, Nat.le_refl 2, hm, hm', .ok (.number _ _), .nil, rfl, ?_, nofun, nofun⟩
      dsimp only [Command.made, Option.bind_some]
      rw [heap?_of_push rfl, if_pos rfl, heap?_of_push rfl, if_pos rfl]
      exact .some hh

omit [BEq α] in
/-- A heap of elements draws two tokens as well, even if they do not fit. -/
theorem collect_renamed (R : Token → Token → Prop) (w v : World α) (priority : Priority α)
    (promised : Nat) (values : List α) (size : SlotSize) :
    (w.collect priority promised values size).Draws R w.mint v.mint
      (Command.made (.collect priority promised values size)
        (w.collect priority promised values size).answer)
      (Command.made (.collect priority promised values size)
        (v.collect priority promised values size).answer) []
      (v.collect priority promised values size) := by
  have hnew := Heap.renamed_create (R := R)
    (({} : StoragePolicy).withFloor (max promised StoragePolicy.defaultFloor)) priority size w.mint
    v.mint
  unfold World.collect
  dsimp only
  generalize Heap.create _ priority size w.mint = x at hnew
  generalize Heap.create _ priority size v.mint = y at hnew
  cases hnew with
  | error fault => exact Step.Renamed.draws ⟨.error _, .nil, rfl, .none, nofun, nofun⟩ rfl rfl
  | @ok x y h =>
      obtain ⟨hh, hm, hm'⟩ := h
      have ho : Outcome.Renamed Eq _ x.2 y.2 (x.1.extend x.2 values) (y.1.extend y.2 values) :=
        Heap.renamed_extend hh values
      have hanswer := ho.answer
      dsimp only
      generalize x.1.extend x.2 values = o at ho hanswer
      generalize y.1.extend y.2 values = p at ho hanswer
      obtain ⟨h, m, events, answer⟩ := o
      obtain ⟨k, m', events', answer'⟩ := p
      dsimp only at hanswer ⊢
      cases hanswer with
      | error failure =>
          exact ⟨2, Nat.le_refl 2, ho.mint_eq.trans hm, ho.mint_eq'.trans hm', .error _, ho.events,
            rfl, .none, nofun, nofun⟩
      | ok hdone =>
          refine ⟨2, Nat.le_refl 2, ho.mint_eq.trans hm, ho.mint_eq'.trans hm', .ok (.number _ _),
            ho.events, rfl, ?_, nofun, nofun⟩
          dsimp only [Command.made, Option.bind_some]
          rw [heap?_of_push rfl, if_pos rfl, heap?_of_push rfl, if_pos rfl]
          exact .some ho.heap

end World

end TrackedHeap
