import Mathlib.Logic.Equiv.Fintype
import TrackedHeap.Proofs.World.Programs

/-!
# TrackedHeap.Proofs.World.Interleaving

**The order in which heaps take turns is not seen**, but in the tokens.

All heaps of a world draw from one mint, so another order of turns gives them other tokens. Two
plays of one program are compared at any two times at which a heap has had the same number of turns:
it is then in the same state in both but for its tokens (`Play.InTune`). The turns of other heaps do
not touch it, and its own turn keeps that, whatever the mints are (`World.exec_renamed`). Which
token stands for which is known beforehand: the ones that the same turn has drawn as its first, or
as its second, in the two plays (`Play.Twins`). No token is drawn twice, so this can be made a
permutation.
-/

namespace TrackedHeap

variable {ι α : Type} {R S : Token → Token → Prop}

/-! ### Renamings -/

instance : Finite Token :=
  Finite.of_injective (fun t : Token => t.val.toFin) fun t u htu => by
    obtain ⟨t⟩ := t
    obtain ⟨u⟩ := u
    exact congrArg Token.mk (UInt64.toFin_inj.mp htu)

/-- The token that goes with one. -/
noncomputable def partner (t : { t // ∃ t', R t t' }) : { t' // ∃ t, R t t' } :=
  ⟨t.2.choose, t.1, t.2.choose_spec⟩

namespace Matching

theorem bijective_partner (hR : Matching R) : Function.Bijective (partner (R := R)) := by
  constructor
  · intro t u htu
    have hsame : t.2.choose = u.2.choose := congrArg Subtype.val htu
    exact Subtype.ext ((hR _ _ _ _ t.2.choose_spec u.2.choose_spec).mpr hsame)
  · rintro ⟨t', t, htt'⟩
    have hgoes : ∃ t', R t t' := ⟨t', htt'⟩
    exact ⟨⟨t, hgoes⟩, Subtype.ext ((hR _ _ _ _ hgoes.choose_spec htt').mp rfl)⟩

/-- A matching is part of a permutation. -/
theorem exists_perm (hR : Matching R) : ∃ ρ : Equiv.Perm Token, ∀ t t', R t t' → ρ t = t' := by
  classical
  refine ⟨(Equiv.ofBijective partner hR.bijective_partner).extendSubtype, fun t t' htt' => ?_⟩
  have hgoes : ∃ t', R t t' := ⟨t', htt'⟩
  rw [Equiv.extendSubtype_apply_of_mem _ t hgoes]
  exact (hR _ _ _ _ hgoes.choose_spec htt').mp rfl

end Matching

/-! ### Two plays of one program -/

/-- Two deeds with the same outcome but for tokens, and for the numbers that heaps and cursors go
by. -/
structure Deed.Renamed (R : Token → Token → Prop) (d e : Deed α) : Prop where
  answer : Agree (Reply.Renamed R) d.after.answer e.after.answer
  events : List.Forall₂ (Event.Renamed R) d.after.events e.after.events
  opened_iff : d.opened.isSome = e.opened.isSome
  drawn_eq : d.drawn = e.drawn

theorem Deed.Renamed.mono (hRS : ∀ t t', R t t' → S t t') {d e : Deed α} (hde : d.Renamed R e) :
    d.Renamed S e :=
  { hde with
    answer := hde.answer.mono fun _ _ h => h.mono hRS
    events := hde.events.imp fun _ _ h => h.mono hRS }

/-- If the one was answered with a handle, so was the other. -/
theorem Deed.Renamed.issued {d e : Deed α} (hde : d.Renamed R e) {x : Handle}
    (hx : d.issued = some x) : ∃ y, e.issued = some y ∧ x.Renamed R y := by
  have hanswer := hde.answer
  rw [World.handedBy_eq_some.mp hx] at hanswer
  generalize hy : e.after.answer = answer at hanswer
  cases hanswer with
  | ok h =>
      cases h with
      | handle h => exact ⟨_, World.handedBy_eq_some.mpr hy, h⟩

namespace Log

/-- The cursors that the same task has made in two logs. -/
def cursorPairs (log log' : Log ι α) (a : ι) : List (Nat × Nat) :=
  (List.zipWith (fun d e => pairOf d.opened e.opened) (log a) (log' a)).flatten

variable {log log' : Log ι α} {a : ι}

theorem mem_cursorPairs {r : Nat × Nat} : r ∈ log.cursorPairs log' a ↔
    ∃ i, log.cursor a i = some r.1 ∧ log'.cursor a i = some r.2 := by
  simp only [cursor, Option.bind_eq_some_iff]
  rw [cursorPairs, List.mem_flatten]
  constructor
  · rintro ⟨made, hmade, hr⟩
    obtain ⟨i, hi⟩ := List.mem_iff_getElem?.mp hmade
    obtain ⟨d, e, hd, he, rfl⟩ := List.getElem?_zipWith_eq_some.mp hi
    obtain ⟨hr, hr'⟩ := mem_pairOf.mp hr
    exact ⟨i, ⟨d, hd, hr⟩, e, he, hr'⟩
  · rintro ⟨i, ⟨d, hd, hr⟩, e, he, hr'⟩
    have hi := (List.getElem?_zipWith_eq_some
      (f := fun d e : Deed α => pairOf d.opened e.opened)).mpr ⟨d, e, hd, he, rfl⟩
    exact ⟨_, List.mem_of_getElem? hi, mem_pairOf.mpr ⟨hr, hr'⟩⟩

theorem cursorPairs_write [DecidableEq ι] (hlength : (log a).length = (log' a).length)
    (d e : Deed α) : (log.write a d).cursorPairs (log'.write a e) a =
      log.cursorPairs log' a ++ pairOf d.opened e.opened := by
  unfold cursorPairs
  rw [write_same, write_same, List.zipWith_append hlength, List.flatten_append]
  simp

end Log

namespace Play

/-- **A heap is in tune** in two plays: as much was done for it in both, with the same outcome, and
it is in the same state, but for the tokens; so are its cursors. -/
structure InTune (R : Token → Token → Prop) (a : ι) (p q : Play ι α) : Prop where
  deeds : List.Forall₂ (Deed.Renamed R) (p.log a) (q.log a)
  number_iff : (p.log.number a).isSome = (q.log.number a).isSome
  heap : Option.Rel (Heap.Renamed R) (p.heap? a) (q.heap? a)
  cursors : CursorsPaired (Cursor.Renamed R) (p.log.cursorPairs q.log a) p.world.cursors
    q.world.cursors

/-- The handles of one play go with those of another, once they are issued there too. -/
def Acquainted (R : Token → Token → Prop) (p q : Play ι α) : Prop :=
  ∀ issuer x, p.log.handle issuer = some x → issuer.2 < (q.log issuer.1).length →
    ∃ y, q.log.handle issuer = some y ∧ x.Renamed R y

variable {p q p' q' : Play ι α} {a b : ι}

theorem inTune_empty (R : Token → Token → Prop) (a : ι) :
    InTune R a ({} : Play ι α) ({} : Play ι α) :=
  ⟨.nil, rfl, .none, nofun, nofun⟩

namespace InTune

theorem mono (hRS : ∀ t t', R t t' → S t t') (ht : InTune R a p q) : InTune S a p q where
  deeds := ht.deeds.imp fun _ _ h => h.mono hRS
  number_iff := ht.number_iff
  heap := Heap.renamed?_mono hRS ht.heap
  cursors := ht.cursors.imp fun _ _ h => h.mono hRS

/-- What leaves a heap alone leaves it in tune. -/
theorem kept (ht : InTune R a p q) (hp : p.Spares a p') (hq : q.Spares a q') :
    InTune R a p' q' := by
  have hpairs : p'.log.cursorPairs q'.log a = p.log.cursorPairs q.log a := by
    rw [Log.cursorPairs, hp.log_eq, hq.log_eq, Log.cursorPairs]
  refine ⟨?_, ?_, ?_, ?_⟩
  · rw [hp.log_eq, hq.log_eq]
    exact ht.deeds
  · rw [Log.number, hp.log_eq, Log.number, hq.log_eq]
    exact ht.number_iff
  · rw [hp.heap?_eq, hq.heap?_eq]
    exact ht.heap
  · rw [hpairs]
    refine ht.cursors.kept (fun r hr c hc => ?_) fun r hr c hc => ?_ <;>
      obtain ⟨i, hi, hi'⟩ := Log.mem_cursorPairs.mp hr
    · exact hp.cursor_kept i _ c hi hc
    · exact hq.cursor_kept i _ c hi' hc

/-- Deeds with the same number. -/
theorem deed (ht : InTune R a p q) {i : Nat} {d : Deed α} (hd : (p.log a)[i]? = some d) :
    ∃ e, (q.log a)[i]? = some e ∧ d.Renamed R e := by
  obtain ⟨hi, rfl⟩ := List.getElem?_eq_some_iff.mp hd
  have hi' : i < (q.log a).length := ht.deeds.length_eq ▸ hi
  exact ⟨_, List.getElem?_eq_getElem hi', ht.deeds.get hi hi'⟩

/-- A task that has made a cursor in one play has made one in the other. -/
theorem exists_cursor (ht : InTune R a p q) {i c : Nat} (hc : p.log.cursor a i = some c) :
    ∃ c', q.log.cursor a i = some c' ∧ (c, c') ∈ p.log.cursorPairs q.log a := by
  obtain ⟨d, hd, ho⟩ := Option.bind_eq_some_iff.mp hc
  obtain ⟨e, he, hde⟩ := ht.deed hd
  obtain ⟨c', hc'⟩ := Option.isSome_iff_exists.mp (by rw [← hde.opened_iff, ho]; rfl)
  have hq : q.log.cursor a i = some c' := Option.bind_eq_some_iff.mpr ⟨e, he, hc'⟩
  exact ⟨c', hq, Log.mem_cursorPairs.mpr ⟨i, hc, hq⟩⟩

theorem exists_number (ht : InTune R a p q) {n : Nat} (hn : p.log.number a = some n) :
    ∃ n', q.log.number a = some n' :=
  Option.isSome_iff_exists.mp (by rw [← ht.number_iff, hn]; rfl)

/-- If one more deed has drawn as many tokens in both plays, then all have so far. -/
theorem drawn_isPrefix (ht : InTune R a p q) {d e : Deed α} (hde : d.drawn = e.drawn)
    {deeds : List (Deed α)} (hpast : p.log a ++ [d] <+: deeds) :
    (q.log a ++ [e]).map Deed.drawn <+: deeds.map Deed.drawn := by
  have hsame : (p.log a).map Deed.drawn = (q.log a).map Deed.drawn := by
    rw [← List.forall₂_eq_eq_eq, List.forall₂_map_left_iff, List.forall₂_map_right_iff]
    exact ht.deeds.imp fun _ _ h => h.drawn_eq
  have hmap := hpast.map Deed.drawn
  rwa [List.map_append, hsame, List.map_singleton, hde, ← List.map_singleton,
    ← List.map_append] at hmap

end InTune

/-- A request that is made with a handle in one play can be made in the other. -/
theorem Acquainted.exists_withHandle (hknown : Acquainted R p q) {op op₁ : Op α}
    {issuer : Option (ι × Nat)} (hop : op.withHandle (issuer.bind p.log.handle) = some op₁)
    (hissued : ∀ task, (Task.act op issuer).takes = some task → task.2 < (q.log task.1).length) :
    ∃ op₂, op.withHandle (issuer.bind q.log.handle) = some op₂ ∧ op₁.Renamed R op₂ := by
  have htakes : ∀ (make : Handle → Op α), (issuer.bind p.log.handle).map make = some op₁ →
      (∀ task, issuer = some task → task.2 < (q.log task.1).length) →
      (∀ x y, x.Renamed R y → (make x).Renamed R (make y)) →
      ∃ op₂, (issuer.bind q.log.handle).map make = some op₂ ∧ op₁.Renamed R op₂ := by
    intro make hmake hissued hrenamed
    obtain ⟨x, hx, rfl⟩ := Option.map_eq_some_iff.mp hmake
    obtain ⟨task, rfl, hx⟩ := Option.bind_eq_some_iff.mp hx
    obtain ⟨y, hy, hxy⟩ := hknown task x hx (hissued task rfl)
    refine ⟨make y, ?_, hrenamed x y hxy⟩
    rw [Option.bind_some, hy, Option.map_some]
  cases op with
  | release _ => exact htakes _ hop hissued fun _ _ => .release
  | insertWith _ value => exact htakes _ hop hissued fun _ _ h => .insertWith h value
  | remove _ => exact htakes _ hop hissued fun _ _ => .remove
  | update _ value => exact htakes _ hop hissued fun _ _ h => .update h value
  | _ =>
      cases hop
      exact ⟨_, rfl, by constructor⟩

variable [DecidableEq ι] [BEq α] {program : ι → List (Task ι α)} {order order' : List ι}

/-- The turn that the first play takes can be taken in the second. It draws equally many tokens in
both, and leaves the same but for them. -/
def Follows (R : Token → Token → Prop) (a : ι) (p q : Play ι α) (task : Task ι α)
    (command : Command α) (s : Step α (Reply α)) : Prop :=
  ∃ command' t, task.command q.log a = some command' ∧ q.world.exec command' = some t ∧
    (command.opened s.answer).isSome = (command'.opened t.answer).isSome ∧
    s.Draws R p.world.mint q.world.mint
      ((p.log.write a ⟨p.world, command, s⟩).number a)
      ((q.log.write a ⟨q.world, command', t⟩).number a)
      (p.log.cursorPairs q.log a ++ pairOf (command.opened s.answer) (command'.opened t.answer)) t

section Turn

variable {task : Task ι α} {command : Command α} {s : Step α (Reply α)}

/-- A command to a heap that is there. -/
theorem InTune.follows_of_corresponds (hR : Matching R) (ht : InTune R a p q) {n n' : Nat}
    (hn : p.log.number a = some n) (hn' : q.log.number a = some n') {command' : Command α}
    (hm' : task.Means q.log a command')
    (hc : command.Corresponds (Op.Renamed R) (p.log.cursorPairs q.log a) n n' command')
    (hx : p.world.exec command = some s) : Follows R a p q task command s := by
  have hheap := ht.heap
  rw [heap?, heap?, hn, hn'] at hheap
  obtain ⟨t, hx', hst⟩ := World.exec_renamed hR hc hheap ht.cursors hx
  refine ⟨command', t, hm'.command_eq, hx', ?_, ?_⟩
  · obtain ⟨l, -, -, -, hst⟩ := hst
    exact hc.opened_iff hst.answer
  · rw [Log.number_write_of_some hn, Log.number_write_of_some hn']
    exact hst

/-- **The turn of a heap that is in tune** in two plays. -/
theorem InTune.follows (hR : Matching R) (ht : InTune R a p q) (hs : p.Settled)
    (hknown : Acquainted R p q)
    (hissued : ∀ issuer, task.takes = some issuer → issuer.2 < (q.log issuer.1).length)
    (hm : task.Means p.log a command) (hx : p.world.exec command = some s) :
    Follows R a p q task command s := by
  have hmade : p.log a = [] → q.log a = [] ∧ p.log.cursorPairs q.log a = [] := by
    intro hnil
    refine ⟨List.length_eq_zero_iff.mp (by rw [← ht.deeds.length_eq, hnil]; rfl), ?_⟩
    rw [Log.cursorPairs, hnil]
    rfl
  cases hm with
  | create hnil =>
      obtain ⟨hnil', hpairs⟩ := hmade hnil
      cases hx
      refine ⟨_, _, (Task.Means.create hnil').command_eq, rfl, rfl, ?_⟩
      rw [Log.number_write, if_pos ⟨rfl, hnil⟩, Log.number_write, if_pos ⟨rfl, hnil'⟩, hpairs]
      exact World.create_renamed R ..
  | collect hnil =>
      obtain ⟨hnil', hpairs⟩ := hmade hnil
      cases hx
      refine ⟨_, _, (Task.Means.collect hnil').command_eq, rfl, rfl, ?_⟩
      rw [Log.number_write, if_pos ⟨rfl, hnil⟩, Log.number_write, if_pos ⟨rfl, hnil'⟩, hpairs]
      exact World.collect_renamed R ..
  | act hn hop =>
      obtain ⟨n', hn'⟩ := ht.exists_number hn
      obtain ⟨op', hop', hrenamed⟩ := hknown.exists_withHandle hop hissued
      exact ht.follows_of_corresponds hR hn hn' (.act hn' hop') (.act hrenamed) hx
  | consume hn =>
      obtain ⟨n', hn'⟩ := ht.exists_number hn
      exact ht.follows_of_corresponds hR hn hn' (.consume hn') .consume hx
  | drain hn =>
      obtain ⟨n', hn'⟩ := ht.exists_number hn
      exact ht.follows_of_corresponds hR hn hn' (.drain hn') .drain hx
  | openCursor hn =>
      obtain ⟨n', hn'⟩ := ht.exists_number hn
      exact ht.follows_of_corresponds hR hn hn' (.openCursor hn') .openCursor hx
  | copyCursor hc =>
      obtain ⟨n, hn⟩ := hs.number_of_cursor a _ _ hc
      obtain ⟨n', hn'⟩ := ht.exists_number hn
      obtain ⟨c', hc', hpair⟩ := ht.exists_cursor hc
      exact ht.follows_of_corresponds hR hn hn' (.copyCursor hc') (.copyCursor hpair) hx
  | step hc hn =>
      obtain ⟨n', hn'⟩ := ht.exists_number hn
      obtain ⟨c', hc', hpair⟩ := ht.exists_cursor hc
      exact ht.follows_of_corresponds hR hn hn' (.step hc' hn') (.step hpair) hx
  | stepToEnd hc hn =>
      obtain ⟨n', hn'⟩ := ht.exists_number hn
      obtain ⟨c', hc', hpair⟩ := ht.exists_cursor hc
      exact ht.follows_of_corresponds hR hn hn' (.stepToEnd hc' hn') (.stepToEnd hpair) hx
  | restart hc hn =>
      obtain ⟨n', hn'⟩ := ht.exists_number hn
      obtain ⟨c', hc', hpair⟩ := ht.exists_cursor hc
      exact ht.follows_of_corresponds hR hn hn' (.restart hc' hn') (.restart hpair) hx

/-- **A heap stays in tune in its own turn**, which draws equally many tokens in both plays, if
these go together. -/
theorem InTune.turn (hR : Matching R) (ht : InTune R a p q) (hs : p.Settled)
    (hknown : Acquainted R p q)
    (hissued : ∀ task issuer, (program a)[(p.log a).length]? = some task →
      task.takes = some issuer → issuer.2 < (q.log issuer.1).length)
    (hn : p.next program a = some p') : ∃ q', q.next program a = some q' ∧
      (∃ d e, p'.log = p.log.write a d ∧ q'.log = q.log.write a e ∧ d.drawn = e.drawn) ∧
      ((∀ i j t t', p'.Drew a i j t → q'.Drew a i j t' → R t t') → InTune R a p' q') := by
  obtain ⟨task, command, s, htask, hc, hx, rfl⟩ := next_eq_some.mp hn
  have hlength := ht.deeds.length_eq
  obtain ⟨command', t, hc', hx', hopened, l, hl, hm, hm', hst⟩ :=
    ht.follows hR hs hknown (hissued task · htask) (Task.means_of_command hc) hx
  have hdrawn := Deed.drawn_of_skip (d := ⟨p.world, command, s⟩) hm (by omega)
  have hdrawn' := Deed.drawn_of_skip (d := ⟨q.world, command', t⟩) hm' (by omega)
  refine ⟨_, next_eq_some.mpr ⟨task, command', t, hlength ▸ htask, hc', hx', rfl⟩,
    ⟨_, _, rfl, rfl, hdrawn.trans hdrawn'.symm⟩, fun hdrew => ?_⟩
  -- What was drawn in the two turns goes together, so nothing is left of the mints.
  have hknew : ∀ x y, Drawing R p.world.mint q.world.mint l x y → R x y := by
    rintro x y (hxy | ⟨j, hj, rfl, rfl⟩)
    · exact hxy
    · refine hdrew (p.log a).length j _ _ ⟨⟨p.world, command, s⟩, ?_, hdrawn.symm ▸ hj, rfl⟩
        ⟨⟨q.world, command', t⟩, ?_, hdrawn'.symm ▸ hj, rfl⟩ <;> dsimp only
      · rw [Log.write_same, List.getElem?_concat_length]
      · rw [Log.write_same, hlength, List.getElem?_concat_length]
  have hst := hst.mono hknew
  refine ⟨?_, hst.number_iff, hst.heap, ?_⟩
  · dsimp only
    rw [Log.write_same, Log.write_same]
    exact List.rel_append ht.deeds
      (.cons ⟨hst.answer, hst.events, hopened, hdrawn.trans hdrawn'.symm⟩ .nil)
  · dsimp only
    rw [Log.cursorPairs_write hlength]
    exact hst.cursors

end Turn

/-! ### Any two times -/

/-- Handles go together if heaps were in tune when they were issued. That may have been at different
times in the two plays, but in both it is past. -/
theorem acquainted_of_past (hp : Past program p' order p) (hq : Past program q' order' q)
    (hbefore : ∀ c turns turns' p₀ q₀, turns.length ≤ order.length →
      turns'.length ≤ order'.length → Past program p' turns p₀ → Past program q' turns' q₀ →
      turns.count c = turns'.count c → InTune R c p₀ q₀) : Acquainted R p q := by
  rintro ⟨c, i⟩ x hx hi
  obtain ⟨d, hd, hx⟩ := Option.bind_eq_some_iff.mp hx
  dsimp only at hd hi
  obtain ⟨turns, p₀, hle, hp₀, hlength⟩ :=
    hp.exists_length c (Nat.succ_le_of_lt (List.getElem?_eq_some_iff.mp hd).1)
  obtain ⟨turns', q₀, hle', hq₀, hlength'⟩ := hq.exists_length c (Nat.succ_le_of_lt hi)
  have hcount : turns.count c = turns'.count c := by
    rw [← length_log hp₀.run_eq, ← length_log hq₀.run_eq, hlength, hlength']
  have hd₀ : (p₀.log c)[i]? = some (p₀.log c)[i] := List.getElem?_eq_getElem (by omega)
  obtain ⟨e, he₀, hde⟩ := (hbefore c turns turns' p₀ q₀ hle hle' hp₀ hq₀ hcount).deed hd₀
  rw [Option.some.inj ((hp₀.deed hd₀).symm.trans (hp.deed hd))] at hde
  have he : (q.log c)[i]? = some e := by
    have he' := List.getElem?_eq_getElem hi
    rw [he', ← hq.deed he', hq₀.deed he₀]
  obtain ⟨y, hy, hxy⟩ := hde.issued hx
  exact ⟨y, Option.bind_eq_some_iff.mpr ⟨e, he, hy⟩, hxy⟩

omit [BEq α] in
/-- How the turns end: with another heap's, or there are none, or with the heap's own. -/
theorem turns_cases (order : List ι) (a : ι) :
    (∃ turns b, order = turns ++ [b] ∧ a ≠ b) ∨ order = [] ∨ ∃ turns, order = turns ++ [a] := by
  rcases List.eq_nil_or_concat order with rfl | ⟨turns, b, rfl⟩
  · exact Or.inr (Or.inl rfl)
  · rw [List.concat_eq_append]
    by_cases hab : a = b
    · exact Or.inr (Or.inr ⟨turns, by rw [hab]⟩)
    · exact Or.inl ⟨turns, b, rfl, hab⟩

/-- **Any two times** at which a heap has had the same number of turns. The induction is on the
turns of both plays together. A last turn of another heap is left out in either play, and then the
last turns of both are the heap's own. -/
theorem inTune_of_past (hR : Matching R)
    (hdrew : ∀ a i j t t', p'.Drew a i j t → q'.Drew a i j t' → R t t')
    (hp : Past program p' order p) (hq : Past program q' order' q)
    (hcount : order.count a = order'.count a) : InTune R a p q := by
  induction hsize : order.length + order'.length using Nat.strong_induction_on
    generalizing order order' p q a with
  | _ size ih =>
      have hleft : ∀ turns b, order = turns ++ [b] → a ≠ b → InTune R a p q := by
        rintro turns b rfl hab
        obtain ⟨p₁, hp₁, hn⟩ := hp.back
        rw [count_concat_of_ne turns hab] at hcount
        simp only [List.length_append, List.length_singleton] at hsize
        have ht := ih _ (by omega) hp₁ hq hcount rfl
        exact ht.kept (next_other hp₁.run_eq hn hab) (.refl a q)
      have hright : ∀ turns b, order' = turns ++ [b] → a ≠ b → InTune R a p q := by
        rintro turns b rfl hab
        obtain ⟨q₁, hq₁, hn⟩ := hq.back
        rw [count_concat_of_ne turns hab] at hcount
        simp only [List.length_append, List.length_singleton] at hsize
        have ht := ih _ (by omega) hp hq₁ hcount rfl
        exact ht.kept (.refl a p) (next_other hq₁.run_eq hn hab)
      rcases turns_cases order a with ⟨turns, b, h, hab⟩ | rfl | ⟨turns, rfl⟩
      · exact hleft turns b h hab
      · rcases turns_cases order' a with ⟨turns, b, h, hab⟩ | rfl | ⟨turns, rfl⟩
        · exact hright turns b h hab
        · cases hp.run_eq
          cases hq.run_eq
          exact inTune_empty R a
        · simp at hcount
      · rcases turns_cases order' a with ⟨turns', b, h, hab⟩ | rfl | ⟨turns', rfl⟩
        · exact hright turns' b h hab
        · simp at hcount
        · obtain ⟨p₁, hp₁, hn⟩ := hp.back
          obtain ⟨q₁, hq₁, hn'⟩ := hq.back
          simp only [List.count_append, List.count_singleton_self,
            Nat.add_right_cancel_iff] at hcount
          simp only [List.length_append, List.length_singleton] at hsize
          have ht := ih _ (by omega) hp₁ hq₁ hcount rfl
          have hknown : Acquainted R p₁ q₁ :=
            acquainted_of_past hp₁ hq₁ fun c turns turns' p₀ q₀ hle hle' hp₀ hq₀ hcount₀ =>
              ih _ (by omega) hp₀ hq₀ hcount₀ rfl
          obtain ⟨q₂, hn₂, -, htune⟩ := ht.turn hR (settled_of_run hp₁.run_eq) hknown
            (fun task issuer htask => lt_length_of_next hn' (ht.deeds.length_eq ▸ htask)) hn
          cases hn'.symm.trans hn₂
          refine htune ?_
          rintro i j x y ⟨d, hd, hj, rfl⟩ ⟨e, he, hj', rfl⟩
          exact hdrew a i j _ _ ⟨d, hp.deed hd, hj, rfl⟩ ⟨e, hq.deed he, hj', rfl⟩

/-! ### The tokens of two plays -/

/-- Two tokens that the same turn has drawn at the same point in two plays. -/
def Twins (p q : Play ι α) (t t' : Token) : Prop := ∃ a i j, p.Drew a i j t ∧ q.Drew a i j t'

omit [DecidableEq ι] [BEq α] in
theorem Drew.unique {i j : Nat} {t u : Token} (ht : p.Drew a i j t) (hu : p.Drew a i j u) :
    t = u := by
  obtain ⟨d, hd, -, rfl⟩ := ht
  obtain ⟨e, he, -, rfl⟩ := hu
  cases hd.symm.trans he
  rfl

omit [DecidableEq ι] [BEq α] in
/-- No token has two twins. -/
theorem matching_twins {m n : Nat} (hp : p.Ledger m) (hq : q.Ledger n) : Matching (Twins p q) := by
  rintro t t' u u' ⟨a, i, j, ht, ht'⟩ ⟨b, i', j', hu, hu'⟩
  constructor
  · rintro rfl
    obtain ⟨rfl, rfl, rfl⟩ := hp.inj a b i i' j j' t ht hu
    exact ht'.unique hu'
  · rintro rfl
    obtain ⟨rfl, rfl, rfl⟩ := hq.inj a b i i' j j' t' ht' hu'
    exact ht.unique hu

/-! ### Another order of turns -/

/-- **Another order of turns** can be taken as well, if no task takes a handle too early; and every
turn draws as many tokens as before. -/
theorem exists_run (hp : run program {} order = some p)
    (hlt : World.minted {} p.commands < 0x10000000000000000)
    (hcount : ∀ a, order'.count a ≤ order.count a) (hready : Ready program order') :
    ∃ q, run program {} order' = some q ∧
      ∀ a, (q.log a).map Deed.drawn <+: (p.log a).map Deed.drawn := by
  induction order' using List.reverseRecOn with
  | nil => exact ⟨{}, rfl, fun _ => List.nil_prefix⟩
  | append_singleton turns a ih =>
      obtain ⟨q, hq, hdrawn⟩ := ih (fun b => Nat.le_trans
        (by rw [List.count_append]; exact Nat.le_add_right ..) (hcount b)) hready.of_append
      -- No more tokens were drawn so far than in the first play, so none was drawn twice.
      have hR := matching_twins (ledger_of_run hp hlt)
        (ledger_of_run hq (Nat.lt_of_le_of_lt (minted_le hp hq hdrawn) hlt))
      have hnext : turns.count a < (p.log a).length := by
        rw [length_log hp]
        exact Nat.lt_of_lt_of_le (by simp) (hcount a)
      have hend : ∀ {r : Play ι α} {ts}, run program {} ts = some r → Past program r ts r :=
        fun hr => ⟨hr, [], rfl⟩
      obtain ⟨turns₁, p₁, p₂, -, hp₁, hn, hp₂, hlength⟩ := (hend hp).exists_turn hnext
      have hdrew : ∀ b i j t t', p.Drew b i j t → q.Drew b i j t' → Twins p q t t' :=
        fun b i j _ _ ht ht' => ⟨b, i, j, ht, ht'⟩
      have ht : InTune (Twins p q) a p₁ q := inTune_of_past hR hdrew hp₁ (hend hq)
        (by rw [← length_log hp₁.run_eq, hlength])
      have hknown : Acquainted (Twins p q) p₁ q :=
        acquainted_of_past hp₁ (hend hq) fun c turns turns' p₀ q₀ _ _ hp₀ hq₀ hcount₀ =>
          inTune_of_past hR hdrew hp₀ hq₀ hcount₀
      obtain ⟨q', hn', ⟨d, e, hd, he, hde⟩, -⟩ := ht.turn hR (settled_of_run hp₁.run_eq) hknown
        (fun task issuer htask htakes => by
          rw [length_log hq]
          exact hready.last (hlength ▸ htask) htakes) hn
      refine ⟨q', run_concat_eq_some.mpr ⟨q, hq, hn'⟩, fun b => ?_⟩
      by_cases hba : b = a
      · subst hba
        have hpast := hp₂.log_isPrefix b
        rw [hd, Log.write_same] at hpast
        rw [he, Log.write_same]
        exact ht.drawn_isPrefix hde hpast
      · rw [he, Log.write_of_ne _ hba]
        exact hdrawn b

/-- **The order in which heaps take turns is not seen.** Let the turns of a play be taken in another
order, in which no task takes a handle before it is issued. This play goes through as well, and one
renaming of all tokens makes the two the same: at any two times at which a heap has had the same
number of turns, the same was answered and reported in all of them, and the heap and its cursors are
in the same state, from which the same is read. -/
theorem turns_unseen (hp : run program {} order = some p)
    (hlt : World.minted {} p.commands < 0x10000000000000000) (horder : order'.Perm order)
    (hready : Ready program order') :
    ∃ q, run program {} order' = some q ∧ ∃ ρ : Equiv.Perm Token, ∀ i j, ∃ p₁ q₁,
      run program {} (order.take i) = some p₁ ∧ run program {} (order'.take j) = some q₁ ∧
      ∀ a, (order.take i).count a = (order'.take j).count a →
        InTune (ρ · = ·) a p₁ q₁ ∧
        ∀ h k, p₁.heap? a = some h → q₁.heap? a = some k → h.ReadsSame k ∧
          ∀ x y : Handle, x.Renamed (ρ · = ·) y →
            k.get y = h.get x ∧ k.containsHandle y = h.containsHandle x := by
  obtain ⟨q, hq, hdrawn⟩ := exists_run hp hlt (fun a => (horder.count_eq a).le) hready
  have hR := matching_twins (ledger_of_run hp hlt)
    (ledger_of_run hq (Nat.lt_of_le_of_lt (minted_le hp hq hdrawn) hlt))
  obtain ⟨ρ, hρ⟩ := hR.exists_perm
  have hρR : Matching (ρ · = ·) := by
    rintro t _ u _ rfl rfl
    exact ρ.injective.eq_iff.symm
  refine ⟨q, hq, ρ, fun i j => ?_⟩
  obtain ⟨p₁, hp₁⟩ := exists_past hp i
  obtain ⟨q₁, hq₁⟩ := exists_past hq j
  refine ⟨p₁, q₁, hp₁.run_eq, hq₁.run_eq, fun a hcount => ?_⟩
  have ht : InTune (ρ · = ·) a p₁ q₁ :=
    (inTune_of_past hR (fun b m n _ _ ht ht' => ⟨b, m, n, ht, ht'⟩) hp₁ hq₁ hcount).mono hρ
  refine ⟨ht, fun h k hh hk => ?_⟩
  obtain ⟨k', hk', hheap⟩ := World.exists_of_rel ht.heap hh
  cases hk.symm.trans hk'
  exact ⟨hheap.readsSame, fun x y hxy =>
    ⟨hheap.get_eq hρR hxy, hheap.containsHandle_eq hρR hxy⟩⟩

/-- A program of two heaps. The one stores an element and takes it out, by which it comes to draw a
token, and stores another; the other asks meanwhile for what the first handle of the one names. -/
def exchange : Bool → List (Task Bool Nat)
  | true => [.create {} .natural, .act (.insert 5) none, .act .pop none, .act (.insert 7) none]
  | false => [.create {} .natural, .act (.remove ⟨⟨0⟩, 0, 0⟩) (some (true, 1)),
      .act (.insert 3) none]

/-- Two orders of its turns, in which the last handle of the first heap has another token. -/
theorem turns_unseen_of_exchange : ∃ (p q : Play Bool Nat) (ρ : Equiv.Perm Token),
    run exchange {} [true, true, true, true, false, false, false] = some p ∧
    run exchange {} [false, true, true, false, true, false, true] = some q ∧
    (∀ a, InTune (ρ · = ·) a p q) ∧ p.log.handle (true, 3) = some ⟨⟨3⟩, 0, 0⟩ ∧
    q.log.handle (true, 3) = some ⟨⟨5⟩, 0, 0⟩ := by
  obtain ⟨p, hp, hlt, hx⟩ : ∃ p,
      run exchange {} [true, true, true, true, false, false, false] = some p ∧
      World.minted {} p.commands < 0x10000000000000000 ∧
      p.log.handle (true, 3) = some ⟨⟨3⟩, 0, 0⟩ := by
    have hany : (run exchange {} [true, true, true, true, false, false, false]).any
        (fun p => World.minted {} p.commands < 0x10000000000000000 ∧
          p.log.handle (true, 3) = some ⟨⟨3⟩, 0, 0⟩) = true := by decide +kernel
    simpa [Option.any_eq_true] using hany
  have hy : (run exchange {} [false, true, true, false, true, false, true]).any
      (fun q => q.log.handle (true, 3) = some ⟨⟨5⟩, 0, 0⟩) = true := by decide +kernel
  have hready : Ready exchange [false, true, true, false, true, false, true] := by
    unfold Ready
    decide
  obtain ⟨q, hq, ρ, hsame⟩ := turns_unseen hp hlt (by decide) hready
  obtain ⟨p₁, q₁, hp₁, hq₁, ht⟩ := hsame 7 7
  cases hp.symm.trans hp₁
  cases hq.symm.trans hq₁
  refine ⟨p, q, ρ, hp, hq, fun a => (ht a (by cases a <;> rfl)).1, hx, ?_⟩
  rw [hq] at hy
  simpa using hy

end Play

end TrackedHeap
