import TrackedHeap.Proofs.World.Chronicle

/-!
# TrackedHeap.Proofs.World.Tokens

**Tokens mean one thing** over a whole run: a token is the identity of one heap, or the owner
of one heap during one period of its registry, and never anything else before or after.

All tokens come from one supply, so they are told apart by the number of tokens drawn before
them, for as long as the supply has not come round. Whatever a command puts into use has a
greater number than what was in use before (`Later`). So a token that is found in use at two
times has been in use in between, and for the same thing.
-/

namespace TrackedHeap

variable {α : Type}

/-! ### The supply of tokens -/

namespace Mint

/-- The supply stands where the number of tokens drawn says. -/
theorem next_eq_ofNat_add {m : Mint} (m' : Mint) {drawn : Nat}
    (h : m.next.val = UInt64.ofNat (drawn + 1)) :
    m'.next.val = UInt64.ofNat (drawn + (m'.next.val - m.next.val).toNat + 1) := by
  rw [Nat.add_right_comm, UInt64.ofNat_add, ← h, UInt64.ofNat_toNat, UInt64.add_comm,
    UInt64.sub_add_cancel]

theorem distance_draw (m : Mint) : (m.draw.2.next.val - m.next.val).toNat = 1 := by
  rw [draw_snd_next, Token.succ, UInt64.add_comm, UInt64.add_sub_cancel]
  rfl

theorem distance_draw_draw (m : Mint) : (m.draw.2.draw.2.next.val - m.next.val).toNat = 2 := by
  rw [draw_snd_next, draw_snd_next, Token.succ, Token.succ, UInt64.add_assoc, UInt64.add_comm,
    UInt64.add_sub_cancel]
  rfl

/-- The number of the next token, unless the supply has come round. -/
theorem toNat_next {m : Mint} {drawn : Nat} (h : m.next.val = UInt64.ofNat (drawn + 1))
    (hlt : drawn + 1 < 0x10000000000000000) : m.next.val.toNat = drawn + 1 := by
  rw [h, UInt64.toNat_ofNat_of_lt' hlt]

/-- The number of the token after it. -/
theorem toNat_next_succ {m : Mint} {drawn : Nat} (h : m.next.val = UInt64.ofNat (drawn + 1))
    (hlt : drawn + 2 < 0x10000000000000000) : m.next.succ.val.toNat = drawn + 2 := by
  rw [Token.succ, h, ← UInt64.ofNat_one, ← UInt64.ofNat_add, UInt64.toNat_ofNat_of_lt' hlt]

end Mint

/-! ### Tokens in use -/

/-- What a heap has a token for. -/
inductive Role
  /-- The heap itself. -/
  | identity
  /-- The handles it issues. -/
  | owner
  deriving DecidableEq, Repr

/-- The token of a heap in a role. -/
def Heap.token (h : Heap α) : Role → Token
  | .identity => h.id
  | .owner => h.owner

/-- A request leaves a heap its tokens, but for an owner newly drawn. -/
theorem Op.Effect.token_cases [BEq α] {h : Heap α} {m : Mint} {op : Op α}
    {o : Outcome α (Reply α)} (he : op.Effect h m o) (hw : h.WellFormed) (role : Role) :
    o.heap.token role = h.token role ∨
      role = .owner ∧ o.heap.token role = m.next ∧ o.mint = m.draw.2 := by
  obtain ⟨h₁, hms, hren⟩ := he.moves hw
  cases role with
  | identity => exact Or.inl (hren.id_eq.trans hms.id_eq)
  | owner =>
      rcases hren.owner_cases with howner | ⟨howner, hdraw⟩
      · exact Or.inl (howner.trans hms.owner_eq)
      · exact Or.inr ⟨rfl, howner, hdraw⟩

namespace World

/-- The token that the heap with number `n` has in a role, if the heap is there. -/
def token? (w : World α) (n : Nat) (role : Role) : Option Token := (w.heap? n).map (·.token role)

/-- A token is in use while some heap has it in some role. -/
def Uses (w : World α) (t : Token) : Prop := ∃ n role, w.token? n role = some t

/-- The tokens of two worlds do not get mixed up: a token that is in use in both belongs to the
same heap in the same role. -/
def Apart (w w' : World α) : Prop :=
  ∀ n k role role' t, w.token? n role = some t → w'.token? k role' = some t →
    n = k ∧ role = role'

/-- A token in use in `w'` was in use in `w` for the same thing, or was drawn after the first
`drawn` tokens. -/
def Later (w : World α) (drawn : Nat) (w' : World α) : Prop :=
  ∀ n role t, w'.token? n role = some t → w.token? n role = some t ∨ drawn < t.val.toNat

/-- The tokens in use are among the first `drawn`, and the supply goes on behind them. -/
structure Supplied (w : World α) (drawn : Nat) : Prop where
  wellFormed : w.WellFormed
  next_eq : w.mint.next.val = UInt64.ofNat (drawn + 1)
  le : ∀ n role t, w.token? n role = some t → t.val.toNat ≤ drawn
  apart : w.Apart w

theorem token?_eq_some_iff {w : World α} {n : Nat} {role : Role} {t : Token} :
    w.token? n role = some t ↔ ∃ h, w.heap? n = some h ∧ h.token role = t :=
  Option.map_eq_some_iff

theorem token?_congr {w w' : World α} {n : Nat} (hh : w'.heap? n = w.heap? n) (role : Role) :
    w'.token? n role = w.token? n role := by
  simp only [token?, hh]

namespace Later

variable {w w' w'' : World α} {drawn drawn' : Nat}

theorem refl (w : World α) (drawn : Nat) : w.Later drawn w := fun _ _ _ => Or.inl

theorem trans (h : w.Later drawn w') (h' : w'.Later drawn' w'') (hle : drawn ≤ drawn') :
    w.Later drawn w'' := by
  intro n role t ht
  rcases h' n role t ht with ht | hlt
  · exact h n role t ht
  · exact Or.inr (Nat.lt_of_le_of_lt hle hlt)

end Later

namespace Supplied

variable {w w' w'' : World α} {drawn drawn' : Nat}

theorem empty : ({} : World α).Supplied 0 :=
  ⟨wellFormed_empty, rfl, by simp [token?, heap?], by simp [Apart, token?, heap?]⟩

/-- The tokens in use at two times are not mixed up. -/
theorem apart_later (hs : w.Supplied drawn) (hl : w.Later drawn w') : w.Apart w' := by
  intro n k role role' t ht ht'
  rcases hl k role' t ht' with hold | hlt
  · exact hs.apart n k role role' t ht hold
  · exact absurd hlt (Nat.not_lt.mpr (hs.le n role t ht))

/-- A token that went out of use does not come back. -/
theorem not_uses_again (hs : w.Supplied drawn) (hl : w'.Later drawn' w'') (hle : drawn ≤ drawn')
    {t : Token} (ht : w.Uses t) (ht' : ¬ w'.Uses t) : ¬ w''.Uses t := by
  obtain ⟨n, role, ht⟩ := ht
  intro hagain
  obtain ⟨k, role', hagain⟩ := hagain
  rcases hl k role' t hagain with hold | hlt
  · exact ht' ⟨k, role', hold⟩
  · have hold := hs.le n role t ht
    omega

/-- A command that changed no heap, though it may have dropped one. -/
theorem of_rest (hs : w.Supplied drawn) (hw : w'.WellFormed)
    (hnext : w'.mint.next.val = UInt64.ofNat (drawn' + 1)) (hle : drawn ≤ drawn')
    (hheap : ∀ n h, w'.heap? n = some h → w.heap? n = some h) :
    w'.Supplied drawn' ∧ w.Later drawn w' := by
  have htoken : ∀ n role t, w'.token? n role = some t → w.token? n role = some t := by
    intro n role t ht
    obtain ⟨h, hn, ht⟩ := token?_eq_some_iff.mp ht
    exact token?_eq_some_iff.mpr ⟨h, hheap n h hn, ht⟩
  refine ⟨⟨hw, hnext, fun n role t ht => ?_, fun n k role role' t ht ht' => ?_⟩,
    fun n role t ht => Or.inl (htoken n role t ht)⟩
  · exact Nat.le_trans (hs.le n role t (htoken n role t ht)) hle
  · exact hs.apart n k role role' t (htoken n role t ht) (htoken k role' t ht')

/-- A command that changed one heap, or made it: the tokens the heap has come to are new ones,
and no two roles share one if both are new. -/
theorem of_change (hs : w.Supplied drawn) (hw : w'.WellFormed) {k : Nat} {h' : Heap α}
    (hnext : w'.mint.next.val = UInt64.ofNat (drawn' + 1)) (hle : drawn ≤ drawn')
    (hheap : ∀ n, w'.heap? n = if n = k then some h' else w.heap? n)
    (hnew : ∀ role, w.token? k role = some (h'.token role) ∨
      drawn < (h'.token role).val.toNat ∧ (h'.token role).val.toNat ≤ drawn')
    (hrole : drawn < h'.id.val.toNat → h'.id ≠ h'.owner) :
    w'.Supplied drawn' ∧ w.Later drawn w' := by
  have hroles : h'.id ≠ h'.owner := by
    rcases hnew .identity with hold | ⟨hlt, -⟩
    · intro heq
      have hsame : h'.token .identity = h'.token .owner := heq
      rw [hsame] at hold
      rcases hnew .owner with hold' | ⟨hlt, -⟩
      · cases (hs.apart k k _ _ _ hold hold').2
      · exact absurd (hs.le k .identity _ hold) (Nat.not_le.mpr hlt)
    · exact hrole hlt
  have htoken : ∀ n role t, w'.token? n role = some t →
      n = k ∧ t = h'.token role ∨ n ≠ k ∧ w.token? n role = some t := by
    intro n role t ht
    by_cases hn : n = k
    · obtain ⟨h, hk, rfl⟩ := token?_eq_some_iff.mp ht
      rw [hheap, if_pos hn] at hk
      cases hk
      exact Or.inl ⟨hn, rfl⟩
    · have hsame : w'.heap? n = w.heap? n := by rw [hheap, if_neg hn]
      exact Or.inr ⟨hn, token?_congr hsame role ▸ ht⟩
  -- A token of another heap is none of those the changed heap has now.
  have hother : ∀ n role role' t, n ≠ k → w.token? n role = some t → t ≠ h'.token role' := by
    intro n role role' t hn ht heq
    subst heq
    rcases hnew role' with hold | ⟨hlt, -⟩
    · exact hn (hs.apart n k role role' _ ht hold).1
    · exact absurd hlt (Nat.not_lt.mpr (hs.le n role _ ht))
  refine ⟨⟨hw, hnext, ?_, ?_⟩, ?_⟩
  · intro n role t ht
    rcases htoken n role t ht with ⟨rfl, rfl⟩ | ⟨-, hold⟩
    · rcases hnew role with hold | ⟨-, hle'⟩
      · exact Nat.le_trans (hs.le n role _ hold) hle
      · exact hle'
    · exact Nat.le_trans (hs.le n role t hold) hle
  · intro n l role role' t ht ht'
    rcases htoken n role t ht with ⟨rfl, rfl⟩ | ⟨hn, hold⟩ <;>
      rcases htoken l role' _ ht' with ⟨hl, heq⟩ | ⟨hl, hold'⟩
    · refine ⟨hl.symm, ?_⟩
      cases role <;> cases role'
      · rfl
      · exact absurd heq hroles
      · exact absurd heq.symm hroles
      · rfl
    · exact absurd rfl (hother l role' role _ hl hold')
    · exact absurd heq (hother n role role' t hn hold)
    · exact hs.apart n l role role' t hold hold'
  · intro n role t ht
    rcases htoken n role t ht with ⟨rfl, rfl⟩ | ⟨-, hold⟩
    · exact (hnew role).imp_right And.left
    · exact Or.inl hold

/-- **One command** puts into use no token that was in use, if the supply does not come
round. -/
theorem step [BEq α] (hs : w.Supplied drawn) {command : Command α} {s : Step α (Reply α)}
    (hx : w.exec command = some s)
    (hlt : drawn + (s.world.mint.next.val - w.mint.next.val).toNat < 0x10000000000000000) :
    s.world.Supplied (drawn + (s.world.mint.next.val - w.mint.next.val).toNat) ∧
      w.Later drawn s.world := by
  have hturn := turn_of_exec hs.wellFormed hx
  have hw := hturn.wellFormed hs.wellFormed
  have hnext := Mint.next_eq_ofNat_add s.world.mint hs.next_eq
  cases hturn with
  | rested hc hh =>
      exact hs.of_rest hw hnext (Nat.le_add_right ..) fun n h hn => heap?_congr hh n ▸ hn
  | dropped hc hh =>
      exact hs.of_rest hw hnext (Nat.le_add_right ..) fun n h hn => heap?_of_drop hh hn
  | @acted n op h o hc hn he hh hm ha =>
      have hcases := he.token_cases (hs.wellFormed n h hn)
      have htoken : ∀ role, w.token? n role = some (h.token role) := fun role =>
        token?_eq_some_iff.mpr ⟨h, hn, rfl⟩
      refine hs.of_change hw hnext (Nat.le_add_right ..) (heap?_of_set hh (lt_size_of_heap? hn))
        ?_ ?_
      · intro role
        rcases hcases role with hsame | ⟨-, hfresh, hdraw⟩
        · exact Or.inl (by rw [htoken, hsame])
        · -- One token was drawn, and it has the number behind those drawn before.
          have hone := w.mint.distance_draw
          rw [← hdraw, ← hm] at hone
          rw [hfresh, Mint.toNat_next hs.next_eq (hone ▸ hlt), hone]
          exact Or.inr ⟨Nat.lt_succ_self _, Nat.le_refl _⟩
      · intro hnew
        rcases hcases .identity with hsame | ⟨hrole, -⟩
        · exact absurd (hs.le n .identity _ (htoken _)) (Nat.not_le.mpr (hsame ▸ hnew))
        · cases hrole
  | @made policy priority size h h' hc hmade hms hh =>
      obtain ⟨-, hreg, -, hm⟩ := Heap.create_eq_ok hmade
      -- A heap draws its identity first, and its owner behind it.
      have htwo : (s.world.mint.next.val - w.mint.next.val).toNat = 2 :=
        hm ▸ w.mint.distance_draw_draw
      rw [htwo] at hlt hnext ⊢
      have hid : h'.id = w.mint.next := hms.id_eq.trans (Heap.id_of_create hmade)
      have howner : h'.owner = w.mint.next.succ := by
        rw [hms.owner_eq, Heap.owner, hreg]
      have hfirst : h'.id.val.toNat = drawn + 1 :=
        hid ▸ Mint.toNat_next hs.next_eq (Nat.lt_of_succ_lt hlt)
      have hsecond : h'.owner.val.toNat = drawn + 2 := howner ▸ Mint.toNat_next_succ hs.next_eq hlt
      refine hs.of_change hw hnext (Nat.le_add_right ..) (heap?_of_push hh) ?_ ?_
      · intro role
        cases role <;> simp only [Heap.token] <;> omega
      · intro _ heq
        rw [heq] at hfirst
        omega

/-- **A whole run** puts into use no token that was in use before, if the supply does not come
round. -/
theorem run [BEq α] (hs : w.Supplied drawn) {commands : List (Command α)}
    (hrun : w.run commands = some w') (hlt : drawn + w.minted commands < 0x10000000000000000) :
    w'.Supplied (drawn + w.minted commands) ∧ w.Later drawn w' := by
  induction commands generalizing w drawn with
  | nil =>
      cases hrun
      exact ⟨hs, .refl _ drawn⟩
  | cons command commands ih =>
      obtain ⟨s, hx, hrest⟩ := run_cons_eq_some.mp hrun
      simp only [minted, hx, ← Nat.add_assoc] at hlt ⊢
      obtain ⟨hstep, hlater⟩ := hs.step hx (Nat.lt_of_le_of_lt (Nat.le_add_right ..) hlt)
      obtain ⟨hall, hrun⟩ := ih hstep hrest hlt
      exact ⟨hall, hlater.trans hrun (Nat.le_add_right ..)⟩

end Supplied

/-- The tokens drawn by a row of commands are those drawn by its parts. -/
theorem minted_append [BEq α] {w w' : World α} {commands : List (Command α)}
    (hrun : w.run commands = some w') (later : List (Command α)) :
    w.minted (commands ++ later) = w.minted commands + w'.minted later := by
  induction commands generalizing w with
  | nil =>
      cases hrun
      simp [minted]
  | cons command commands ih =>
      obtain ⟨s, hx, hrest⟩ := run_cons_eq_some.mp hrun
      simp only [List.cons_append, minted, hx, ih hrest, Nat.add_assoc]

/-! ### Two times of a run -/

section Times

variable [BEq α] {commands : List (Command α)} {w w' : World α} {i j : Nat}

/-- What is done from one time to a later one. -/
theorem exists_run_between (hij : i ≤ j) (hi : World.run {} (commands.take i) = some w)
    (hj : World.run {} (commands.take j) = some w') : ∃ between, w.run between = some w' ∧
      World.minted {} (commands.take j) = World.minted {} (commands.take i) + w.minted between := by
  have hsplit : commands.take j = commands.take i ++ (commands.take j).drop i := by
    conv_lhs => rw [← List.take_append_drop i (commands.take j)]
    rw [List.take_take, Nat.min_eq_left hij]
  refine ⟨(commands.take j).drop i, ?_, ?_⟩
  · rw [hsplit, run_append, hi] at hj
    exact hj
  · conv_lhs => rw [hsplit]
    exact minted_append hi _

/-- At every time of a run the tokens in use are among those drawn. -/
theorem supplied_of_run_take (hi : World.run {} (commands.take i) = some w)
    (hlt : World.minted {} commands < 0x10000000000000000) :
    w.Supplied (World.minted {} (commands.take i)) := by
  have hall := minted_append hi (commands.drop i)
  rw [List.take_append_drop] at hall
  have hrun := (Supplied.empty.run hi (by omega)).1
  rwa [Nat.zero_add] at hrun

/-- What is in use at a later time was in use before, or was drawn in between. -/
theorem later_of_run_take (hij : i ≤ j) (hi : World.run {} (commands.take i) = some w)
    (hj : World.run {} (commands.take j) = some w')
    (hlt : World.minted {} commands < 0x10000000000000000) :
    World.minted {} (commands.take i) ≤ World.minted {} (commands.take j) ∧
      w.Later (World.minted {} (commands.take i)) w' := by
  obtain ⟨between, hrun, hsum⟩ := exists_run_between hij hi hj
  have hall := minted_append hj (commands.drop j)
  rw [List.take_append_drop] at hall
  exact ⟨by omega, ((supplied_of_run_take hi hlt).run hrun (by omega)).2⟩

end Times

end World

end TrackedHeap
