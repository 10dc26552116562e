import Mathlib.Data.Multiset.MapFold
import TrackedHeap.Proofs.Bag.Basic
import TrackedHeap.Proofs.Heap.Moves

/-!
# TrackedHeap.Proofs.Bag.Refinement

**A heap refines a keyed bag**, whatever its ranking says.

The bag of a heap has an entry for each slot, with the handle that the slot's key is issued
as, and the handles the registry calls reserved. Sifts permute the slots and the registry
follows them, so the bag sees nothing of a sift; what it sees of a request is the one slot
that was added, replaced or taken out. Each case of `Op.Effect` is thus one step of the bag.
-/

namespace TrackedHeap

variable {α : Type}

namespace Heap

/-- The element of a slot with the handle that names it. -/
def entry (h : Heap α) (slot : Slot α) : α × Option Handle :=
  (slot.value, slot.key.bind h.registry.handleOf?)

/-- What a heap is to its users. -/
def bag (h : Heap α) : Bag α where
  entries := ↑(h.slots.toList.map h.entry)
  reserved := {x | h.registry.statusOf x = .ok .reserved}

/-! ### Reading the bag -/

theorem WellFormed.mem_reserved {h : Heap α} (hw : h.WellFormed) {x : Handle} :
    x ∈ h.bag.reserved ↔ h.registry.Issues x ∧ some x.key ∉ h.keys := hw.statusOf_eq_reserved_iff

/-- The element of a slot with an issued key is named by the handle of the key. -/
theorem entry_of_key {h : Heap α} {slot : Slot α} {x : Handle} (hx : h.registry.Issues x)
    (hk : slot.key = some x.key) : h.entry slot = (slot.value, some x) := by
  simp [entry, hk, hx.handleOf?]

theorem WellFormed.names_iff {h : Heap α} (hw : h.WellFormed) {x : Handle} {value : α} :
    h.bag.Names x value ↔ h.registry.Issues x ∧ ⟨value, some x.key⟩ ∈ h.slots := by
  simp only [Bag.Names, bag, Multiset.mem_coe, List.mem_map, Array.mem_toList_iff]
  constructor
  · intro hnames
    obtain ⟨⟨value', key⟩, hs, hentry⟩ := hnames
    simp only [entry, Prod.mk.injEq, Option.bind_eq_some_iff] at hentry
    obtain ⟨rfl, key', rfl, hx⟩ := hentry
    have hmem : some key' ∈ h.keys := List.mem_map.mpr ⟨_, Array.mem_toList_iff.mpr hs, rfl⟩
    obtain ⟨hissues, rfl⟩ := Registry.issues_of_handleOf? (hw.isIssued_of_mem_keys hmem) hx
    exact ⟨hissues, hs⟩
  · intro hslot
    obtain ⟨hx, hs⟩ := hslot
    exact ⟨_, hs, entry_of_key hx rfl⟩

/-- A handle names some element if it is issued and its key is that of a slot. -/
theorem WellFormed.exists_names_iff {h : Heap α} (hw : h.WellFormed) {x : Handle} :
    (∃ value, h.bag.Names x value) ↔ h.registry.Issues x ∧ some x.key ∈ h.keys := by
  simp only [hw.names_iff, exists_and_left, Heap.keys, List.mem_map, Array.mem_toList_iff]
  refine and_congr_right fun _ => ⟨?_, ?_⟩
  · intro hnames
    obtain ⟨value, hs⟩ := hnames
    exact ⟨_, hs, rfl⟩
  · intro hkey
    obtain ⟨slot, hs, hk⟩ := hkey
    exact ⟨slot.value, hk ▸ hs⟩

/-- A handle that is not issued is fresh. -/
theorem WellFormed.fresh_of_not_issues {h : Heap α} (hw : h.WellFormed) {x : Handle}
    (hx : ¬ h.registry.Issues x) : h.bag.Fresh x :=
  ⟨fun _ hn => hx (hw.names_iff.mp hn).1, fun hr => hx (hw.mem_reserved.mp hr).1⟩

/-- No handle names two elements. -/
theorem WellFormed.handles_nodup {h : Heap α} (hw : h.WellFormed) :
    (h.bag.entries.filterMap Prod.snd).Nodup := by
  have hhandles : (h.slots.toList.map h.entry).filterMap Prod.snd =
      h.keys.reduceOption.filterMap h.registry.handleOf? := by
    simp only [List.reduceOption, Heap.keys, List.filterMap_map, List.filterMap_filterMap]
    rfl
  rw [bag, Multiset.filterMap_coe, Multiset.coe_nodup, hhandles]
  refine hw.keys_nodup.filterMap ?_
  intro key key' x hx hx'
  simp only [Registry.handleOf?, Option.mem_def, Option.map_eq_some_iff] at hx hx'
  obtain ⟨record, -, rfl⟩ := hx
  obtain ⟨record', -, heq⟩ := hx'
  exact (congrArg Handle.key heq).symm

/-- A handle without a reserved key is turned down, and named as in use if it names an
element. -/
theorem WellFormed.of_unboundKey_error {h : Heap α} (hw : h.WellFormed) {x : Handle}
    {cause : Refusal} (hu : h.registry.unboundKey x = .error cause) :
    x ∉ h.bag.reserved ∧ (cause = .handleInUse ↔ ∃ value, h.bag.Names x value) := by
  rw [hw.mem_reserved, hw.exists_names_iff]
  by_cases hx : h.registry.Issues x
  · by_cases hk : some x.key ∈ h.keys
    · obtain ⟨i, hi, hs, -⟩ := hw.statusOf_of_mem_keys hx hk
      simp only [Registry.unboundKey, hs, Except.error.injEq] at hu
      simp [hx, hk, ← hu]
    · simp [Registry.unboundKey, hw.statusOf_of_not_mem_keys hx hk] at hu
  · obtain ⟨cause', hs, -, hne⟩ := Registry.exists_statusOf_of_not_issues hx
    simp only [Registry.unboundKey, hs, Except.error.injEq] at hu
    subst hu
    simp [hx, hne]

/-- A handle that names no element is turned down, and named as unbound if it is reserved. -/
theorem WellFormed.of_position_error {h : Heap α} (hw : h.WellFormed) {x : Handle}
    {cause : Refusal} (hp : h.registry.position x = .error cause) :
    (∀ value, ¬ h.bag.Names x value) ∧ (cause = .unboundHandle ↔ x ∈ h.bag.reserved) := by
  rw [← not_exists, hw.mem_reserved, hw.exists_names_iff]
  by_cases hx : h.registry.Issues x
  · by_cases hk : some x.key ∈ h.keys
    · obtain ⟨i, hi, hs, -⟩ := hw.statusOf_of_mem_keys hx hk
      simp [Registry.position, hs] at hp
    · simp only [Registry.position, hw.statusOf_of_not_mem_keys hx hk, Except.error.injEq] at hp
      simp [hx, hk, ← hp]
  · obtain ⟨cause', hs, hne, -⟩ := Registry.exists_statusOf_of_not_issues hx
    simp only [Registry.position, hs, Except.error.injEq] at hp
    subst hp
    simp [hx, hne]

theorem WellFormed.mem_reserved_of_unboundKey {h : Heap α} (hw : h.WellFormed) {x : Handle}
    (hu : h.registry.unboundKey x = .ok x.key) : x ∈ h.bag.reserved := by
  obtain ⟨hx, hk, -⟩ := hw.unboundKey_eq_ok_iff.mp hu
  exact hw.mem_reserved.mpr ⟨hx, hk⟩

/-- A handle names the element at the position it shows. -/
theorem WellFormed.entry_of_position {h : Heap α} (hw : h.WellFormed) {x : Handle} {i : Nat}
    (hp : h.registry.position x = .ok i) (hi : i < h.slots.size) :
    h.entry h.slots[i] = (h.slots[i].value, some x) :=
  entry_of_key (hw.position_eq_ok_iff.mp hp).1 (hw.key_of_position hp hi)

/-- What is searched for in vain is in no entry. -/
theorem not_of_indexOf?_eq_none {h : Heap α} {holds : α → Bool} (hf : h.indexOf? holds = none) :
    ∀ e ∈ h.bag.entries, ¬ holds e.1 = true := by
  intro e he
  obtain ⟨slot, hs, rfl⟩ := List.mem_map.mp (Multiset.mem_coe.mp he)
  have hnone := Array.findIdx?_eq_none_iff.mp hf slot (Array.mem_toList_iff.mp hs)
  simpa [entry] using hnone

/-- What is found has the property searched for. -/
theorem holds_of_indexOf? {h : Heap α} {holds : α → Bool} {i : Nat}
    (hf : h.indexOf? holds = some i) (hi : i < h.slots.size) : holds h.slots[i].value = true :=
  (Array.findIdx?_eq_some_iff_getElem.mp hf).2.1

/-! ### How the bag changes -/

/-- Positions are of no matter to entries. -/
theorem entry_congr {h h' : Heap α} (hu : h'.registry.unplaced = h.registry.unplaced) :
    h'.entry = h.entry := by
  funext slot
  unfold entry
  exact congrArg _ (congrArg _ (funext fun key => Registry.handleOf?_congr hu key))

/-- Slots whose keys stand for the same handles have the same entries. -/
theorem entries_congr {h h' : Heap α} {slots : List (Slot α)}
    (hhandle : ∀ slot ∈ slots, ∀ key, slot.key = some key →
      h'.registry.handleOf? key = h.registry.handleOf? key) :
    slots.map h'.entry = slots.map h.entry := by
  refine List.map_congr_left ?_
  intro slot hs
  cases hk : slot.key with
  | none => simp [entry, hk]
  | some key => simp [entry, hk, hhandle slot hs key hk]

theorem WellFormed.bag_of_grants {h : Heap α} (hw : h.WellFormed) {x : Handle} {r : Registry}
    (hr : r.Sound) (hg : h.registry.Grants x r) :
    bag { h with registry := r } = h.bag.hold x := by
  have hfree : some x.key ∉ h.keys := fun hk => hg.not_isIssued (hw.isIssued_of_mem_keys hk)
  have hentries : h.slots.toList.map (entry { h with registry := r }) =
      h.slots.toList.map h.entry :=
    entries_congr fun slot hs key hk =>
      hg.handleOf?_eq (hw.isIssued_of_mem_keys (List.mem_map.mpr ⟨slot, hs, hk⟩))
  refine Bag.ext (congrArg Multiset.ofList hentries) (Set.ext ?_)
  intro y
  rw [(hw.of_grants hr hg).mem_reserved]
  simp only [Bag.hold, Set.mem_insert_iff, hw.mem_reserved, hg.issues_iff]
  constructor
  · intro hy
    rcases hy with ⟨rfl | hy, hk⟩
    · exact Or.inl rfl
    · exact Or.inr ⟨hy, hk⟩
  · intro hcase
    rcases hcase with rfl | ⟨hy, hk⟩
    · exact ⟨Or.inl rfl, hfree⟩
    · exact ⟨Or.inr hy, hk⟩

theorem WellFormed.bag_of_withdraws {h : Heap α} (hw : h.WellFormed) {x : Handle} {r : Registry}
    (hr : r.Sound) (hx : x ∈ h.bag.reserved) (hwith : h.registry.Withdraws [some x.key] r) :
    bag { h with registry := r } = h.bag.drop x := by
  obtain ⟨hissues, hk⟩ := hw.mem_reserved.mp hx
  have hentries : h.slots.toList.map (entry { h with registry := r }) =
      h.slots.toList.map h.entry :=
    entries_congr fun slot hs key hkey => hwith.handleOf?_eq fun hmem => hk <| by
      rw [← List.mem_singleton.mp hmem]
      exact List.mem_map.mpr ⟨slot, hs, hkey⟩
  refine Bag.ext (congrArg Multiset.ofList hentries) (Set.ext ?_)
  intro y
  rw [(hw.of_withdraws hr hk hwith).mem_reserved]
  simp only [Bag.drop, Set.mem_sdiff, Set.mem_singleton_iff, hw.mem_reserved, hwith.issues_iff,
    List.mem_singleton, Option.some.injEq]
  constructor
  · intro hy
    obtain ⟨⟨hy, hne⟩, hk⟩ := hy
    exact ⟨⟨hy, hk⟩, fun hyx => hne (hyx ▸ rfl)⟩
  · intro hy
    obtain ⟨⟨hy, hk⟩, hne⟩ := hy
    exact ⟨⟨hy, fun hkey => hne (hy.eq_of_key_eq hissues hkey)⟩, hk⟩

/-- The entries after a slot was added are those before and the slot's. -/
theorem Stores.entries_eq {h h' : Heap α} {slot : Slot α} {events : List Event}
    (hs : h.Stores slot events h') : h'.bag.entries = h.entry slot ::ₘ h.bag.entries := by
  have hentry := entry_congr hs.unplaced_eq
  simp only [bag, hentry, Multiset.cons_coe, Multiset.coe_eq_coe]
  exact hs.perm_slots.map h.entry

theorem Stores.bag_of_none {h h' : Heap α} {value : α} {events : List Event} (hw : h.WellFormed)
    (hs : h.Stores ⟨value, none⟩ events h') : h'.bag = h.bag.add value none := by
  refine Bag.ext hs.entries_eq (Set.ext ?_)
  intro y
  rw [(hs.wellFormed hw).mem_reserved, Registry.issues_congr hs.unplaced_eq, hs.mem_keys]
  simp [Bag.add, hw.mem_reserved]

/-- A slot added under a reserved handle makes it name the element. -/
theorem Stores.bag_of_some {h h' : Heap α} {value : α} {x : Handle} {events : List Event}
    (hw : h.WellFormed) (hx : x ∈ h.bag.reserved) (hs : h.Stores ⟨value, some x.key⟩ events h') :
    h'.bag = (h.bag.drop x).add value (some x) := by
  obtain ⟨hissues, -⟩ := hw.mem_reserved.mp hx
  have hentries := hs.entries_eq
  rw [entry_of_key hissues rfl] at hentries
  refine Bag.ext hentries (Set.ext ?_)
  intro y
  rw [(hs.wellFormed hw).mem_reserved, Registry.issues_congr hs.unplaced_eq, hs.mem_keys]
  simp only [Bag.add, Bag.drop, Set.mem_sdiff, Set.mem_singleton_iff, hw.mem_reserved,
    Option.some.injEq, not_or]
  constructor
  · intro hy
    obtain ⟨hy, hne, hk⟩ := hy
    exact ⟨⟨hy, hk⟩, fun hyx => hne (hyx ▸ rfl)⟩
  · intro hy
    obtain ⟨⟨hy, hk⟩, hne⟩ := hy
    exact ⟨hy, fun hkey => hne (hy.eq_of_key_eq hissues hkey.symm), hk⟩

/-- Dropping slots deletes their entries and touches no reserved handle. -/
theorem Drops.bag_eq {h h' : Heap α} {dropped : List (Slot α)} (hw : h.WellFormed)
    (hd : h.Drops dropped h') :
    h.bag.entries = ↑(dropped.map h.entry) + h'.bag.entries ∧ h'.bag.reserved = h.bag.reserved := by
  refine ⟨?_, Set.ext ?_⟩
  · have hentries : h'.slots.toList.map h'.entry = h'.slots.toList.map h.entry := by
      refine entries_congr ?_
      intro slot hs key hk
      refine hd.handleOf?_eq ?_
      intro hmem
      obtain ⟨r, -, hwith, hu⟩ := hd.registry
      have hissued := hd.wellFormed.isIssued_of_mem_keys (List.mem_map.mpr ⟨slot, hs, hk⟩)
      rw [Registry.isIssued_congr hu, hwith.isIssued_iff] at hissued
      exact hissued.2 hmem
    simp only [bag, hentries, Multiset.coe_add, Multiset.coe_eq_coe, ← List.map_append]
    exact (hd.perm.map h.entry).symm
  · intro y
    rw [hd.wellFormed.mem_reserved, hw.mem_reserved, hd.issues_iff, hd.mem_keys]
    tauto

/-- Renewing an idle registry is not seen. -/
theorem MayRenew.bag_eq {h h' : Heap α} {m m' : Mint} (hw : h.WellFormed)
    (hren : h.MayRenew m h' m') : h'.bag = h.bag := by
  have hkeys : h'.keys = h.keys := by rw [Heap.keys, Heap.keys, hren.slots_eq]
  refine Bag.ext ?_ (Set.ext ?_)
  · cases hren with
    | kept => rfl
    | renewed he ht h0 => simp [bag, he]
  · intro y
    rw [(hren.wellFormed hw).mem_reserved, hw.mem_reserved, hren.issues_iff hw.registry, hkeys]

/-- Replacing the element of a slot replaces it in its entry. -/
theorem Replaces.bag_eq {h h' : Heap α} {i : Nat} {hi : i < h.slots.size} {value : α}
    (hw : h.WellFormed) (hr : h.Replaces i hi value h') :
    ∃ rest, h.bag.entries = h.entry h.slots[i] ::ₘ rest ∧
      h'.bag = { h.bag with entries := (value, (h.entry h.slots[i]).2) ::ₘ rest } := by
  have hlt : i < h.slots.toList.length := by simpa using hi
  have hget : h.slots[i] = h.slots.toList[i] := by simp
  have hbefore : (h.slots[i] :: h.slots.toList.eraseIdx i).Perm h.slots.toList := by
    rw [hget]
    exact List.getElem_cons_eraseIdx_perm hlt
  have hafter : h'.slots.toList.Perm (⟨value, h.slots[i].key⟩ :: h.slots.toList.eraseIdx i) := by
    rw [hr.slots_eq]
    refine (Sift.perm_settle ..).toList.trans ?_
    rw [Array.toList_set]
    exact List.set_perm_cons_eraseIdx hlt _
  have hentry := entry_congr hr.unplaced_eq
  refine ⟨↑((h.slots.toList.eraseIdx i).map h.entry), ?_, Bag.ext ?_ (Set.ext ?_)⟩
  · simp only [bag, Multiset.cons_coe, Multiset.coe_eq_coe]
    exact (hbefore.map h.entry).symm
  · simp only [bag, hentry, Multiset.cons_coe, Multiset.coe_eq_coe]
    exact hafter.map h.entry
  · intro y
    rw [(Adopts.wellFormed hr hw.registry).mem_reserved, Registry.issues_congr hr.unplaced_eq,
      hr.mem_keys]
    exact hw.mem_reserved.symm

end Heap

/-! ### Requests are steps of the bag -/

namespace Op.Effect

open Heap

variable [BEq α] {h : Heap α} {m : Mint} {o : Outcome α (Reply α)}

/-- Adding many elements adds the first ones, and all of them unless room runs out. -/
theorem bag_step_extend (hw : h.WellFormed) {values : List α}
    (he : (Op.extend values).Effect h m o) :
    h.bag.Step (.extend values) o.answer o.heap.bag := by
  induction values generalizing h o with
  | nil =>
      cases he
      have hstep : h.bag.Step (.extend []) (.ok .done) (h.bag.addAll []) := .extended
      rwa [Bag.addAll_nil] at hstep
  | cons value rest ih =>
      cases he with
      | extendMore hs ho =>
          have hrest := ih (hs.wellFormed hw) ho
          rw [hs.bag_of_none hw] at hrest
          exact hrest.extend_cons
      | extendFull hl =>
          have hstep : h.bag.Step (.extend ([] ++ value :: rest))
              (.error (.fault .capacityOverflow)) (h.bag.addAll []) :=
            .extendFull (List.cons_ne_nil value rest)
          rwa [Bag.addAll_nil] at hstep

omit [BEq α] in
/-- Taking out a slot deletes its entry. -/
theorem bag_of_takesOut (hw : h.WellFormed) {i : Nat} {hi : i < h.slots.size} {c : Change α α}
    (ht : h.TakesOut m i hi c) :
    ∃ rest, h.bag.entries = (c.answer, (h.entry h.slots[i]).2) ::ₘ rest ∧
      c.heap.bag = { h.bag with entries := rest } := by
  obtain ⟨h', hd, -, hren⟩ := ht.drops hw
  obtain ⟨hentries, hreserved⟩ := hd.bag_eq hw
  refine ⟨h'.bag.entries, ?_, ?_⟩
  · rw [ht.answer_eq, hentries]
    rfl
  · rw [hren.bag_eq hd.wellFormed]
    exact Bag.ext rfl hreserved

/-- **Requests are steps**: whatever a request comes to on a heap, the heap's bag can come to. -/
theorem bag_step {op : Op α} (he : op.Effect h m o) (hw : h.WellFormed) :
    h.bag.Step op o.answer o.heap.bag := by
  cases he with
  | pushed hs =>
      rw [hs.bag_of_none hw]
      exact .pushed
  | pushFull hl => exact .pushFull
  | extended => exact bag_step_extend hw .extended
  | extendMore hs ho => exact bag_step_extend hw (.extendMore hs ho)
  | extendFull hl => exact bag_step_extend hw (.extendFull hl)
  | reserved hres hr hg =>
      have hfresh := hw.fresh_of_not_issues fun hx => hg.not_isIssued hx.isIssued
      have hstep := Bag.Step.reserved hfresh
      rwa [← hw.bag_of_grants hr hg] at hstep
  | exhausted he => exact .exhausted
  | @inserted _ _ _ value x _ _ hres hr hg hs =>
      have hfresh := hw.fresh_of_not_issues fun hx => hg.not_isIssued hx.isIssued
      have hbag := hs.bag_of_some (hw.of_grants hr hg)
        (by rw [hw.bag_of_grants hr hg]; exact Set.mem_insert ..)
      rw [hw.bag_of_grants hr hg, Bag.drop_hold hfresh] at hbag
      rw [hbag]
      exact .inserted hfresh
  | @insertFull _ _ value x _ hres hr hg hl =>
      have hfresh := hw.fresh_of_not_issues fun hx => hg.not_isIssued hx.isIssued
      have hstep : h.bag.Step (.insert value) _ _ := .insertFull hfresh
      rwa [← hw.bag_of_grants hr hg] at hstep
  | insertExhausted he => exact .insertExhausted
  | released hu hr hwith =>
      have hx := hw.mem_reserved_of_unboundKey hu
      have hstep := Bag.Step.released hx
      rwa [← hw.bag_of_withdraws hr hx hwith] at hstep
  | releaseRefused hu =>
      obtain ⟨hx, hcause⟩ := hw.of_unboundKey_error hu
      exact .releaseRefused hx hcause
  | insertedWith hu hs =>
      have hx := hw.mem_reserved_of_unboundKey hu
      rw [hs.bag_of_some hw hx]
      exact .insertedWith hx
  | insertWithFull hu hl => exact .insertWithFull (hw.mem_reserved_of_unboundKey hu)
  | insertWithRefused hu =>
      obtain ⟨hx, hcause⟩ := hw.of_unboundKey_error hu
      exact .insertWithRefused hx hcause
  | popped ht =>
      obtain ⟨rest, he, hbag⟩ := bag_of_takesOut hw ht
      rw [hbag]
      exact .popped he
  | popEmpty he => exact .popEmpty (by simp [bag, he])
  | @removed _ _ _ i hi _ hp ht =>
      obtain ⟨rest, he, hbag⟩ := bag_of_takesOut hw ht
      rw [hw.entry_of_position hp hi] at he
      rw [hbag]
      exact .removed he
  | removeRefused hp =>
      obtain ⟨hx, hcause⟩ := hw.of_position_error hp
      exact .removeRefused hx hcause
  | @removedFirst _ _ _ i hi _ hf ht =>
      obtain ⟨rest, he, hbag⟩ := bag_of_takesOut hw ht
      rw [hbag]
      exact .removedFirst (ht.answer_eq ▸ holds_of_indexOf? hf hi) he
  | noneFirst hf => exact .noneFirst (not_of_indexOf?_eq_none hf)
  | @removedValue _ _ _ i hi _ hf ht =>
      obtain ⟨rest, he, hbag⟩ := bag_of_takesOut hw ht
      rw [hbag]
      exact .removedValue (ht.answer_eq ▸ holds_of_indexOf? hf hi) he
  | noValue hf => exact .noValue (not_of_indexOf?_eq_none hf)
  | @updated _ _ _ _ _ i hi hp hr =>
      obtain ⟨rest, he, hbag⟩ := hr.bag_eq hw
      rw [hw.entry_of_position hp hi] at he hbag
      rw [hbag]
      exact .updated he
  | updateRefused hp =>
      obtain ⟨hx, hcause⟩ := hw.of_position_error hp
      exact .updateRefused hx hcause
  | cleared hc =>
      obtain ⟨h', hd, hren⟩ := hc.drops hw
      have hbag : h'.bag = { h.bag with entries := 0 } :=
        Bag.ext (by simp [bag, hd.slots_eq_empty]) (hd.bag_eq hw).2
      rw [hren.bag_eq hd.wellFormed, hbag]
      exact .cleared
  | trimmed ht => exact .trimmed
  | untrimmed ht => exact .trimmed

end Op.Effect

end TrackedHeap
