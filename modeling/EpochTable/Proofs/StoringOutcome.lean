import EpochTable.Proofs.SingleGrowth

namespace EpochTable

variable {t t' : Table} {hash : UInt64 → UInt64} {d : Dict} {e : Entry} {update : Bool}
  {settings : Settings} {memory : Memory} {s : Store} {wanted : Finset UInt64} {key : UInt64}

def Table.keys (t : Table) : Finset UInt64 := (t.block.entries.map Entry.key).toFinset

theorem Table.Represents.keys_eq (h : t.Represents d) : t.keys = d.keys :=
  (h.holds.entries h.nonempty).keys_eq

theorem Table.Represents.mem_keys (h : t.Represents d) :
    key ∈ t.keys ↔ t.contains (.of key) = true := by
  rw [h.keys_eq, Table.contains, h.find (q := .of key) rfl, Finmap.mem_keys, Finmap.lookup_isSome]
  rfl

/-- Blocks of that many cells are allowed, and their items are enough for the keys. -/
def Settings.Roomy (settings : Settings) (hash : UInt64 → UInt64) (wanted : Finset UInt64)
    (cells : Nat) : Prop :=
  cells ≤ settings.maxCells.toNat ∧
    demand hash cells wanted ≤ shelfItems * settings.shelvesFor cells

/-- There is memory for every block that the settings allow. -/
def Memory.Affords (memory : Memory) (settings : Settings) : Prop :=
  ∀ cells ≤ settings.maxCells.toNat,
    ∃ b, Block.allocate .words memory cells (settings.shelvesFor cells) = .ok b

theorem Memory.affords_iff : memory.Affords settings ↔ ∀ cells ≤ settings.maxCells.toNat,
    (Block.allocate .words memory cells (settings.shelvesFor cells)).isOk = true := by
  refine forall_congr' fun cells => imp_congr_right fun _ => ?_
  cases Block.allocate .words memory cells (settings.shelvesFor cells) with
  | error fault => simp [Except.isOk, Except.toBool]
  | ok block => simp [Except.isOk, Except.toBool]

def Table.cellsAfter (t : Table) (growths : Nat) : Nat := t.block.cellCount * growthFactor ^ growths

def Table.retiredBy (t : Table) (growths : Nat) : List Job :=
  (List.range growths).map fun k => .discard (t.cellsAfter k)

theorem Table.cellsAfter_zero (t : Table) : t.cellsAfter 0 = t.block.cellCount := Nat.mul_one _

theorem Table.cellsAfter_succ (t : Table) (k : Nat) :
    t.cellsAfter (k + 1) = t.cellsAfter k * growthFactor := by
  rw [Table.cellsAfter, pow_succ, ← Nat.mul_assoc, Table.cellsAfter]

theorem Table.cellsAfter_mono (t : Table) {j k : Nat} (h : j ≤ k) :
    t.cellsAfter j ≤ t.cellsAfter k :=
  Nat.mul_le_mul_left _ (Nat.pow_le_pow_right (by decide) h)

theorem Table.Grew.cellsAfter (h : t.Grew t' settings d) (k : Nat) :
    t'.cellsAfter k = t.cellsAfter (k + 1) := by
  rw [Table.cellsAfter, h.cells, Table.nextCells, Nat.mul_assoc, ← pow_succ', Table.cellsAfter]

theorem Table.Grew.retiredBy (h : t.Grew t' settings d) (growths : Nat) :
    .discard t.block.cellCount :: t'.retiredBy growths = t.retiredBy (growths + 1) := by
  rw [Table.retiredBy, Table.retiredBy, List.range_succ_eq_map, List.map_cons, List.map_map,
    t.cellsAfter_zero]
  exact congrArg _ (List.map_congr_left fun k _ => congrArg _ (h.cellsAfter k))

/-- A key finds no room exactly if a block of this size is not roomy enough. -/
theorem Table.Represents.crowded_iff (h : t.Represents d) (hs : t.Sized settings)
    (absent : d.lookup key = none) :
    t.Crowded d key ↔ ¬ settings.Roomy t.hash (Insert.insert key d.keys) t.block.cellCount := by
  have hfull := h.holds.crowded_iff h.nonempty absent
  have hitems : t.block.itemCount = shelfItems * settings.shelvesFor t.block.cellCount := by
    rw [← hs.shelves, Nat.mul_comm]
    rfl
  rw [hitems] at hfull
  have hbounded := hs.bounded
  constructor
  · rintro ⟨_, full, exhausted⟩ ⟨_, hdemand⟩
    have hmore := hfull.mp ⟨full, exhausted⟩
    omega
  · intro hroomy
    have hmore : shelfItems * settings.shelvesFor t.block.cellCount
        < demand t.hash t.block.cellCount (Insert.insert key d.keys) := by
      by_contra hle
      exact hroomy ⟨hbounded, Nat.le_of_not_lt hle⟩
    obtain ⟨full, exhausted⟩ := hfull.mpr hmore
    exact ⟨absent, full, exhausted⟩

/-- The outcome of storing an entry so that the table holds these keys: it is stored after the least
number of growths that makes room, or the growth is refused that would go over the limit. -/
inductive Table.StoredAfter (t : Table) (settings : Settings) (wanted : Finset UInt64) :
    Stored Bool → Prop where
  | stored (growths : Nat) (t' : Table)
      (crowded : ∀ k < growths, ¬ settings.Roomy t.hash wanted (t.cellsAfter k))
      (roomy : settings.Roomy t.hash wanted (t.cellsAfter growths))
      (cells : t'.block.cellCount = t.cellsAfter growths) :
      StoredAfter t settings wanted ⟨.ok true, t', t.retiredBy growths⟩
  | refused (growths : Nat) (t' : Table)
      (crowded : ∀ k ≤ growths, ¬ settings.Roomy t.hash wanted (t.cellsAfter k))
      (within : t.cellsAfter growths ≤ settings.maxCells.toNat)
      (above : settings.maxCells.toNat < t.cellsAfter (growths + 1)) :
      StoredAfter t settings wanted
        ⟨.error (.capacityOverflow (min (t.cellsAfter (growths + 1)) (cellLimit - 1))), t',
          t.retiredBy growths⟩

/-- One growth more, before all that follows. -/
theorem Table.StoredAfter.after_growth {stored : Stored Bool} (hg : t.Grew t' settings d)
    (hfull : ¬ settings.Roomy t.hash wanted t.block.cellCount)
    (h : t'.StoredAfter settings wanted stored) :
    t.StoredAfter settings wanted
      { stored with retired := .discard t.block.cellCount :: stored.retired } := by
  cases h with
  | stored growths last crowded roomy cells =>
    simp only [hg.retiredBy, hg.cellsAfter, hg.hash] at crowded roomy cells ⊢
    refine .stored (growths + 1) last (fun k hk => ?_) roomy cells
    cases k with
    | zero => rwa [t.cellsAfter_zero]
    | succ k => exact crowded k (Nat.lt_of_succ_lt_succ hk)
  | refused growths last crowded within above =>
    simp only [hg.retiredBy, hg.cellsAfter, hg.hash] at crowded within above ⊢
    refine .refused (growths + 1) last (fun k hk => ?_) within above
    cases k with
    | zero => rwa [t.cellsAfter_zero]
    | succ k => exact crowded k (Nat.le_of_succ_le_succ hk)

theorem Table.Sized.refused_first (hs : t.Sized settings)
    (hfull : ¬ settings.Roomy t.hash wanted t.block.cellCount)
    (above : settings.maxCells.toNat < t.nextCells) :
    t.StoredAfter settings wanted
      ⟨.error (.capacityOverflow (min t.nextCells (cellLimit - 1))), t, []⟩ := by
  have hone : t.nextCells = t.cellsAfter 1 := by rw [Table.cellsAfter, pow_one, Table.nextCells]
  rw [hone] at above ⊢
  refine .refused 0 t (fun k hk => ?_) ?_ above
  · rw [Nat.le_zero.mp hk, t.cellsAfter_zero]
    exact hfull
  · rw [t.cellsAfter_zero]
    exact hs.bounded

/-- By induction on the rounds: a growth that is needed is made, and the rest is what the larger table
comes to. -/
theorem Table.Represents.storeWithin_outcome {rounds : Nat} (h : t.Represents d)
    (hs : t.Sized settings) (free : t.block.hasLock = false) (absent : d.lookup e.key = none)
    (affords : t.memory.Affords settings)
    (hrounds : cellLimit ≤ t.block.cellCount * growthFactor ^ rounds) :
    ∃ stored, t.storeWithin e update rounds = some stored ∧
      t.StoredAfter settings (Insert.insert e.key d.keys) stored := by
  induction rounds generalizing t with
  | zero =>
    have hlimit := h.limit
    simp only [pow_zero, mul_one] at hrounds
    omega
  | succ rounds ih =>
    have hattempt := h.attempt e update
    have hcrowded := h.crowded_iff hs absent
    unfold Table.storeWithin
    cases hdone : t.attempt e update with
    | waits =>
      rw [hdone] at hattempt
      cases hattempt with
      | waits locked =>
        rw [Block.hasLock_eq_false.mp free] at locked
        cases locked
    | done inserted t' =>
      have halike : t.Alike t' := Table.alike_attempt (by rw [hdone]; rfl)
      rw [hdone] at hattempt
      cases hattempt with
      | done _ _ roomy _ _ =>
        rw [absent]
        rw [hcrowded, not_not] at roomy
        refine ⟨_, rfl, .stored 0 t' (fun k hk => absurd hk (Nat.not_lt_zero k)) ?_ ?_⟩
        · rwa [t.cellsAfter_zero]
        · rw [t.cellsAfter_zero, halike.cells]
    | full full =>
      obtain ⟨hsame, crowded⟩ := h.of_full hdone
      subst full
      have hfull := hcrowded.mp crowded
      obtain ⟨next, hnext, hgrow⟩ := h.grow_eq hs free
      cases next with
      | error fault =>
        refine ⟨⟨.error fault, t, []⟩, by simp only [hgrow, Table.grownTo], ?_⟩
        cases hnext with
        | tooLarge above => exact hs.refused_first hfull above
        | refused _ within refuses =>
          obtain ⟨b, hb⟩ := affords _ within
          rw [refuses] at hb
          cases hb
      | ok block =>
        have hgrew := h.grew hs hnext
        have hnextRounds : cellLimit ≤ (t.withBlock block).block.cellCount * growthFactor ^ rounds := by
          rw [hgrew.cells, Table.nextCells, Nat.mul_assoc, ← pow_succ']
          exact hrounds
        obtain ⟨rest, hrest, hafter⟩ := ih hgrew.represents hgrew.sized hgrew.unlocked
          (hgrew.memory ▸ affords) hnextRounds
        refine ⟨_, ?_, hafter.after_growth hgrew hfull⟩
        simp only [hgrow, Table.grownTo, hrest, Option.map_some]
        rfl

theorem Table.Represents.store_outcome (h : t.Represents d) (hs : t.Sized settings)
    (free : t.block.hasLock = false) (absent : d.lookup e.key = none)
    (affords : t.memory.Affords settings) :
    ∃ stored, t.store e update = some stored ∧
      t.StoredAfter settings (Insert.insert e.key d.keys) stored :=
  h.storeWithin_outcome hs free absent affords h.rounds_suffice

/-- If all allowed sizes are too small, so are all others. -/
theorem Table.never_roomy {m : Nat} (crowded : ∀ k ≤ m, ¬ settings.Roomy hash wanted (t.cellsAfter k))
    (above : settings.maxCells.toNat < t.cellsAfter (m + 1)) (n : Nat) :
    ¬ settings.Roomy hash wanted (t.cellsAfter n) := by
  by_cases hle : n ≤ m
  · exact crowded n hle
  · have hmono : t.cellsAfter (m + 1) ≤ t.cellsAfter n := t.cellsAfter_mono (by omega)
    exact fun hroomy => absurd hroomy.1 (by omega)

/-- What a storing call comes to when the caller holds a pin. -/
theorem Store.apply_store {i : Nat} {m : Member} (hpin : s.realm.pinned? i = some m)
    {stored : Stored Bool} (hstored : s.table.store e update = some stored) :
    s.apply (.call i (.store e update))
      = (⟨stored.table, (s.realm.apply (.retire i stored.retired)).1, s.holds⟩,
        .result stored.finished.result, (s.realm.apply (.retire i stored.retired)).2) := by
  have hcall : s.table.call (.store e update) = some stored.finished := by
    rw [Table.call_store, hstored, Option.map_some]
  have hhold : stored.finished.result.hold? = none := by
    cases hresult : stored.result <;> simp [Stored.finished, hresult, CallResult.hold?]
  simp only [Store.apply, hpin, hcall, hhold, Option.isNone_some, Bool.false_eq_true, if_false,
    Option.map_none, Option.toList_none, List.append_nil]
  rfl

/-- Storing an absent key while no entry is held, in any store that a run leads to, with memory for all
blocks that are allowed: if some number of growths makes room for the keys with the new one among them,
the call makes the least such number and stores the entry; otherwise it grows as long as that is allowed
and then fails. -/
theorem Store.storing_outcome {s₀ : Store} (hmake : Store.make settings hash memory = .ok s₀)
    (acts : List Store.Act) :
    let s := (s₀.run acts).1
    let cells growths := s.table.block.cellCount * 4 ^ growths
    (∀ key, key ∈ s.table.keys ↔ s.table.contains (.of key) = true) ∧
    ∀ i e update, (s.realm.pinned? i).isSome = true → (∀ j, s.hold? j = none) →
      e.key ∉ s.table.keys → s.table.memory.Affords settings →
      let roomy growths := settings.Roomy hash (insert e.key s.table.keys) (cells growths)
      let outcome := s.apply (.call i (.store e update))
      ((∃ growths, roomy growths) → ∃ growths, roomy growths ∧ (∀ fewer < growths, ¬ roomy fewer) ∧
        outcome.2.1 = .result (.flag true) ∧ outcome.1.table.block.cellCount = cells growths ∧
        outcome.2.2 = (Node.number s.realm.issued ((List.range growths).map fun k =>
          .discard (cells k))).map (.deferred i)) ∧
      ((∀ growths, ¬ roomy growths) → ∃ growths, cells growths ≤ settings.maxCells.toNat ∧
        settings.maxCells.toNat < cells (growths + 1) ∧
        outcome.2.1
          = .result (.fault (.capacityOverflow (min (cells growths * 4) (UInt64.size - 1))))) := by
  intro s cells
  obtain ⟨w, h, hs⟩ := Store.simulates_run hmake acts
  change s.Simulates hash w at h
  have hkeys : s.table.keys = w.dict.keys := h.table.keys_eq
  refine ⟨fun key => h.table.mem_keys, ?_⟩
  intro i e update pinned unheld absent affords roomy outcome
  obtain ⟨m, hpin⟩ := Option.isSome_iff_exists.mp pinned
  have hfree := h.hasLock_eq_false unheld
  have habsent : w.dict.lookup e.key = none := by
    rwa [hkeys, Finmap.mem_keys, ← Finmap.lookup_eq_none] at absent
  obtain ⟨stored, hstored, hafter⟩ : ∃ stored, s.table.store e update = some stored ∧
      s.table.StoredAfter settings (insert e.key w.dict.keys) stored :=
    h.table.store_outcome hs hfree habsent affords
  have happly : outcome = _ := Store.apply_store hpin hstored
  have hanswer : outcome.2.1 = .result stored.finished.result := congrArg (fun o => o.2.1) happly
  have htable : outcome.1.table = stored.table := congrArg (fun o => o.1.table) happly
  have hevents : outcome.2.2 = (Node.number s.realm.issued stored.retired).map (.deferred i) :=
    (congrArg (fun o => o.2.2) happly).trans (Realm.events_retire hpin _)
  rw [← hkeys] at hafter
  cases hafter with
  | stored growths t' crowded room count =>
    simp only [h.hash] at room crowded
    refine ⟨fun _ => ⟨growths, room, crowded, hanswer, ?_, hevents⟩, fun none => ?_⟩
    · exact (congrArg (fun t => t.block.cellCount) htable).trans count
    · exact absurd room (none growths)
  | refused growths t' crowded within above =>
    simp only [h.hash] at crowded
    have hlast : cells (growths + 1) = cells growths * 4 := s.table.cellsAfter_succ growths
    refine ⟨fun ⟨other, room⟩ => ?_, fun _ => ⟨growths, within, above, ?_⟩⟩
    · exact absurd room (Table.never_roomy crowded above other)
    · rw [← hlast]
      exact hanswer

/-- Keys that are multiples of four: the fourth of them finds room in sixteen cells only, after two
growths. -/
theorem Store.storing_outcome_twice :
    let acts : List Store.Act := [.realm .register, .realm (.move 0 .acquire),
      .call 0 (.insert ⟨0, 1⟩), .call 0 (.insert ⟨4, 1⟩), .call 0 (.insert ⟨8, 1⟩)]
    ∃ s₀, Store.make ⟨1, 128, 64, .standard, 128⟩ id .ordinary = .ok s₀ ∧
      let s := (s₀.run acts).1
      (s.realm.pinned? 0).isSome = true ∧ (∀ j, s.hold? j = none) ∧ 12 ∉ s.table.keys ∧
      s.table.memory.Affords ⟨1, 128, 64, .standard, 128⟩ ∧
      (s.apply (.call 0 (.store ⟨12, 1⟩ false))).2.1 = .result (.flag true) ∧
      (s.apply (.call 0 (.store ⟨12, 1⟩ false))).1.table.block.cellCount = 16 ∧
      (s.apply (.call 0 (.store ⟨12, 1⟩ false))).2.2
        = [.deferred 0 ⟨0, .discard 1⟩, .deferred 0 ⟨1, .discard 4⟩] := by
  intro acts
  refine ⟨_, rfl, ?_⟩
  obtain ⟨_, houtcome⟩ := @Store.storing_outcome id ⟨1, 128, 64, .standard, 128⟩ .ordinary _ rfl acts
  generalize hs : (Store.run _ acts).1 = s at houtcome ⊢
  have hcount : s.table.block.cellCount = 1 := by
    rw [← hs]
    decide +kernel
  have hkeys : s.table.keys = {0, 4, 8} := by
    rw [← hs]
    decide +kernel
  have hissued : s.realm.issued = 0 := by
    rw [← hs]
    decide +kernel
  have hpin : (s.realm.pinned? 0).isSome = true := by
    rw [← hs]
    decide +kernel
  have hheld : ∀ j, s.hold? j = none := by
    subst hs
    exact fun j => rfl
  have hmemory : s.table.memory = .ordinary := by
    subst hs
    rfl
  have haffords : Memory.Affords .ordinary ⟨1, 128, 64, .standard, 128⟩ :=
    Memory.affords_iff.mpr (by decide +kernel)
  have habsent : 12 ∉ s.table.keys := by
    rw [hkeys]
    decide
  obtain ⟨hroom, _⟩ := houtcome 0 ⟨12, 1⟩ false hpin hheld habsent (hmemory ▸ haffords)
  simp only [hcount, hkeys, hissued, Settings.Roomy] at hroom
  obtain ⟨growths, hfits, hleast, hanswer, hcells, hevents⟩ := hroom ⟨2, by decide +kernel⟩
  have hgrowths : growths = 2 := by
    by_contra hne
    by_cases hmore : 2 < growths
    · exact hleast 2 hmore (by decide +kernel)
    · obtain rfl | rfl : growths = 0 ∨ growths = 1 := by omega
      · exact absurd hfits (by decide +kernel)
      · exact absurd hfits (by decide +kernel)
  subst hgrowths
  exact ⟨hpin, hheld, habsent, hmemory ▸ haffords, hanswer, hcells, hevents⟩

end EpochTable
