import EpochTable.Proofs.BlockRoom
import EpochTable.Proofs.FailedGrowth
import EpochTable.Proofs.StrayQueries

namespace EpochTable

variable {t t' : Table} {b : Block} {hash : UInt64 → UInt64} {d : Dict} {e : Entry} {update : Bool}
  {settings : Settings} {memory : Memory} {retired : List Job} {s : Store} {w : Ideal}

/-- The block has the shelves that the settings ask for, and no more cells than they allow. -/
structure Table.Sized (t : Table) (settings : Settings) : Prop where
  asked : t.settings = settings
  shelves : t.block.shelfCount = settings.shelvesFor t.block.cellCount
  bounded : t.block.cellCount ≤ settings.maxCells.toNat

theorem Table.Alike.sized (h : t.Alike t') (hs : t.Sized settings) : t'.Sized settings := by
  refine ⟨h.settings.trans hs.asked, ?_, ?_⟩
  · rw [h.shelves, h.cells]
    exact hs.shelves
  · rw [h.cells]
    exact hs.bounded

/-- The cells of the next block to be tried. -/
def Table.nextCells (t : Table) : Nat := t.block.cellCount * growthFactor

theorem Settings.shelvesFor_mono (settings : Settings) {m n : Nat} (h : m ≤ n) :
    settings.shelvesFor m ≤ settings.shelvesFor n :=
  Nat.div_le_div_right h

/-- All entries find room in the first block that is tried. -/
theorem Table.Represents.absorb_first (h : t.Represents d) (hs : t.Sized settings) :
    ((Block.empty t.nextCells (settings.shelvesFor t.nextCells)).absorb t.block.lockAll t.hash).1
      = true := by
  have hcells : t.block.lockAll.cellCount = t.block.cellCount := t.block.cellCount_lockAll
  have hfactor : 0 < growthFactor := by decide
  have hmore : t.block.cellCount ≤ t.nextCells := Nat.le_mul_of_pos_right _ hfactor
  have hshelves : t.block.lockAll.shelfCount ≤ settings.shelvesFor t.nextCells :=
    Nat.le_trans (Nat.le_of_eq hs.shelves) (settings.shelvesFor_mono hmore)
  have hroom := h.holds.lockAll.absorb_larger (hcells ▸ h.nonempty) hfactor hshelves
  rwa [hcells] at hroom

/-- Where the first block that is tried has room for everything, none is tried after it. -/
theorem Block.successor_first {cells : Nat} (hroom : ((Block.empty (cells * growthFactor)
      (settings.shelvesFor (cells * growthFactor))).absorb b hash).1 = true) (rounds : Nat) :
    b.successor settings hash memory (rounds + 1) cells
      = if cells * growthFactor ≤ settings.maxCells.toNat then
          (Block.allocate .words memory (cells * growthFactor)
            (settings.shelvesFor (cells * growthFactor))).map fun first => (first.absorb b hash).2
        else .error (.capacityOverflow (min (cells * growthFactor) (cellLimit - 1))) := by
  have hlimit : settings.maxCells.toNat < cellLimit := settings.maxCells.toNat_lt
  unfold Block.successor
  by_cases hle : cells * growthFactor ≤ settings.maxCells.toNat
  · simp only
    rw [if_pos ⟨by omega, hle⟩, if_pos hle]
    cases halloc : Block.allocate .words memory (cells * growthFactor)
        (settings.shelvesFor (cells * growthFactor)) with
    | error fault => rfl
    | ok first =>
      cases Block.eq_empty_of_allocate halloc
      simp only [Except.map]
      generalize (Block.empty _ _).absorb b hash = absorbed at hroom ⊢
      obtain ⟨complete, block⟩ := absorbed
      simp only at hroom
      rw [hroom]
  · simp only
    rw [if_neg fun h => hle h.2, if_neg hle]

/-- What becomes of the first block that is tried: it is over the limit, or there is no memory for it,
or it takes all entries. -/
inductive Table.NextBlock (t : Table) (settings : Settings) (d : Dict) : Except Fault Block → Prop where
  | tooLarge (above : settings.maxCells.toNat < t.nextCells) :
      NextBlock t settings d (.error (.capacityOverflow (min t.nextCells (cellLimit - 1))))
  | refused (fault : Fault) (within : t.nextCells ≤ settings.maxCells.toNat)
      (refuses : Block.allocate .words t.memory t.nextCells (settings.shelvesFor t.nextCells)
        = .error fault) :
      NextBlock t settings d (.error fault)
  | filled (block : Block) (within : t.nextCells ≤ settings.maxCells.toNat)
      (fills : block.Filling t.hash t.nextCells d)
      (shelves : block.shelfCount = settings.shelvesFor t.nextCells) :
      NextBlock t settings d (.ok block)

theorem Table.Represents.nextBlock (h : t.Represents d) (hs : t.Sized settings) :
    t.NextBlock settings d
      (t.block.lockAll.successor settings t.hash t.memory growthRounds t.block.cellCount) := by
  have hroom := h.absorb_first hs
  have hfirst : t.block.lockAll.successor settings t.hash t.memory growthRounds t.block.cellCount
      = _ := Block.successor_first hroom 39
  rw [hfirst]
  split
  next hle =>
    cases halloc : Block.allocate .words t.memory (t.block.cellCount * growthFactor)
        (settings.shelvesFor (t.block.cellCount * growthFactor)) with
    | error fault => exact .refused fault hle halloc
    | ok first =>
      cases Block.eq_empty_of_allocate halloc
      have hsource : 0 < t.block.lockAll.cellCount := t.block.cellCount_lockAll ▸ h.nonempty
      have hnext : 0 < t.nextCells := Nat.mul_pos h.nonempty (by decide)
      have hshelves : (Block.empty t.nextCells (settings.shelvesFor t.nextCells)).shelfCount
          = settings.shelvesFor t.nextCells := Array.size_replicate
      have habsorb := Prod.ext (y := (true, _)) hroom rfl
      have hfills := h.holds.lockAll.absorbed hsource hnext habsorb
      exact .filled _ hle hfills ((Block.shelfCount_placeAll habsorb).trans hshelves)
  next hgt => exact .tooLarge (Nat.lt_of_not_le hgt)

def Table.withBlock (t : Table) (block : Block) : Table := { t with block := block }

/-- The table after the next block was made, or after that has failed. -/
def Table.grownTo (t : Table) : Except Fault Block → Stored Unit
  | .error fault => ⟨.error fault, t, []⟩
  | .ok block => ⟨.ok (), t.withBlock block, [.discard t.block.cellCount]⟩

/-- A table that nobody holds a cell of grows at once or fails at once. -/
theorem Table.Represents.grow_eq (h : t.Represents d) (hs : t.Sized settings)
    (free : t.block.hasLock = false) :
    ∃ next, t.NextBlock settings d next ∧ t.grow = some (t.grownTo next) := by
  refine ⟨_, h.nextBlock hs, ?_⟩
  obtain rfl := hs.asked
  have hcells : t.block.lockAll.cellCount = t.block.cellCount := t.block.cellCount_lockAll
  have hsame : t.block.lockAll.forceUnlockAll = t.block := Block.forceUnlockAll_lockAll free
  have hidle := h.idle
  have hback : ∀ block, { t with block := block, growing := false } = t.withBlock block :=
    fun block => by rw [Table.withBlock, ← hidle]
  have hself : t.withBlock t.block = t := rfl
  rw [Table.grow, hidle, if_neg Bool.false_ne_true, Table.replaceBlock]
  simp only [free, hcells, hsame]
  generalize t.block.lockAll.successor _ _ _ _ _ = next
  cases next with
  | error fault =>
    simp only [Bool.false_eq_true, if_false, Option.map_some, Table.grownTo, hback, hself]
  | ok block =>
    simp only [Bool.false_eq_true, if_false, Option.map_some, Table.grownTo, hback]

theorem Table.grow_unlocked {stored : Stored Unit} (h : t.Represents d)
    (hg : t.grow = some stored) : t.block.hasLock = false := by
  rw [← Bool.not_eq_true, ← Table.grow_eq_none h, hg]
  exact Option.some_ne_none _

/-- A table that has grown is a table of the next size. -/
structure Table.Grew (t t' : Table) (settings : Settings) (d : Dict) : Prop where
  represents : t'.Represents d
  sized : t'.Sized settings
  cells : t'.block.cellCount = t.nextCells
  hash : t'.hash = t.hash
  memory : t'.memory = t.memory
  unlocked : t'.block.hasLock = false

theorem Table.Represents.grew {block : Block} (h : t.Represents d) (hs : t.Sized settings)
    (hn : t.NextBlock settings d (.ok block)) : t.Grew (t.withBlock block) settings d := by
  cases hn with
  | filled _ within fills shelves =>
    have hpos : 0 < t.nextCells := Nat.mul_pos h.nonempty (by decide)
    have hlimit : settings.maxCells.toNat < cellLimit := settings.maxCells.toNat_lt
    have hcells : (t.withBlock block).block.cellCount = t.nextCells := fills.size
    refine ⟨⟨fills.holds, ?_, ?_, h.idle⟩, ⟨hs.asked, ?_, ?_⟩, hcells, rfl, rfl, ?_⟩
    · omega
    · omega
    · rw [hcells]
      exact shelves
    · omega
    · exact Block.hasLock_eq_false.mpr fills.unlocked

theorem Table.Represents.grow_ok (h : t.Represents d) (hs : t.Sized settings)
    (hg : t.grow = some ⟨.ok (), t', retired⟩) :
    t.Grew t' settings d ∧ retired = [.discard t.block.cellCount] := by
  obtain ⟨next, hnext, heq⟩ := h.grow_eq hs (Table.grow_unlocked h hg)
  rw [hg] at heq
  cases next with
  | error fault => cases heq
  | ok block =>
    cases heq
    exact ⟨h.grew hs hnext, rfl⟩

theorem Table.Represents.grow_error_cases {fault : Fault} (h : t.Represents d)
    (hs : t.Sized settings) (hg : t.grow = some ⟨.error fault, t', retired⟩) :
    (settings.maxCells.toNat < t.nextCells ∧
        fault = .capacityOverflow (min t.nextCells (cellLimit - 1))) ∨
      t.nextCells ≤ settings.maxCells.toNat ∧
        Block.allocate .words t.memory t.nextCells (settings.shelvesFor t.nextCells) = .error fault := by
  obtain ⟨next, hnext, heq⟩ := h.grow_eq hs (Table.grow_unlocked h hg)
  rw [hg] at heq
  cases next with
  | error reason =>
    cases heq
    cases hnext with
    | tooLarge above => exact .inl ⟨above, rfl⟩
    | refused _ within refuses => exact .inr ⟨within, refuses⟩
  | ok block => cases heq

theorem Table.Represents.sized_passes (h : t.Represents d) (hs : t.Sized settings)
    (hp : t.Passes e update t' retired) : t'.Sized settings := by
  induction hp with
  | start t => exact hs
  | grown attempt grow _ ih =>
    obtain ⟨rfl, _⟩ := h.of_full attempt
    obtain ⟨hgrew, _⟩ := h.grow_ok hs grow
    exact ih hgrew.represents hgrew.sized

theorem Table.Represents.sized_store {stored : Stored Bool} (h : t.Represents d)
    (hs : t.Sized settings) (hstore : t.store e update = some stored) :
    stored.table.Sized settings := by
  obtain ⟨last, before, final, hpasses, hsettles, rfl⟩ := Table.exists_passes hstore
  exact ((h.passes hpasses).1.alike_settles hsettles).sized (h.sized_passes hs hpasses)

/-- An act stores an entry, or it leaves the size of the block alone. -/
theorem Store.alike_apply (s : Store) (act : Store.Act) :
    (∃ e update stored, s.table.store e update = some stored ∧ (s.apply act).1.table = stored.table) ∨
      s.table.Alike (s.apply act).1.table := by
  cases act with
  | realm act => exact .inr (Table.Alike.refl _)
  | call i call =>
    rcases s.call_cases i call with ⟨hsame, _⟩ | ⟨m, done, _, hdone, htable, _⟩
    · rw [hsame]
      exact .inr (Table.Alike.refl _)
    · rw [htable]
      rcases Table.alike_call hdone with ⟨e, update, stored, hstored, rfl⟩ | ⟨halike, _⟩
      · exact .inl ⟨e, update, stored, hstored, rfl⟩
      · exact .inr halike
  | updateHeld i value =>
    simp only [Store.apply]
    cases s.hold? i with
    | none => exact .inr (Table.Alike.refl _)
    | some hold => exact .inr (s.table.alike_setCell _ _)
  | releaseHeld i =>
    simp only [Store.apply]
    cases s.hold? i with
    | none => exact .inr (Table.Alike.refl _)
    | some hold => exact .inr (s.table.alike_setCell _ _)
  | setMemory memory => exact .inr ⟨rfl, rfl, rfl⟩

theorem Store.Simulates.sized_apply (h : s.Simulates hash w) (hs : s.table.Sized settings)
    (act : Store.Act) : (s.apply act).1.table.Sized settings := by
  rcases s.alike_apply act with ⟨e, update, stored, hstored, htable⟩ | halike
  · rw [htable]
    exact h.table.sized_store hs hstored
  · exact halike.sized hs

theorem Store.sized_make (h : Store.make settings hash memory = .ok s) :
    s.table.Sized settings := by
  unfold Store.make Table.make at h
  simp only at h
  split at h
  next => cases h
  next hle =>
    cases hblock : Block.allocate .words memory settings.firstCells
      (settings.shelvesFor settings.firstCells) with
    | error fault => simp [hblock, Except.map] at h
    | ok block =>
      simp only [hblock, Except.map, Except.ok.injEq] at h
      subst h
      cases Block.eq_empty_of_allocate hblock
      have hcells : (Block.empty settings.firstCells
          (settings.shelvesFor settings.firstCells)).cellCount = settings.firstCells :=
        Array.size_replicate
      refine ⟨rfl, ?_, ?_⟩
      · rw [hcells]
        exact Array.size_replicate
      · rw [hcells]
        omega

theorem Store.Simulates.run_any (h : s.Simulates hash w) (hs : s.table.Sized settings)
    (acts : List Store.Act) : ∃ w', (s.run acts).1.Simulates hash w' ∧
      (s.run acts).1.table.Sized settings := by
  induction acts generalizing s w with
  | nil => exact ⟨w, h, hs⟩
  | cons act acts ih =>
    obtain ⟨w', h'⟩ := h.apply_any act
    exact ih h' (h.sized_apply hs act)

/-- In every run, whatever is asked, the store stands for some dictionary, and its block has the size
that its settings ask for. -/
theorem Store.simulates_run (hmake : Store.make settings hash memory = .ok s)
    (acts : List Store.Act) : ∃ w, (s.run acts).1.Simulates hash w ∧
      (s.run acts).1.table.Sized settings :=
  (Store.simulates_make hmake).run_any (Store.sized_make hmake) acts

/-- Whatever the settings, the hash function and the run so far, in a table that a call comes to grow,
also after other growths of the same call, all entries find room in the first block that is tried: four
times the cells, with the shelves for that many. So there never is a second attempt; a growth that
succeeds makes four times as many cells, and one that fails is over the limit or finds no memory for
this first block. -/
theorem Store.first_block_suffices {s₀ : Store} (hmake : Store.make settings hash memory = .ok s₀)
    (acts : List Store.Act) :
    let s := (s₀.run acts).1
    ∀ e update t retired, s.table.Passes e update t retired →
      let cells := t.block.cellCount
      let next := cells * 4
      let shelves := settings.shelvesFor next
      ((Block.empty next shelves).absorb t.block.lockAll hash).1 = true ∧
      (∀ rounds, t.block.lockAll.successor settings hash t.memory (rounds + 1) cells
        = t.block.lockAll.successor settings hash t.memory 1 cells) ∧
      (∀ t' jobs, t.grow = some ⟨.ok (), t', jobs⟩ → t'.block.cellCount = next) ∧
      ∀ fault t' jobs, t.grow = some ⟨.error fault, t', jobs⟩ →
        (settings.maxCells.toNat < next ∧ fault = .capacityOverflow (min next (UInt64.size - 1))) ∨
        (next ≤ settings.maxCells.toNat ∧ Block.allocate .words t.memory next shelves = .error fault) := by
  intro s e update t retired hpasses cells next shelves
  obtain ⟨w, h, hs⟩ := Store.simulates_run hmake acts
  obtain ⟨ht, hrespects, _⟩ := h.table.passes hpasses
  have hsized := h.table.sized_passes hs hpasses
  have hroom := ht.absorb_first hsized
  rw [hrespects.hash, h.hash] at hroom
  refine ⟨hroom, fun rounds => ?_, fun t' jobs hgrow => ?_, fun fault t' jobs hgrow => ?_⟩
  · rw [Block.successor_first hroom rounds, Block.successor_first hroom 0]
  · exact (ht.grow_ok hsized hgrow).1.cells
  · exact ht.grow_error_cases hsized hgrow

/-- Forty-three keys that all hash alike fill one of four cells and take all forty items; sixteen cells
hold them just as well. -/
theorem Store.first_block_suffices_clustered :
    let acts : List Store.Act := [.realm .register, .realm (.move 0 .acquire)]
      ++ (List.range 43).map fun k => .call 0 (.insert ⟨UInt64.ofNat k, 1⟩)
    ∃ s₀, Store.make ⟨1, 1, 16, .standard, 128⟩ (fun _ => 0) (fun _ => true) = .ok s₀ ∧
      let t := (s₀.run acts).1.table
      t.block.cellCount = 4 ∧ t.block.pool.available = 0 ∧
      ((Block.empty 16 16).absorb t.block.lockAll fun _ => 0).1 = true ∧
      ∃ t' jobs, t.grow = some ⟨.ok (), t', jobs⟩ ∧ t'.block.cellCount = 16 := by
  intro acts
  refine ⟨_, rfl, ?_⟩
  have hfirst := @Store.first_block_suffices (fun _ => 0) ⟨1, 1, 16, .standard, 128⟩ (fun _ => true) _
    rfl acts ⟨43, 1⟩ false _ _ (.start _)
  generalize hs : (Store.run _ acts).1 = s at hfirst ⊢
  have hcells : s.table.block.cellCount = 4 := by
    rw [← hs]
    decide +kernel
  have hfull : s.table.block.pool.available = 0 := by
    rw [← hs]
    decide +kernel
  have hresult : s.table.grow.map Stored.result = some (.ok ()) := by
    rw [← hs]
    decide +kernel
  obtain ⟨⟨result, t', jobs⟩, hgrow, heq⟩ := Option.map_eq_some_iff.mp hresult
  cases heq
  simp only [hcells] at hfirst
  obtain ⟨hroom, _, hgrown, _⟩ := hfirst
  exact ⟨hcells, hfull, hroom, t', jobs, hgrow, hgrown t' jobs hgrow⟩

end EpochTable
