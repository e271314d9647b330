import EpochTable.Proofs.BlockLayouts
import EpochTable.Proofs.SingleGrowth

namespace EpochTable

variable {f : Footprint} {align : UInt64} {settings : Settings} {memory : Memory}

/-- The sizes of the blocks that maps with these settings can come to make: a first one, and after any of
them the next one, wherever the settings and the memory at that time allow it. -/
inductive Footprint.Creates (f : Footprint) (settings : Settings) : Nat → Nat → Prop
  | first (memory : Memory) (within : settings.firstCells ≤ settings.maxCells.toNat)
      (reserved : f.reserve memory settings.firstCells (settings.shelvesFor settings.firstCells) = .ok ()) :
      Creates f settings settings.firstCells (settings.shelvesFor settings.firstCells)
  | next {cells shelves : Nat} (memory : Memory) (before : Creates f settings cells shelves)
      (within : cells * growthFactor ≤ settings.maxCells.toNat)
      (reserved : f.reserve memory (cells * growthFactor)
        (settings.shelvesFor (cells * growthFactor)) = .ok ()) :
      Creates f settings (cells * growthFactor) (settings.shelvesFor (cells * growthFactor))

/-- Everything that is computed with the size of a block is exact. The calculations with words give the
results that numbers would give. -/
structure Settings.SizesExact (s : Settings) (cells shelves : Nat) : Prop where
  multiple : ∃ j, cells = s.firstCells * 4 ^ j
  power : ∃ k, cells = 2 ^ k
  bounded : cells ≤ s.maxCells.toNat
  words : (UInt64.ofNat cells).toNat = cells ∧ (UInt64.ofNat shelves).toNat = shelves
  ratio : (s.shelvesWord (.ofNat cells)).Gives shelves
  capacity : (Block.capacityWord (.ofNat cells) (.ofNat shelves)).Gives (cells * 3 + shelves * 10)
  growth : (Exact.mul (.ofNat cells) 4).Gives (cells * 4)
  next : s.nextWord (.ofNat cells) =
    if cells * 4 ≤ s.maxCells.toNat then .ok (.ofNat (cells * 4))
    else .error (.capacityOverflow (cells * 4))
  nextRatio : (s.shelvesWord (.ofNat (cells * 4))).Gives (s.shelvesFor (cells * 4))
  probe : ∀ hash offset, offset < shelves →
    (Pool.probeWord (.ofNat shelves) hash (.ofNat offset)).Gives ((hash.toNat % shelves + offset) % shelves)

theorem powerAbove_eq_two_pow (n : Nat) : ∃ k, powerAbove n = 2 ^ k := by
  unfold powerAbove
  split
  · exact ⟨0, rfl⟩
  · exact ⟨_, Nat.one_shiftLeft _⟩

theorem Settings.firstCells_eq_two_pow (s : Settings) : ∃ k, s.firstCells = 2 ^ k := by
  obtain ⟨k, hk⟩ := powerAbove_eq_two_pow s.initialCells.toNat
  rw [Settings.firstCells, hk]
  rcases Nat.le_total (2 ^ k) (1 <<< 63) with h | h
  · exact ⟨k, Nat.min_eq_left h⟩
  · exact ⟨63, Nat.min_eq_right h⟩

theorem Settings.shelvesFor_le (s : Settings) (cells : Nat) : s.shelvesFor cells ≤ cells :=
  Nat.div_le_self _ _

/-- The ratio that is divided by is never zero. -/
theorem Settings.shelvesWord_gives (s : Settings) (cells : UInt64) :
    (s.shelvesWord cells).Gives (s.shelvesFor cells.toNat) := by
  have hratio : (max s.overflowRatio 1).toNat = max 1 s.overflowRatio.toNat :=
    (UInt64.toNat_max _ _).trans (Nat.max_comm _ _)
  have hgives := Exact.div_gives cells (y := max s.overflowRatio 1) (by omega)
  rwa [hratio] at hgives

theorem Pool.probeWord_gives (shelves hash offset : UInt64)
    (hbound : shelves.toNat ≤ 2 ^ 63) (h : offset.toNat < shelves.toNat) :
    (Pool.probeWord shelves hash offset).Gives
      ((hash.toNat % shelves.toNat + offset.toNat) % shelves.toNat) := by
  have hwords : UInt64.size = 2 ^ 64 := by decide
  obtain ⟨start, hstart, hstartNat⟩ := Exact.rem_gives hash (y := shelves) (by omega)
  have hlt : start.toNat < shelves.toNat := hstartNat ▸ Nat.mod_lt _ (by omega)
  obtain ⟨sum, hsum, hsumNat⟩ := Exact.add_gives (x := start) (y := offset) (by omega)
  obtain ⟨home, hhome, hhomeNat⟩ := Exact.rem_gives sum (y := shelves) (by omega)
  refine ⟨home, ?_, by rw [hhomeNat, hsumNat, hstartNat]⟩
  rw [Pool.probeWord, hstart]
  simp only [bind, Except.bind, hsum, hhome]

/-- What could be reserved is so small that thirteen times as many cells still fit. -/
theorem Footprint.Proper.cells_le (h : f.Proper align) {cells shelves : Nat}
    (hreserved : f.reserve memory cells shelves = .ok ()) : cells ≤ 2 ^ 57 := by
  have hlimit : Footprint.limit = 2 ^ 63 - 64 := by decide
  obtain ⟨hdvd, hpos, _⟩ := h.cell
  have hsize : 64 ≤ f.cell := Nat.le_trans h.aligns.least (Nat.le_of_dvd hpos hdvd)
  have hmul : cells * 64 ≤ cells * f.cell := Nat.mul_le_mul_left _ hsize
  rw [Footprint.reserve] at hreserved
  split at hreserved
  next => cases hreserved
  next hbelow => omega

theorem Settings.sizesExact (s : Settings) {cells : Nat} (hsmall : cells ≤ 2 ^ 57)
    (hmultiple : ∃ j, cells = s.firstCells * 4 ^ j) (hbounded : cells ≤ s.maxCells.toNat) :
    s.SizesExact cells (s.shelvesFor cells) := by
  have hwords : UInt64.size = 2 ^ 64 := by decide
  have hshelves := s.shelvesFor_le cells
  have hcellsNat : (UInt64.ofNat cells).toNat = cells := UInt64.toNat_ofNat_of_lt' (by omega)
  have hshelvesNat : (UInt64.ofNat (s.shelvesFor cells)).toNat = s.shelvesFor cells :=
    UInt64.toNat_ofNat_of_lt' (by omega)
  have hnextNat : (UInt64.ofNat (cells * 4)).toNat = cells * 4 := UInt64.toNat_ofNat_of_lt' (by omega)
  have hratio := s.shelvesWord_gives (.ofNat cells)
  have hnextRatio := s.shelvesWord_gives (.ofNat (cells * 4))
  rw [hcellsNat] at hratio
  rw [hnextNat] at hnextRatio
  have hgrowth : (Exact.mul (.ofNat cells) 4).Gives (cells * 4) := by
    have hgives := Exact.mul_gives (x := .ofNat cells) (y := 4) (by
      show _ * 4 < _
      omega)
    rwa [hcellsNat] at hgives
  refine ⟨hmultiple, ?_, hbounded, ⟨hcellsNat, hshelvesNat⟩, hratio, ?_, hgrowth, ?_, hnextRatio, ?_⟩
  · obtain ⟨j, rfl⟩ := hmultiple
    obtain ⟨k, hk⟩ := s.firstCells_eq_two_pow
    exact ⟨k + 2 * j, by rw [hk, Nat.pow_add, Nat.pow_mul]⟩
  · obtain ⟨slots, hslots, hslotsNat⟩ := Exact.mul_gives (x := .ofNat cells) (y := .ofNat inlineSlots)
      (by show _ * 3 < _; omega)
    obtain ⟨items, hitems, hitemsNat⟩ := Exact.mul_gives (x := .ofNat (s.shelvesFor cells))
      (y := .ofNat shelfItems) (by show _ * 10 < _; omega)
    have hthree : (UInt64.ofNat inlineSlots).toNat = 3 := by decide
    have hten : (UInt64.ofNat shelfItems).toNat = 10 := by decide
    rw [hcellsNat, hthree] at hslotsNat
    rw [hshelvesNat, hten] at hitemsNat
    obtain ⟨sum, hsum, hsumNat⟩ := Exact.add_gives (x := slots) (y := items) (by omega)
    refine ⟨sum, ?_, by rw [hsumNat, hslotsNat, hitemsNat]⟩
    rw [Block.capacityWord, hslots]
    simp only [bind, Except.bind, hitems, hsum]
  · obtain ⟨next, hmul, hmulNat⟩ := hgrowth
    have hnext : next = .ofNat (cells * 4) := UInt64.toNat_inj.mp (hmulNat.trans hnextNat.symm)
    have hmul' : Exact.mul (.ofNat cells) (.ofNat growthFactor) = .ok next := hmul
    rw [Settings.nextWord, hmul']
    simp only [UInt64.le_iff_toNat_le, hmulNat]
    rw [hnext]
  · intro hash offset hoffset
    have hoffsetNat : (UInt64.ofNat offset).toNat = offset := UInt64.toNat_ofNat_of_lt' (by omega)
    have hgives := Pool.probeWord_gives (.ofNat (s.shelvesFor cells)) hash (.ofNat offset)
      (by omega) (by omega)
    rwa [hshelvesNat, hoffsetNat] at hgives

theorem Footprint.Creates.sizesExact {cells shelves : Nat} (h : f.Proper align)
    (hc : f.Creates settings cells shelves) : settings.SizesExact cells shelves := by
  induction hc with
  | first _ within reserved =>
    exact settings.sizesExact (h.cells_le reserved) ⟨0, (Nat.mul_one _).symm⟩ within
  | next _ _ within reserved ih =>
    obtain ⟨j, hj⟩ := ih.multiple
    refine settings.sizesExact (h.cells_le reserved) ⟨j + 1, ?_⟩ within
    rw [hj, Nat.pow_succ, Nat.mul_assoc]
    rfl

/-- The blocks that a growth makes one after another, also those that turn out too small. -/
def Block.candidates (source : Block) (settings : Settings) (hash : UInt64 → UInt64) (memory : Memory) :
    Nat → Nat → List Block
  | 0, _ => []
  | rounds + 1, cells =>
    let next := cells * growthFactor
    if next < cellLimit ∧ next ≤ settings.maxCells.toNat then
      match Block.allocate .words memory next (settings.shelvesFor next) with
      | .error _ => []
      | .ok candidate =>
        if (candidate.absorb source hash).1 then [candidate]
        else candidate :: source.candidates settings hash memory rounds next
    else []

theorem Block.reserve_of_allocate {b : Block} {m n : Nat} (h : Block.allocate f memory m n = .ok b) :
    f.reserve memory m n = .ok () := by
  unfold Block.allocate at h
  cases hreserve : f.reserve memory m n with
  | error fault => simp [hreserve, Except.map] at h
  | ok _ => rfl

theorem Block.cellCount_placeAll {b b' : Block} {hash : UInt64 → UInt64} {entries : List Entry}
    {complete : Bool} (h : b.placeAll hash entries = (complete, b')) : b'.cellCount = b.cellCount := by
  induction entries generalizing b with
  | nil =>
    cases h
    rfl
  | cons e entries ih =>
    unfold Block.placeAll at h
    split at h
    next =>
      cases h
      rfl
    next block hplace =>
      refine (ih h).trans ?_
      obtain ⟨_, rfl⟩ | ⟨item, pool, _, _, rfl⟩ := Block.place_eq_some hplace
      · exact Array.size_setIfInBounds
      · exact Array.size_setIfInBounds

section

variable {source b : Block} {hash : UInt64 → UInt64} {rounds m n : Nat} {t t' : Table} {e : Entry}
  {update : Bool} {retired : List Job} {s : Store}

theorem Footprint.Creates.empty (h : f.Creates settings m n) :
    f.Creates settings (Block.empty m n).cellCount (Block.empty m n).shelfCount := by
  rwa [Block.cellCount, Block.shelfCount, Block.empty, Array.size_replicate, Pool.full,
    Array.size_replicate]

theorem Footprint.Creates.candidates (h : Footprint.words.Creates settings m n) :
    ∀ c ∈ source.candidates settings hash memory rounds m,
      Footprint.words.Creates settings c.cellCount c.shelfCount := by
  induction rounds generalizing m n with
  | zero => exact fun _ hc => nomatch hc
  | succ rounds ih =>
    intro c hc
    unfold Block.candidates at hc
    simp only at hc
    split at hc
    next hwithin =>
      split at hc
      next => cases hc
      next candidate halloc =>
        have hnext := h.next memory hwithin.2 (Block.reserve_of_allocate halloc)
        cases Block.eq_empty_of_allocate halloc
        split at hc
        next => exact List.mem_singleton.mp hc ▸ hnext.empty
        next =>
          rcases List.mem_cons.mp hc with rfl | hc
          · exact hnext.empty
          · exact ih hnext c hc
    next => cases hc

/-- The block that a growth ends with is the last one that it has made. -/
theorem Block.successor_mem_candidates (h : source.successor settings hash memory rounds m = .ok b) :
    ∃ c ∈ source.candidates settings hash memory rounds m,
      b.cellCount = c.cellCount ∧ b.shelfCount = c.shelfCount := by
  induction rounds generalizing m with
  | zero => cases h
  | succ rounds ih =>
    unfold Block.successor at h
    simp only at h
    split at h
    next hwithin =>
      split at h
      next => cases h
      next candidate halloc =>
        have hlist : source.candidates settings hash memory (rounds + 1) m
            = if (candidate.absorb source hash).1 then [candidate]
              else candidate :: source.candidates settings hash memory rounds (m * growthFactor) := by
          simp only [Block.candidates, if_pos hwithin, halloc]
        rw [hlist]
        split at h
        next block habsorb =>
          cases h
          rw [habsorb, if_pos rfl]
          exact ⟨candidate, List.mem_singleton_self _, Block.cellCount_placeAll habsorb,
            Block.shelfCount_placeAll habsorb⟩
        next block habsorb =>
          rw [habsorb, if_neg Bool.false_ne_true]
          obtain ⟨c, hc, hsize⟩ := ih h
          exact ⟨c, List.mem_cons_of_mem _ hc, hsize⟩
    next => cases h

/-- The block of the table is one that can come to be made. -/
structure Table.Created (t : Table) (settings : Settings) : Prop where
  asked : t.settings = settings
  created : Footprint.words.Creates settings t.block.cellCount t.block.shelfCount

theorem Table.Alike.created (h : t.Alike t') (hc : t.Created settings) : t'.Created settings := by
  refine ⟨h.settings.trans hc.asked, ?_⟩
  rw [h.cells, h.shelves]
  exact hc.created

theorem Table.Created.grow {stored : Stored Unit} (h : t.Created settings)
    (hg : t.grow = some stored) : stored.table.Created settings := by
  unfold Table.grow at hg
  split at hg
  next => cases hg
  next =>
    obtain ⟨replaced, hreplace, rfl⟩ := Option.map_eq_some_iff.mp hg
    unfold Table.replaceBlock at hreplace
    split at hreplace
    next => cases hreplace
    next =>
      have hlocked : t.block.lockAll.cellCount = t.block.cellCount := t.block.cellCount_lockAll
      have hunlocked : t.block.lockAll.forceUnlockAll.cellCount = t.block.cellCount :=
        (Array.size_map ..).trans hlocked
      simp only at hreplace
      split at hreplace
      next =>
        cases Option.some.inj hreplace
        refine ⟨h.asked, ?_⟩
        show Footprint.words.Creates _ t.block.lockAll.forceUnlockAll.cellCount t.block.shelfCount
        rw [hunlocked]
        exact h.created
      next block hblock =>
        cases Option.some.inj hreplace
        refine ⟨h.asked, ?_⟩
        show Footprint.words.Creates _ block.cellCount block.shelfCount
        obtain ⟨c, hc, hcells, hshelves⟩ := Block.successor_mem_candidates hblock
        rw [hcells, hshelves]
        rw [h.asked, hlocked] at hc
        exact h.created.candidates c hc

theorem Table.Created.full {full : Table} (h : t.Created settings)
    (ha : t.attempt e update = .full full) : full.Created settings :=
  (Table.alike_attempt (by rw [ha]; rfl)).created h

theorem Table.Created.passes (h : t.Created settings) (hp : t.Passes e update t' retired) :
    t'.Created settings := by
  induction hp with
  | start t => exact h
  | grown attempt grow _ ih => exact ih ((h.full attempt).grow grow)

theorem Table.Created.store {stored : Stored Bool} (h : t.Created settings)
    (hs : t.store e update = some stored) : stored.table.Created settings := by
  obtain ⟨last, before, final, hpasses, hsettles, rfl⟩ := Table.exists_passes hs
  have hlast := h.passes hpasses
  cases hsettles with
  | done inserted t' attempt =>
    have halike : last.Alike t' := Table.alike_attempt (by rw [attempt]; rfl)
    exact halike.created hlast
  | failed fault full t' jobs attempt grow =>
    have hgrown := (hlast.full attempt).grow grow
    exact hgrown

theorem Store.created_apply (h : s.table.Created settings) (act : Store.Act) :
    (s.apply act).1.table.Created settings := by
  rcases s.alike_apply act with ⟨e, update, stored, hstored, htable⟩ | halike
  · rw [htable]
    exact h.store hstored
  · exact halike.created h

theorem Store.created_run (h : s.table.Created settings) (acts : List Store.Act) :
    (s.run acts).1.table.Created settings := by
  induction acts generalizing s with
  | nil => exact h
  | cons act acts ih => exact ih (Store.created_apply h act)

theorem Store.created_make (h : Store.make settings hash memory = .ok s) :
    s.table.Created settings := by
  unfold Store.make Table.make at h
  simp only at h
  split at h
  next => cases h
  next hle =>
    cases hblock : Block.allocate .words memory settings.firstCells
      (settings.shelvesFor settings.firstCells) with
    | error fault => simp [hblock, Except.map] at h
    | ok block =>
      simp only [hblock, Except.map, Except.ok.injEq] at h
      subst h
      have hfirst := Footprint.Creates.first memory (Nat.not_lt.mp hle) (Block.reserve_of_allocate hblock)
      cases Block.eq_empty_of_allocate hblock
      exact ⟨rfl, hfirst.empty⟩

end

/-- The size of a block is exact. First, for every block that is asked for, making it with words is making
it with numbers: it is refused as too large exactly if its cells, its shelves or both together take more
than `2 ^ 63 - 64` bytes, and nothing wraps before that is known. Second, whatever is computed with the
size of a block that settings and memory allow is exact. Third, a store makes no other blocks, those in
the middle of a growth and those thrown away included. -/
theorem Block.sizes_exact :
    (∀ (f : Footprint) (align : UInt64), f.Proper align → ∀ memory cells shelves,
      Block.allocateWord f align memory cells shelves
        = .ok (Block.allocate f memory cells.toNat shelves.toNat) ∧
      (Block.allocate f memory cells.toNat shelves.toNat = .error (.capacityOverflow cells.toNat) ↔
        cells.toNat * f.cell > 2 ^ 63 - 64 ∨ shelves.toNat * f.shelf > 2 ^ 63 - 64 ∨
          cells.toNat * f.cell + shelves.toNat * f.shelf > 2 ^ 63 - 64)) ∧
    (∀ (f : Footprint) (align : UInt64), f.Proper align → ∀ settings cells shelves,
      f.Creates settings cells shelves → settings.SizesExact cells shelves) ∧
    ∀ settings hash memory s₀, Store.make settings hash memory = .ok s₀ → ∀ acts e update t retired,
      (s₀.run acts).1.table.Passes e update t retired →
      let made := t.block :: t.block.lockAll.candidates t.settings t.hash t.memory growthRounds
        t.block.cellCount
      ∀ b ∈ made, Footprint.words.Creates settings b.cellCount b.shelfCount ∧
        settings.SizesExact b.cellCount b.shelfCount := by
  refine ⟨fun f align h memory cells shelves => ⟨h.allocateWord memory cells shelves, ?_⟩,
    fun f align h settings cells shelves hc => hc.sizesExact h, ?_⟩
  · exact Block.allocate_eq_capacityOverflow_iff f memory _ _
  · intro settings hash memory s₀ hmake acts e update t retired hpasses made b hb
    have ht := (Store.created_run (Store.created_make hmake) acts).passes hpasses
    have hcreated : Footprint.words.Creates settings b.cellCount b.shelfCount := by
      rcases List.mem_cons.mp hb with rfl | hc
      · exact ht.created
      · rw [ht.asked] at hc
        exact ht.created.candidates b hc
    exact ⟨hcreated, hcreated.sizesExact Footprint.proper_words⟩

/-- A block whose cells alone take `2 ^ 63` bytes is refused. With a wish for five cells, a ratio of zero
and the greatest limit there is, the first block has eight cells and as many shelves, and the next one
has thirty-two. -/
theorem Block.sizes_exact_words :
    Block.allocate .words .ordinary (2 ^ 57) 0 = .error (.capacityOverflow (2 ^ 57)) ∧
      ∃ s₀, Store.make ⟨5, 0, 18446744073709551615, .standard, 128⟩ id (fun _ => true) = .ok s₀ ∧
        Settings.SizesExact ⟨5, 0, 18446744073709551615, .standard, 128⟩ 8 8 ∧
        Settings.SizesExact ⟨5, 0, 18446744073709551615, .standard, 128⟩ 32 32 := by
  obtain ⟨hasked, _, hmade⟩ := Block.sizes_exact
  refine ⟨(hasked .words 64 Footprint.proper_words .ordinary 144115188075855872 0).2.mpr (.inl ?_),
    _, rfl, ?_⟩
  · show 144115188075855872 * 64 > 2 ^ 63 - 64
    omega
  · have hblocks := hmade ⟨5, 0, 18446744073709551615, .standard, 128⟩ id (fun _ => true) _ rfl []
      ⟨0, 0⟩ false _ _ (.start _)
    refine ⟨(hblocks _ List.mem_cons_self).2, (hblocks (Block.empty 32 32) ?_).2⟩
    refine List.mem_cons_of_mem _ ?_
    decide +kernel

end EpochTable
