import EpochTable.Proofs.StoringOutcome

namespace EpochTable

variable {t t' t'' : Table} {hash : UInt64 → UInt64} {d d' : Dict} {e : Entry} {xs ys : List Entry}
  {settings : Settings} {memory : Memory} {s s' s'' : Store} {w w' : Ideal} {i : Nat}
  {wanted more : Finset UInt64} {m n : Nat}

def Dict.insertAll (d : Dict) (xs : List Entry) : Dict :=
  xs.foldl (fun d e => d.insert e.key e.value) d

theorem Dict.insertAll_cons (d : Dict) (e : Entry) (xs : List Entry) :
    d.insertAll (e :: xs) = Dict.insertAll (d.insert e.key e.value) xs := rfl

theorem Dict.keys_insertAll (d : Dict) (xs : List Entry) :
    (d.insertAll xs).keys = d.keys ∪ (xs.map Entry.key).toFinset := by
  induction xs generalizing d with
  | nil => rw [List.map_nil, List.toFinset_nil, Finset.union_empty, Dict.insertAll, List.foldl_nil]
  | cons e xs ih =>
    rw [Dict.insertAll_cons, ih, Dict.keys_insert, List.map_cons, List.toFinset_cons,
      Finset.union_insert, Finset.insert_union]

/-- The order in which distinct keys are added does not matter. -/
theorem Dict.insertAll_perm (d : Dict) (hxs : (xs.map Entry.key).Nodup) (h : xs.Perm ys) :
    d.insertAll xs = d.insertAll ys := by
  refine h.foldl_eq' (fun x hx y hy d => ?_) d
  by_cases hkey : x.key = y.key
  · rw [List.inj_on_of_nodup_map hxs hx hy hkey]
  · exact Finmap.insert_insert_of_ne _ hkey

/-- So often, and no less, the table has to grow before these keys find room. -/
structure Table.Requires (t : Table) (settings : Settings) (wanted : Finset UInt64)
    (growths : Nat) : Prop where
  crowded : ∀ k < growths, ¬ settings.Roomy t.hash wanted (t.cellsAfter k)
  roomy : settings.Roomy t.hash wanted (t.cellsAfter growths)

theorem Table.Requires.unique (h : t.Requires settings wanted m) (h' : t.Requires settings wanted n) :
    m = n := by
  have hle : ¬ m < n := fun hlt => h'.crowded m hlt h.roomy
  have hge : ¬ n < m := fun hlt => h.crowded n hlt h'.roomy
  omega

theorem Table.exists_requires (h : settings.Roomy t.hash wanted (t.cellsAfter n)) :
    ∃ m, t.Requires settings wanted m := by
  classical
  have hroomy : ∃ n, settings.Roomy t.hash wanted (t.cellsAfter n) := ⟨n, h⟩
  exact ⟨Nat.find hroomy, fun k hk => Nat.find_min hroomy hk, Nat.find_spec hroomy⟩

theorem Settings.Roomy.of_subset {cells : Nat} (h : settings.Roomy hash more cells)
    (hsub : wanted ⊆ more) : settings.Roomy hash wanted cells :=
  ⟨h.1, Nat.le_trans (demand_mono hsub) h.2⟩

/-- The keys that a table holds have room in it. -/
theorem Table.Represents.requires_zero (h : t.Represents d) (hs : t.Sized settings) :
    t.Requires settings d.keys 0 := by
  refine ⟨fun k hk => absurd hk (Nat.not_lt_zero k), ?_⟩
  have hroom := h.holds.available_add_demand
  have hitems : t.block.itemCount = t.block.shelfCount * shelfItems := rfl
  rw [hs.shelves, Nat.mul_comm] at hitems
  rw [t.cellsAfter_zero]
  exact ⟨hs.bounded, by omega⟩

theorem Table.memory_attempt {update : Bool} (h : (t.attempt e update).table? = some t') :
    t'.memory = t.memory := by
  unfold Table.attempt at h
  split at h
  next => cases h
  next => split at h <;> cases Option.some.inj h <;> rfl
  next =>
    split at h
    · cases Option.some.inj h
      rfl
    · split at h <;> cases Option.some.inj h <;> rfl

theorem Table.memory_grow {stored : Stored Unit} (h : t.grow = some stored) :
    stored.table.memory = t.memory := by
  unfold Table.grow at h
  split at h
  next => cases h
  next =>
    obtain ⟨replaced, hreplace, rfl⟩ := Option.map_eq_some_iff.mp h
    unfold Table.replaceBlock at hreplace
    split at hreplace
    next => cases hreplace
    next =>
      simp only at hreplace
      split at hreplace <;> cases Option.some.inj hreplace <;> rfl

theorem Table.Passes.memory_eq {update : Bool} {retired : List Job}
    (h : t.Passes e update t' retired) : t'.memory = t.memory := by
  induction h with
  | start t => rfl
  | @grown t full t' _ _ _ attempt grow _ ih =>
    have hfull : full.memory = t.memory := Table.memory_attempt (by rw [attempt]; rfl)
    have hgrown : t'.memory = full.memory := Table.memory_grow grow
    rw [ih, hgrown, hfull]

theorem Table.memory_store {update : Bool} {stored : Stored Bool}
    (h : t.store e update = some stored) : stored.table.memory = t.memory := by
  obtain ⟨last, retired, final, hpasses, hsettles, rfl⟩ := Table.exists_passes h
  have hfinal : final.table.memory = last.memory := by
    cases hsettles with
    | done inserted t' attempt => exact Table.memory_attempt (by rw [attempt]; rfl)
    | failed fault full t' jobs attempt grow =>
      have hfull : full.memory = last.memory := Table.memory_attempt (by rw [attempt]; rfl)
      exact (Table.memory_grow grow).trans hfull
  exact hfinal.trans hpasses.memory_eq

/-- Nothing but a lack of room stands in the way of storing: no entry is held, there is memory, and
the member has a pin. -/
structure Store.Ready (s : Store) (settings : Settings) (hash : UInt64 → UInt64) (d : Dict)
    (i : Nat) : Prop where
  simulates : ∃ held, s.Simulates hash ⟨d, held⟩
  sized : s.table.Sized settings
  unheld : ∀ j, s.hold? j = none
  affords : s.table.memory.Affords settings
  pinned : (s.realm.pinned? i).isSome = true

/-- The table has grown so often, and the member has taken over the blocks it had before. -/
structure Store.Grown (s : Store) (i growths : Nat) (s' : Store) (events : List Event) : Prop where
  cells : s'.table.block.cellCount = s.table.cellsAfter growths
  retired : (s'.realm, events) = s.realm.apply (.retire i (s.table.retiredBy growths))

theorem Store.Ready.hash_eq (h : s.Ready settings hash d i) : s.table.hash = hash :=
  h.simulates.elim fun _ hsim => hsim.hash

theorem Store.Grown.refl (s : Store) (i : Nat) : s.Grown i 0 s [] :=
  ⟨s.table.cellsAfter_zero.symm, (s.realm.apply_retire_nil i).symm⟩

theorem Store.Grown.cellsAfter {events : List Event} (h : s.Grown i m s' events) (k : Nat) :
    s'.table.cellsAfter k = s.table.cellsAfter (m + k) := by
  rw [Table.cellsAfter, h.cells, Table.cellsAfter, Table.cellsAfter, pow_add, Nat.mul_assoc]

theorem Store.Grown.trans {events later : List Event} (hpin : (s.realm.pinned? i).isSome = true)
    (h : s.Grown i m s' events) (h' : s'.Grown i n s'' later) :
    s.Grown i (m + n) s'' (events ++ later) := by
  have hblocks : s.table.retiredBy (m + n) = s.table.retiredBy m ++ s'.table.retiredBy n := by
    simp only [Table.retiredBy, List.range_add, List.map_append, List.map_map, Function.comp_def,
      h.cellsAfter]
  obtain ⟨_, happend⟩ := Realm.apply_retire_append hpin (s.table.retiredBy m) (s'.table.retiredBy n)
  refine ⟨h'.cells.trans (h.cellsAfter n), ?_⟩
  rw [hblocks, happend, ← h.retired, ← h'.retired]

theorem Table.Requires.rest {events : List Event} (h : s.table.Requires settings more n)
    (hfirst : s.table.Requires settings wanted m) (hsub : wanted ⊆ more)
    (hgrown : s.Grown i m s' events) (hhash : s'.table.hash = s.table.hash) :
    m ≤ n ∧ s'.table.Requires settings more (n - m) := by
  have hle : m ≤ n := by
    by_contra hlt
    exact hfirst.crowded n (by omega) (h.roomy.of_subset hsub)
  refine ⟨hle, fun k hk => ?_, ?_⟩
  · rw [hhash, hgrown.cellsAfter]
    exact h.crowded (m + k) (by omega)
  · rw [hhash, hgrown.cellsAfter, Nat.add_sub_cancel' hle]
    exact h.roomy

/-- An absent key is stored after as many growths as are needed, or none would be enough. -/
theorem Store.Ready.insert (h : s.Ready settings hash d i) (absent : e.key ∉ d.keys) :
    (∃ s' events n, s.apply (.call i (.insert e)) = (s', .result (.flag true), events) ∧
        s.table.Requires settings (d.insert e.key e.value).keys n ∧
        s'.Ready settings hash (d.insert e.key e.value) i ∧ s.Grown i n s' events) ∨
      ∃ s' events fault, s.apply (.call i (.insert e)) = (s', .result (.fault fault), events) ∧
        ∀ n, ¬ settings.Roomy s.table.hash (d.insert e.key e.value).keys (s.table.cellsAfter n) := by
  obtain ⟨held, hsim⟩ := h.simulates
  obtain ⟨member, hpin⟩ := Option.isSome_iff_exists.mp h.pinned
  have hlookup : d.lookup e.key = none := by
    rwa [Finmap.mem_keys, ← Finmap.lookup_eq_none] at absent
  obtain ⟨stored, hstored, hafter⟩ : ∃ stored, s.table.store e false = some stored ∧
      s.table.StoredAfter settings (Insert.insert e.key d.keys) stored :=
    hsim.table.store_outcome h.sized (hsim.hasLock_eq_false h.unheld) hlookup h.affords
  have happly := Store.apply_store hpin hstored
  have honest : Store.Act.Honest hash (.call i (.insert e)) :=
    fun _ hq => Option.some.inj hq ▸ rfl
  obtain ⟨w', hstep, hsim'⟩ := hsim.apply honest
  have hsized := hsim.sized_apply h.sized (.call i (.insert e))
  have hmemory := Table.memory_store hstored
  cases hafter with
  | refused growths t' crowded _ above =>
    rw [Dict.keys_insert]
    exact .inr ⟨_, _, _, happly, Table.never_roomy crowded above⟩
  | stored growths t' crowded roomy cells =>
    have happly : s.apply (.call i (.insert e)) = (_, .result (.flag true), _) := happly
    rw [happly] at hstep hsim' hsized
    cases hstep with
    | answered _ _ _ d' answers =>
      cases answers with
      | inserted _ _ =>
        have hpinned := (Realm.apply_retire_append h.pinned (s.table.retiredBy growths) []).1
        refine .inl ⟨_, _, growths, happly, ?_, ?_, ?_⟩
        · rw [Dict.keys_insert]
          exact ⟨crowded, roomy⟩
        · exact ⟨⟨_, hsim'⟩, hsized, h.unheld, hmemory ▸ h.affords, hpinned⟩
        · exact ⟨cells, rfl⟩

theorem Store.run_cons {act : Store.Act} {answer : Store.Answer} {events : List Event}
    (h : s.apply act = (s', answer, events)) (acts : List Store.Act) :
    s.run (act :: acts)
      = ((s'.run acts).1, answer :: (s'.run acts).2.1, events ++ (s'.run acts).2.2) := by
  rw [Store.run, h]

def Store.inserting (i : Nat) (entries : List Entry) : List Store.Act :=
  entries.map fun e => .call i (.insert e)

def Store.AllStored (answers : List Store.Answer) : Prop :=
  ∀ answer ∈ answers, answer = .result (.flag true)

theorem Dict.absent_rest (hxs : ((e :: xs).map Entry.key).Nodup)
    (absent : ∀ x ∈ e :: xs, x.key ∉ d.keys) :
    ∀ x ∈ xs, x.key ∉ (d.insert e.key e.value).keys := by
  intro x hx
  rw [Dict.keys_insert, Finset.mem_insert, not_or]
  rw [List.map_cons, List.nodup_cons] at hxs
  exact ⟨fun hkey => hxs.1 (List.mem_map.mpr ⟨x, hx, hkey⟩), absent x (List.mem_cons_of_mem e hx)⟩

/-- If all entries are stored, there is room for all of them after some number of growths. -/
theorem Store.Ready.exists_roomy (h : s.Ready settings hash d i) (hxs : (xs.map Entry.key).Nodup)
    (absent : ∀ e ∈ xs, e.key ∉ d.keys)
    (stored : Store.AllStored (s.run (Store.inserting i xs)).2.1) :
    ∃ n, s.table.Requires settings (d.insertAll xs).keys n := by
  induction xs generalizing s d with
  | nil =>
    obtain ⟨held, hsim⟩ := h.simulates
    exact ⟨0, hsim.table.requires_zero h.sized⟩
  | cons e xs ih =>
    rcases h.insert (absent e List.mem_cons_self) with
      ⟨s', events, m, happly, _, hready, hgrown⟩ | ⟨s', events, fault, happly, _⟩
    all_goals
      have hrun : s.run (Store.inserting i (e :: xs)) = _ := Store.run_cons happly _
      rw [hrun] at stored
      obtain ⟨hfirst, hrest⟩ := List.forall_mem_cons.mp stored
    · obtain ⟨n, hn⟩ := ih hready (List.nodup_cons.mp hxs).2 (Dict.absent_rest hxs absent) hrest
      have hroomy := hn.roomy
      rw [hgrown.cellsAfter, hready.hash_eq, ← h.hash_eq] at hroomy
      exact Table.exists_requires hroomy
    · cases hfirst

/-- If there is room for all entries after so many growths and no fewer, they are all stored, and the
table has grown exactly so often. -/
theorem Store.Ready.inserting (h : s.Ready settings hash d i) (hxs : (xs.map Entry.key).Nodup)
    (absent : ∀ e ∈ xs, e.key ∉ d.keys)
    (requires : s.table.Requires settings (d.insertAll xs).keys n) :
    let outcome := s.run (Store.inserting i xs)
    Store.AllStored outcome.2.1 ∧ outcome.1.Ready settings hash (d.insertAll xs) i ∧
      s.Grown i n outcome.1 outcome.2.2 := by
  induction xs generalizing s d n with
  | nil =>
    obtain ⟨held, hsim⟩ := h.simulates
    have hzero := hsim.table.requires_zero h.sized
    obtain rfl : n = 0 := requires.unique hzero
    exact ⟨List.forall_mem_nil _, h, .refl s i⟩
  | cons e xs ih =>
    intro outcome
    have hsub : (d.insert e.key e.value).keys ⊆ (d.insertAll (e :: xs)).keys := by
      rw [Dict.insertAll_cons, Dict.keys_insertAll]
      exact Finset.subset_union_left
    rcases h.insert (absent e List.mem_cons_self) with
      ⟨s', events, m, happly, hfirst, hready, hgrown⟩ | ⟨s', events, fault, happly, hnone⟩
    · obtain ⟨hle, hmore⟩ := requires.rest hfirst hsub hgrown (hready.hash_eq.trans h.hash_eq.symm)
      obtain ⟨hstored, hlast, hlater⟩ := ih hready (List.nodup_cons.mp hxs).2
        (Dict.absent_rest hxs absent) hmore
      have houtcome : outcome = _ := Store.run_cons happly _
      rw [houtcome]
      refine ⟨List.forall_mem_cons.mpr ⟨rfl, hstored⟩, hlast, ?_⟩
      have htotal := hgrown.trans h.pinned hlater
      rwa [Nat.add_sub_cancel' hle] at htotal
    · exact absurd (requires.roomy.of_subset hsub) (hnone n)

def Block.itemsInUse (b : Block) : Nat := b.itemCount - b.pool.available

/-- The tables differ at most in which entry of a cell lies where, in the items that are lent for
them, and in the versions of the words. -/
structure Table.SameShape (t t' : Table) : Prop where
  cells : t'.block.cellCount = t.block.cellCount
  capacity : t'.block.capacity = t.block.capacity
  itemsInUse : t'.block.itemsInUse = t.block.itemsInUse
  count : ∀ j, (t'.block.cell j).word.count = (t.block.cell j).word.count
  chain : ∀ j, (t'.block.cell j).chain.length = (t.block.cell j).chain.length
  occupied : ∀ j, (t'.block.cell j).word.occupied = (t.block.cell j).word.occupied
  overflow : ∀ j, (t'.block.cell j).word.hasOverflow = (t.block.cell j).word.hasOverflow
  writing : ∀ j, (t'.block.cell j).word.isWriting = (t.block.cell j).word.isWriting
  locked : ∀ j, (t'.block.cell j).word.isLocked = (t.block.cell j).word.isLocked

theorem Block.Holds.flags {b : Block} (h : b.Holds hash d) (j : Nat) :
    (b.cell j).word.occupied = 2 ^ (b.cell j).word.count - 1 ∧
      (b.cell j).word.hasOverflow = decide ((b.cell j).chain.length ≠ 0) ∧
      (b.cell j).word.isWriting = false := by
  by_cases hj : j < b.cellCount
  · have hlaid := (h.proper j hj).laidOut (h.lists j hj)
    refine ⟨hlaid.occupied, ?_, hlaid.settled⟩
    rw [Bool.eq_iff_iff, hlaid.overflow, decide_eq_true_iff, Ne, ← List.length_eq_zero_iff]
  · rw [Block.cell_of_le (Nat.le_of_not_lt hj)]
    decide

/-- The shape of a table follows from its keys and the number of its cells. -/
theorem Table.Represents.sameShape (h : t.Represents d) (h' : t'.Represents d)
    (hs : t.Sized settings) (hs' : t'.Sized settings) (hhash : t'.hash = t.hash)
    (hcells : t'.block.cellCount = t.block.cellCount) (free : t.block.hasLock = false)
    (free' : t'.block.hasLock = false) : t.SameShape t' := by
  have hholds := h.holds
  have hholds' := hhash ▸ h'.holds
  have hshelves : t'.block.shelfCount = t.block.shelfCount := by
    rw [hs.shelves, hs'.shelves, hcells]
  have hitems : t'.block.itemCount = t.block.itemCount := congrArg (· * shelfItems) hshelves
  have hlay : ∀ j, (t'.block.cell j).word.count = (t.block.cell j).word.count ∧
      (t'.block.cell j).chain.length = (t.block.cell j).chain.length := by
    intro j
    by_cases hj : j < t.block.cellCount
    · have hj' : j < t'.block.cellCount := hcells ▸ hj
      rw [hholds.count_eq hj, hholds'.count_eq hj', hholds.length_chain hj, hholds'.length_chain hj',
        hcells]
      exact ⟨rfl, rfl⟩
    · rw [Block.cell_of_le (by omega), Block.cell_of_le (by omega)]
      exact ⟨rfl, rfl⟩
  refine ⟨hcells, ?_, ?_, fun j => (hlay j).1, fun j => (hlay j).2, fun j => ?_, fun j => ?_,
    fun j => ?_, fun j => ?_⟩
  · rw [Block.capacity, Block.capacity, hcells, hshelves]
  · have havailable := hholds.available_add_demand
    have havailable' := hholds'.available_add_demand
    rw [hcells] at havailable'
    rw [Block.itemsInUse, Block.itemsInUse]
    omega
  · rw [(hholds.flags j).1, (hholds'.flags j).1, (hlay j).1]
  · rw [(hholds.flags j).2.1, (hholds'.flags j).2.1, (hlay j).2]
  · rw [(hholds.flags j).2.2, (hholds'.flags j).2.2]
  · exact (Block.hasLock_eq_false.mp free' j).trans (Block.hasLock_eq_false.mp free j).symm

theorem Table.Represents.call_len (h : t.Represents d) (free : t.block.hasLock = false) :
    (t.call .len).map Finished.result = some (.number d.keys.card) := by
  cases hlen : t.len with
  | none =>
    rw [Table.len_eq_none, free] at hlen
    cases hlen
  | some counted =>
    obtain ⟨n, t'⟩ := counted
    obtain ⟨rfl, _⟩ := h.len hlen
    rw [Table.call, hlen]
    rfl

theorem Store.pinned_of_stored (stored : Store.AllStored (s.run (Store.inserting i (e :: xs))).2.1) :
    (s.realm.pinned? i).isSome = true := by
  have hfirst : (s.apply (.call i (.insert e))).2.1 = .result (.flag true) :=
    (List.forall_mem_cons.mp stored).1
  cases hpin : s.realm.pinned? i with
  | some m => rfl
  | none => simp [Store.apply, hpin] at hfirst

/-- The two outcomes show no difference, the places of the entries apart. -/
structure Store.SameOutcome (one two : Store × List Store.Answer × List Event) : Prop where
  shape : one.1.table.SameShape two.1.table
  realm : two.1.realm = one.1.realm
  events : two.2.2 = one.2.2
  len : ∃ n, (one.1.table.call .len).map Finished.result = some (.number n) ∧
    (two.1.table.call .len).map Finished.result = some (.number n)
  find : ∀ key, two.1.table.find (.of key) = one.1.table.find (.of key)

theorem Store.sameOutcome {one two : Store × List Store.Answer × List Event}
    {held held' : List (Option UInt64)} (h : one.1.Simulates hash ⟨d, held⟩)
    (h' : two.1.Simulates hash ⟨d, held'⟩) (hs : one.1.table.Sized settings)
    (hs' : two.1.table.Sized settings) (unheld : ∀ j, one.1.hold? j = none)
    (unheld' : ∀ j, two.1.hold? j = none)
    (hcells : two.1.table.block.cellCount = one.1.table.block.cellCount)
    (hrealm : (two.1.realm, two.2.2) = (one.1.realm, one.2.2)) : Store.SameOutcome one two := by
  have hfree := h.hasLock_eq_false unheld
  have hfree' := h'.hasLock_eq_false unheld'
  obtain ⟨hmembers, hevents⟩ := Prod.ext_iff.mp hrealm
  refine ⟨?_, hmembers, hevents, ⟨_, h.table.call_len hfree, h'.table.call_len hfree'⟩, ?_⟩
  · exact h.table.sameShape h'.table hs hs' (h'.hash.trans h.hash.symm) hcells hfree hfree'
  · intro key
    rw [h.table.find (q := .of key) rfl, h'.table.find (q := .of key) rfl]

/-- Entries with distinct absent keys are stored one after another while no entry is held, in any store
that a run leads to, with memory for all blocks that are allowed. If all of them are stored in one
order, they are in any other; the same blocks are retired on the way, the members of the realm end up
the same, and so does the table but for the places of the entries. -/
theorem Store.insertion_order {s₀ : Store} (hmake : Store.make settings hash memory = .ok s₀)
    (acts : List Store.Act) :
    let s := (s₀.run acts).1
    ∀ i first second, (∀ j, s.hold? j = none) → s.table.memory.Affords settings →
      first.Perm second → (first.map Entry.key).Nodup →
      (∀ e ∈ first, s.table.contains (.of e.key) = false) →
      let one := s.run (Store.inserting i first)
      let two := s.run (Store.inserting i second)
      Store.AllStored one.2.1 → Store.AllStored two.2.1 ∧ Store.SameOutcome one two := by
  intro s i first second unheld affords hperm hnodup hnew one two stored
  obtain ⟨⟨d, held⟩, hsim, hs⟩ := Store.simulates_run hmake acts
  change s.Simulates hash ⟨d, held⟩ at hsim
  have habsent : ∀ e ∈ first, e.key ∉ d.keys := by
    intro e he hmem
    have hcontains := hsim.table.mem_keys.mp (hsim.table.keys_eq ▸ hmem)
    rw [hnew e he] at hcontains
    cases hcontains
  cases first with
  | nil =>
    obtain rfl : second = [] := hperm.nil_eq.symm
    exact ⟨stored, Store.sameOutcome hsim hsim hs hs unheld unheld rfl rfl⟩
  | cons e rest =>
    have hready : s.Ready settings hash d i :=
      ⟨⟨held, hsim⟩, hs, unheld, affords, Store.pinned_of_stored stored⟩
    obtain ⟨n, hn⟩ := hready.exists_roomy hnodup habsent stored
    obtain ⟨_, hlast, hgrown⟩ := hready.inserting hnodup habsent hn
    rw [d.insertAll_perm hnodup hperm] at hn hlast
    obtain ⟨stored', hlast', hgrown'⟩ := hready.inserting ((hperm.map Entry.key).nodup_iff.mp hnodup)
      (fun e he => habsent e (hperm.mem_iff.mpr he)) hn
    obtain ⟨_, hsim₁⟩ := hlast.simulates
    obtain ⟨_, hsim₂⟩ := hlast'.simulates
    exact ⟨stored', Store.sameOutcome hsim₁ hsim₂ hlast.sized hlast'.sized hlast.unheld hlast'.unheld
      (hgrown'.cells.trans hgrown.cells.symm) (hgrown'.retired.trans hgrown.retired.symm)⟩

/-- In the first order the table grows twice for the fourth entry, in the second order once for the
fourth and once for the fifth. -/
theorem Store.insertion_order_apart :
    let acts : List Store.Act := [.realm .register, .realm (.move 0 .acquire)]
    let first : List Entry := [⟨0, 1⟩, ⟨4, 2⟩, ⟨8, 3⟩, ⟨12, 4⟩, ⟨1, 5⟩]
    let second : List Entry := [⟨1, 5⟩, ⟨0, 1⟩, ⟨4, 2⟩, ⟨8, 3⟩, ⟨12, 4⟩]
    ∃ s₀, Store.make ⟨1, 128, 64, .standard, 128⟩ id .ordinary = .ok s₀ ∧
      let s := (s₀.run acts).1
      let one := s.run (Store.inserting 0 first)
      let two := s.run (Store.inserting 0 second)
      (∀ j, s.hold? j = none) ∧ s.table.memory.Affords ⟨1, 128, 64, .standard, 128⟩ ∧
      first.Perm second ∧ (first.map Entry.key).Nodup ∧
      (∀ e ∈ first, s.table.contains (.of e.key) = false) ∧ Store.AllStored one.2.1 ∧
      (s.run (Store.inserting 0 (first.take 4))).1.table.block.cellCount = 16 ∧
      (s.run (Store.inserting 0 (second.take 4))).1.table.block.cellCount = 4 ∧
      Store.AllStored two.2.1 ∧ Store.SameOutcome one two := by
  intro acts first second
  refine ⟨_, rfl, ?_⟩
  have horder := @Store.insertion_order id ⟨1, 128, 64, .standard, 128⟩ .ordinary _ rfl acts 0 first
    second
  generalize hs : (Store.run _ acts).1 = s at horder ⊢
  have hheld : ∀ j, s.hold? j = none := by
    subst hs
    exact fun j => rfl
  have hmemory : s.table.memory = .ordinary := by
    subst hs
    rfl
  have haffords : s.table.memory.Affords ⟨1, 128, 64, .standard, 128⟩ :=
    hmemory ▸ Memory.affords_iff.mpr (by decide +kernel)
  have hperm : first.Perm second := by decide +kernel
  have hnodup : (first.map Entry.key).Nodup := by decide +kernel
  have habsent : ∀ e ∈ first, s.table.contains (.of e.key) = false := by
    rw [← hs]
    decide +kernel
  have hstored : Store.AllStored (s.run (Store.inserting 0 first)).2.1 := by
    rw [← hs, Store.AllStored]
    decide +kernel
  have hcells : (s.run (Store.inserting 0 (first.take 4))).1.table.block.cellCount = 16 ∧
      (s.run (Store.inserting 0 (second.take 4))).1.table.block.cellCount = 4 := by
    rw [← hs]
    decide +kernel
  exact ⟨hheld, haffords, hperm, hnodup, habsent, hstored, hcells.1, hcells.2,
    horder hheld haffords hperm hnodup habsent hstored⟩

end EpochTable
