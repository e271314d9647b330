import EpochTable.Proofs.CellReadings
import EpochTable.Proofs.SingleGrowth
import EpochTable.Table.Lookup

namespace EpochTable

variable {t : Table} {d : Dict} {q : Query} {s₀ : Store} {settings : Settings}
  {hash : UInt64 → UInt64} {memory : Memory} {value : Option UInt64} {frozen : Bool}

/-- No writer has left its announcement behind, and no chain is longer than a lookup may go. -/
theorem Table.Represents.readPass (h : t.Represents d) (q : Query) :
    t.readPass q = .consistent (t.find q) (t.block.isLockedAt (t.indexOf q)) := by
  have hi : t.indexOf q < t.block.cellCount := Block.indexOf_lt h.nonempty _
  rw [Table.find, Table.readPass, Cell.read_eq (h.holds.proper _ hi) (h.holds.length_chain_le hi)]
  rfl

theorem Table.findWithin_succ (h : t.readPass q = .consistent value frozen) (w : Waiter)
    (passes : Nat) : t.findWithin q w (passes + 1) = some (value, w) := by
  have hread : (t.block.cell (t.indexOf q)).read q.key t.block.itemCount
      = .consistent value frozen := h
  simp [Table.findWithin, Table.accept, hread]

/-- Whatever has been done with a store, also while entries are held and when the block has no items at
all, one pass settles the lookup of any key, without waiting: it is not torn, and if it met a locked
cell, which is then that of a held entry, the block it read is the table's. Nothing is changed by it. -/
theorem Store.finds_at_once (hmake : Store.make settings hash memory = .ok s₀)
    (acts : List Store.Act) (q : Query) :
    let s := (s₀.run acts).1
    let i := s.table.indexOf q
    (∃ frozen, s.table.readPass q = .consistent (s.table.find q) frozen ∧
      (frozen = true ↔ s.Holds i)) ∧
    (∀ waiter passes,
      s.table.findWithin q waiter (passes + 1) = some (s.table.find q, waiter)) ∧
    ∀ member, (s.realm.pinned? member).isSome →
      s.apply (.call member (.find q)) = (s, .result (.value (s.table.find q)), []) := by
  intro s i
  obtain ⟨w, h, _⟩ := Store.simulates_run hmake acts
  have hpass := h.table.readPass q
  refine ⟨⟨_, hpass, h.locked_iff⟩, Table.findWithin_succ hpass, fun member hpinned => ?_⟩
  have hsome : (s.realm.pinned? member).isNone = false := by
    rw [← Option.not_isSome, hpinned]
    rfl
  simp only [Store.apply, hsome, Bool.false_eq_true, if_false, Table.call, Realm.apply_retire_nil]
  simp [CallResult.hold?]

/-- A block without any items, whose only cell is full and locked for an entry that is held. -/
theorem Store.finds_at_once_held :
    let acts : List Store.Act := [.realm .register, .realm (.move 0 .acquire),
      .call 0 (.insert ⟨4, 40⟩), .call 0 (.insert ⟨5, 50⟩), .call 0 (.insert ⟨6, 60⟩),
      .call 0 (.hold (.of 5))]
    ∃ s₀, Store.make ⟨1, 1000, 1, .standard, 128⟩ id (fun _ => true) = .ok s₀ ∧
      let s := (s₀.run acts).1
      s.table.block.itemCount = 0 ∧ s.Holds (s.table.indexOf (.of 5)) ∧
      s.table.readPass (.of 5) = .consistent (some 50) true ∧
      s.table.findWithin (.of 5) (.fresh .standard) 1 = some (some 50, .fresh .standard) ∧
      (s.realm.pinned? 0).isSome ∧
      s.apply (.call 0 (.find (.of 5))) = (s, .result (.value (some 50)), []) := by
  intro acts
  refine ⟨_, rfl, ?_⟩
  have hfinds := @Store.finds_at_once _ ⟨1, 1000, 1, .standard, 128⟩ id (fun _ => true) rfl acts (.of 5)
  generalize hs : (Store.run _ acts).1 = s at hfinds ⊢
  have hitems : s.table.block.itemCount = 0 := by
    rw [← hs]
    decide +kernel
  have hlocked : (s.hold? 0).map Hold.cell = some (s.table.indexOf (.of 5)) := by
    rw [← hs]
    decide +kernel
  have hvalue : s.table.find (.of 5) = some 50 := by
    rw [← hs]
    decide +kernel
  have hpinned : (s.realm.pinned? 0).isSome := by
    rw [← hs]
    decide +kernel
  obtain ⟨hold, hhold, hcell⟩ := Option.map_eq_some_iff.mp hlocked
  have hholds : s.Holds (s.table.indexOf (.of 5)) := ⟨0, hold, hhold, hcell⟩
  obtain ⟨⟨frozen, hpass, hfrozen⟩, hwithin, hcall⟩ := hfinds
  rw [hvalue] at hpass hcall
  rw [hfrozen.mpr hholds] at hpass
  exact ⟨hitems, hholds, hpass, hvalue ▸ hwithin _ 0, hpinned, hcall 0 hpinned⟩

end EpochTable
