import EpochTable.Proofs.Refinement

namespace EpochTable

variable {s : Store} {w : Ideal} {b : Block} {c : Cell} {d : Dict} {hash : UInt64 → UInt64}
  {p : UInt64 → Prop} [DecidablePred p] {i : Nat}

def Dict.load (d : Dict) (p : UInt64 → Prop) [DecidablePred p] : Nat := (d.keys.filter p).card

/-- The cell holds the entries whose keys satisfy `p`, the first three of them inline and the others
in items, and its word says so. -/
structure Cell.LaidOut (c : Cell) (d : Dict) (p : UInt64 → Prop) [DecidablePred p] : Prop where
  entries : d.Lists p (c.slots.take c.word.count ++ c.chain.map Spill.entry)
  count : c.word.count = min inlineSlots (d.load p)
  slots : c.word.count ≤ c.slots.length
  chain : c.chain.length = d.load p - min inlineSlots (d.load p)
  occupied : c.word.occupied = 2 ^ c.word.count - 1
  overflow : c.word.hasOverflow = true ↔ c.chain ≠ []
  settled : c.word.isWriting = false

theorem Cell.Proper.laidOut (h : c.Proper) (hl : d.Lists p (c.entries c.word)) : c.LaidOut d p := by
  have hload : (c.entries c.word).length = d.load p := hl.length_eq
  have hcount := h.tidy.count_eq
  have hchain := h.tidy.length_chain
  refine ⟨hl, ?_, h.tidy.written, ?_, ?_, ?_, h.settled⟩
  · rw [hcount, hload]
  · omega
  · rw [h.tidy.occupied, CellWord.bitmap, Nat.shiftLeft_eq, Nat.one_mul]
  · rw [h.tidy.overflow]
    simp

theorem Block.Holds.available_add (h : b.Holds hash d) :
    b.pool.available + ∑ i ∈ Finset.range b.cellCount, (b.cell i).chain.length
      = b.pool.itemCount :=
  Block.available_add h.items h.counted

/-- Between two acts every cell has the layout that the keys stored so far dictate; which of the items
are in use follows from the keys as well, and a cell is locked only for a held entry. -/
theorem Store.cells_laid_out {settings : Settings} {memory : Memory} {s₀ : Store}
    (hmake : Store.make settings hash memory = .ok s₀) (acts : List Store.Act)
    (honest : ∀ act ∈ acts, Store.Act.Honest hash act) :
    let s := (s₀.run acts).1
    let b := s.table.block
    ∃ w, Ideal.start.Run acts (s₀.run acts).2.1 w ∧
      (∀ i < b.cellCount, (b.cell i).LaidOut w.dict (fun k => b.indexOf (hash k) = i) ∧
        ((b.cell i).word.isLocked = true ↔ s.Holds i)) ∧
      (b.pool.freeItems ++ b.spilled).Perm (Item.all b.shelfCount) ∧
      b.pool.available + ∑ i ∈ Finset.range b.cellCount,
        (w.dict.load (fun k => b.indexOf (hash k) = i) - inlineSlots) = b.pool.itemCount := by
  obtain ⟨w, hrun, h⟩ := (Store.simulates_make hmake).run honest
  have hholds := h.table.holds
  rw [h.hash] at hholds
  refine ⟨w, hrun, fun i hi => ⟨?_, h.locked_iff⟩, hholds.items, ?_⟩
  · exact (hholds.proper i hi).laidOut (hholds.lists i hi)
  · rw [← hholds.available_add]
    refine congrArg _ (Finset.sum_congr rfl fun i hi => ?_)
    have hi' := Finset.mem_range.mp hi
    rw [((hholds.proper i hi').laidOut (hholds.lists i hi')).chain]
    omega

/-- Six entries of one cell, the first of them held: three lie in slots and three in items. -/
theorem Store.cells_laid_out_held :
    let acts : List Store.Act := [.realm .register, .realm (.move 0 .acquire),
      .call 0 (.insert ⟨0, 1⟩), .call 0 (.insert ⟨2, 1⟩), .call 0 (.insert ⟨4, 1⟩),
      .call 0 (.insert ⟨6, 1⟩), .call 0 (.insert ⟨8, 1⟩), .call 0 (.insert ⟨10, 1⟩),
      .call 0 (.insert ⟨12, 1⟩), .call 0 (.remove (.of 2)), .call 0 (.hold (.of 0))]
    ∃ s₀, Store.make ⟨2, 1, 64, .standard, 128⟩ id (fun _ => true) = .ok s₀ ∧
      (∀ act ∈ acts, Store.Act.Honest id act) ∧
      ((s₀.run acts).1.table.block.cell 0).word.count = 3 ∧
      ((s₀.run acts).1.table.block.cell 0).chain.length = 3 ∧
      ((s₀.run acts).1.table.block.cell 0).word.isLocked = true ∧
      ∃ w, Ideal.start.Run acts (s₀.run acts).2.1 w ∧
        ((s₀.run acts).1.table.block.cell 0).LaidOut w.dict
          (fun k => (s₀.run acts).1.table.block.indexOf (id k) = 0) := by
  intro acts
  have honest : ∀ act ∈ acts, Store.Act.Honest id act := by
    simp [acts, Store.Act.Honest, Call.Honest, Call.query?, Query.Honest, Query.of]
  refine ⟨_, rfl, honest, by decide +kernel, by decide +kernel, by decide +kernel, ?_⟩
  obtain ⟨w, hrun, hcells, _⟩ := @Store.cells_laid_out id ⟨2, 1, 64, .standard, 128⟩
    (fun _ => true) _ rfl acts honest
  exact ⟨w, hrun, (hcells 0 (by decide +kernel)).1⟩

end EpochTable
