import EpochTable.Proofs.BlockContents

namespace EpochTable

variable {b : Block} {hash : UInt64 → UInt64} {d : Dict} {x : Cell} {w : CellWord} {e : Entry}
  {i : Nat} {item : Item} {place : Place} {pool : Pool}

/-- The cell as its writer has it: the contents are those of cell `i`, under the word it is held
with. -/
structure Block.Opens (b : Block) (i : Nat) (x : Cell) (w : CellWord) : Prop where
  inside : i < b.cellCount
  agrees : (b.cell i).Agrees (b.cell i).word x w

theorem Block.Holds.tidy (h : b.Holds hash d) (ho : b.Opens i x w) : x.Tidy w :=
  ho.agrees.tidy (h.proper i ho.inside).tidy

theorem Block.Opens.entries (ho : b.Opens i x w) : x.entries w = b.contents i := ho.agrees.entries

theorem Block.Opens.beginWrite (ho : b.Opens i x w) :
    b.Opens i (x.beginWrite w).1 (x.beginWrite w).2 :=
  ⟨ho.inside, ho.agrees.trans (x.agrees_beginWrite w)⟩

theorem Block.opens_seize (hi : i < b.cellCount) :
    b.Opens i (b.cell i).seize (b.cell i).seize.word :=
  ⟨hi, (b.cell i).agrees_seize⟩

theorem Block.opens_word (hi : i < b.cellCount) : b.Opens i (b.cell i) (b.cell i).word :=
  ⟨hi, ⟨rfl, rfl, rfl, rfl, rfl⟩⟩

theorem Block.Holds.pushInline (h : b.Holds hash d) (ho : b.Opens i x w)
    (hi : b.indexOf (hash e.key) = i) (hroom : w.count < inlineSlots)
    (hd : d.lookup e.key = none) :
    (b.revise i ((x.pushInline w e).1.publish (x.pushInline w e).2) b.pool).Holds hash
      (d.insert e.key e.value) := by
  have ht := h.tidy ho
  have hpublish := Cell.agrees_publish (x.pushInline w e).1 (x.pushInline w e).2
  refine h.gain hi ⟨ho.inside, (ht.pushInline hroom e).publish, ?_, rfl, h.counted⟩ hd ?_
  · rw [hpublish.items, Cell.items_pushInline, ho.agrees.items]
  · rw [hpublish.entries, Cell.entries_pushInline ht.dense hroom, ← ho.entries]
    exact List.perm_middle

theorem Block.Holds.pushOverflow (h : b.Holds hash d) (ho : b.Opens i x w)
    (hi : b.indexOf (hash e.key) = i) (hfull : w.count = inlineSlots)
    (hlend : b.pool.Lends item pool) (hd : d.lookup e.key = none) :
    (b.revise i ((x.pushOverflow w item e).1.publish (x.pushOverflow w item e).2) pool).Holds hash
      (d.insert e.key e.value) := by
  have ht := h.tidy ho
  have hpublish := Cell.agrees_publish (x.pushOverflow w item e).1 (x.pushOverflow w item e).2
  refine h.gain hi ⟨ho.inside, (ht.pushOverflow hfull item e).publish, ?_, hlend.size,
    hlend.counted h.counted⟩ hd ?_
  · rw [hpublish.items, ← ho.agrees.items]
    exact List.perm_middle.trans (hlend.items.symm.append_right x.items)
  · rw [hpublish.entries, Cell.entries_pushOverflow, ← ho.entries]
    exact List.perm_middle

def Pool.takeBack (p : Pool) : Option Item → Pool
  | none => p
  | some item => p.release item

theorem Block.Holds.home_lt (h : b.Holds hash d) (hi : i < b.cellCount)
    (hitem : item ∈ (b.cell i).items) : item.home < b.pool.shelves.size := by
  have hspilled : item ∈ b.spilled := List.mem_flatMap.mpr ⟨i, List.mem_range.mpr hi, hitem⟩
  exact Item.home_lt (h.items.mem_iff.mp (List.mem_append_right _ hspilled))

theorem Block.Holds.remove (h : b.Holds hash d) (ho : b.Opens i x w) (hl : x.Lies w e place)
    (hi : b.indexOf (hash e.key) = i) :
    (b.revise i ((x.remove w place).1.publish (x.remove w place).2.1)
      (b.pool.takeBack (x.remove w place).2.2)).Holds hash (d.erase e.key) := by
  have hremoved := Cell.removed (h.tidy ho) hl
  have hpublish := Cell.agrees_publish (x.remove w place).1 (x.remove w place).2.1
  have hitems := hremoved.items
  rw [ho.agrees.items] at hitems
  have hentries : (b.contents i).Perm
      (e :: ((x.remove w place).1.publish (x.remove w place).2.1).entries
        ((x.remove w place).1.publish (x.remove w place).2.1).word) := by
    rw [hpublish.entries, ← ho.entries]
    exact hremoved.entries
  generalize (x.remove w place).2.2 = freed at hitems ⊢
  refine h.lose hi ?_ hentries
  rw [← hpublish.items] at hitems
  cases freed with
  | none =>
    exact ⟨ho.inside, hremoved.tidy.publish, hitems.symm.append_left _, rfl, h.counted⟩
  | some item =>
    have hmem : item ∈ (b.cell i).items := hitems.mem_iff.mpr List.mem_cons_self
    obtain ⟨hlend, hcounted⟩ := Pool.lends_release (h.home_lt ho.inside hmem)
    refine ⟨ho.inside, hremoved.tidy.publish, ?_, hlend.size.symm, hcounted h.counted⟩
    refine (hlend.items.append_right _).trans ?_
    exact List.perm_middle.symm.trans (hitems.symm.append_left _)

theorem Block.Holds.writeValue (h : b.Holds hash d) (ho : b.Opens i x w) (hl : x.Lies w e place)
    (hi : b.indexOf (hash e.key) = i) (value : UInt64) :
    (b.revise i ((x.writeValue value place).publish w) b.pool).Holds hash
      (d.insert e.key value) := by
  have hpublish := Cell.agrees_publish (x.writeValue value place) w
  have he : e ∈ b.contents i := ho.entries ▸ hl.mem
  refine h.rewrite hi ⟨ho.inside, ((h.tidy ho).writeValue value place).publish, ?_, rfl,
    h.counted⟩ he ?_
  · rw [hpublish.items, Cell.items_writeValue, ho.agrees.items]
  · rw [hpublish.entries, ← ho.entries]
    exact Cell.perm_writeValue hl value

theorem Block.Holds.seize (h : b.Holds hash d) (hi : i < b.cellCount) :
    (b.revise i (b.cell i).seize b.pool).Holds hash d := by
  refine h.revise ⟨hi, (h.proper i hi).seize, ?_, rfl, h.counted⟩ ?_ fun _ _ => rfl
  · rw [(b.cell i).agrees_seize.items]
  · rw [(b.cell i).agrees_seize.entries]
    exact h.lists i hi

theorem Block.Holds.unlock (h : b.Holds hash d) (hi : i < b.cellCount) :
    (b.revise i ((b.cell i).unlock (b.cell i).word) b.pool).Holds hash d := by
  have ha : (b.cell i).Agrees (b.cell i).word ((b.cell i).unlock (b.cell i).word)
      ((b.cell i).unlock (b.cell i).word).word :=
    ⟨rfl, rfl, CellWord.count_unlocked _, CellWord.occupied_unlocked _,
      CellWord.hasOverflow_unlocked _⟩
  have hsettled := (b.cell i).word.isWriting_unlocked.trans (h.proper i hi).settled
  refine h.revise ⟨hi, ⟨ha.tidy (h.proper i hi).tidy, hsettled⟩, ?_, rfl, h.counted⟩ ?_
    fun _ _ => rfl
  · rw [ha.items]
  · rw [ha.entries]
    exact h.lists i hi

/-- A key is found where it lies, and found nowhere if the dictionary does not have it. -/
theorem Block.Holds.locate_eq_none (h : b.Holds hash d) (ho : b.Opens i x w) {key : UInt64}
    (hi : b.indexOf (hash key) = i) (hl : x.locate w key = none) : d.lookup key = none :=
  (h.lists i ho.inside).not_mem (ho.entries ▸ Cell.locate_eq_none hl) hi

theorem Block.Holds.locate_eq_some (h : b.Holds hash d) (ho : b.Opens i x w) {key : UInt64}
    (hl : x.locate w key = some place) :
    ∃ value, d.lookup key = some value ∧ x.Lies w ⟨key, value⟩ place := by
  obtain ⟨⟨k, value⟩, hlies, rfl⟩ := Cell.locate_eq_some hl
  exact ⟨value, (h.lists i ho.inside).lookup_of_mem (ho.entries ▸ hlies.mem), hlies⟩

end EpochTable
