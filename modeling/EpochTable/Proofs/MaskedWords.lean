import EpochTable.CellWord.Masks
import EpochTable.Proofs.StateWord
import EpochTable.Script.Words

namespace EpochTable

variable (w : MaskedWord) {a b m : UInt64} {k n : Nat}

/-- The same 64 bits. -/
def MaskedWord.plain (w : MaskedWord) : CellWord := ⟨w.raw⟩

def MaskedWord.apply (w : MaskedWord) : CellWord.Change → MaskedWord
  | .count n => w.withCount (UInt64.ofNat n)
  | .overflow value => w.withOverflow value
  | .locked => w.locked
  | .unlocked => w.unlocked
  | .writing => w.writing
  | .published => w.published

theorem MaskedWord.toNat_or (h : a &&& b = 0) : (a ||| b).toNat = a.toNat + b.toNat := by
  have hapart : a.toBitVec &&& b.toBitVec = 0#64 := congrArg UInt64.toBitVec h
  have hsum := BitVec.toNat_add_of_and_eq_zero hapart
  rwa [BitVec.add_eq_or_of_and_eq_zero _ _ hapart] at hsum

/-- What a mask clears shares no bit with what lies under the mask. -/
theorem MaskedWord.clear_and_keep (a b m : UInt64) : (a &&& ~~~m) &&& (b &&& m) = 0 := by
  rw [UInt64.and_assoc, UInt64.and_comm b m, ← UInt64.and_assoc (~~~m), UInt64.not_and_self,
    UInt64.zero_and, UInt64.and_zero]

/-- What a mask clears and what it keeps make up the word. -/
theorem MaskedWord.clear_or_keep (a m : UInt64) : a &&& ~~~m ||| a &&& m = a := by
  apply UInt64.eq_of_toBitVec_eq
  ext i
  simp only [UInt64.toBitVec_or, UInt64.toBitVec_and, UInt64.toBitVec_not, BitVec.getElem_or,
    BitVec.getElem_and, BitVec.getElem_not]
  cases m.toBitVec[i] <;> simp

theorem MaskedWord.clear_or_mask (a m : UInt64) : a &&& ~~~m ||| m = a ||| m := by
  apply UInt64.eq_of_toBitVec_eq
  ext i
  simp only [UInt64.toBitVec_or, UInt64.toBitVec_and, UInt64.toBitVec_not, BitVec.getElem_or,
    BitVec.getElem_and, BitVec.getElem_not]
  cases m.toBitVec[i] <;> simp

/-- Clearing two masks at once is clearing one after the other. -/
theorem MaskedWord.clear_or (a b m : UInt64) : a &&& ~~~(b ||| m) = a &&& ~~~b &&& ~~~m := by
  rw [UInt64.and_assoc]
  exact congrArg _ (UInt64.eq_of_toBitVec_eq BitVec.not_or)

theorem MaskedWord.toNat_clear (a m : UInt64) :
    (a &&& ~~~m).toNat = a.toNat - (a &&& m).toNat := by
  have hparts := MaskedWord.toNat_or (MaskedWord.clear_and_keep a a m)
  rw [MaskedWord.clear_or_keep] at hparts
  omega

theorem MaskedWord.toNat_set (a m : UInt64) :
    (a ||| m).toNat = (a &&& ~~~m).toNat + m.toNat := by
  have hapart : (a &&& ~~~m) &&& m = 0 := by
    simpa using MaskedWord.clear_and_keep a m m
  rw [← MaskedWord.clear_or_mask, MaskedWord.toNat_or hapart]

theorem MaskedWord.toNat_bit (a : UInt64) (hm : m.toNat = 2 ^ k) :
    (a &&& m).toNat = 2 ^ k * (a.toNat / 2 ^ k % 2) := by
  rw [UInt64.toNat_and, hm, Nat.and_two_pow, Nat.toNat_testBit, Nat.mul_comm]

theorem MaskedWord.toNat_clear_bit (a : UInt64) (hm : m.toNat = 2 ^ k) :
    (a &&& ~~~m).toNat = a.toNat - 2 ^ k * (a.toNat / 2 ^ k % 2) := by
  rw [MaskedWord.toNat_clear, MaskedWord.toNat_bit a hm]

theorem MaskedWord.toNat_set_bit (a : UInt64) (hm : m.toNat = 2 ^ k) :
    (a ||| m).toNat = a.toNat + 2 ^ k * (1 - a.toNat / 2 ^ k % 2) := by
  rw [MaskedWord.toNat_set, MaskedWord.toNat_clear_bit a hm, hm]
  have hle : (a &&& m).toNat ≤ a.toNat := by
    rw [UInt64.toNat_and]
    exact Nat.and_le_left
  rw [MaskedWord.toNat_bit a hm] at hle
  rcases Nat.mod_two_eq_zero_or_one (a.toNat / 2 ^ k) with hbit | hbit <;> rw [hbit] at hle ⊢ <;>
    omega

theorem MaskedWord.bit_ne_zero (a : UInt64) (hm : m.toNat = 2 ^ k) :
    (a &&& m != 0) = decide (a.toNat / 2 ^ k % 2 = 1) := by
  have hpos := Nat.two_pow_pos k
  have hzero : a &&& m = 0 ↔ (a &&& m).toNat = 0 := UInt64.toNat_inj.symm
  rw [Bool.eq_iff_iff, bne_iff_ne, ne_eq, hzero, MaskedWord.toNat_bit a hm, Nat.mul_eq_zero,
    decide_eq_true_iff]
  omega

theorem MaskedWord.toNat_count : w.count.toNat = w.plain.count := by
  rw [MaskedWord.count, UInt64.toNat_and]
  exact Nat.and_two_pow_sub_one_eq_mod w.raw.toNat 2

theorem MaskedWord.toNat_occupied : w.occupied.toNat = w.plain.occupied := by
  have hmask : MaskedWord.occupiedMask.toNat >>> 2 = 2 ^ 3 - 1 := rfl
  have hshift : MaskedWord.occupiedShift.toNat % 64 = 2 := rfl
  rw [MaskedWord.occupied, UInt64.toNat_shiftRight, UInt64.toNat_and, hshift,
    Nat.shiftRight_and_distrib, hmask, Nat.and_two_pow_sub_one_eq_mod, Nat.shiftRight_eq_div_pow]
  rfl

theorem MaskedWord.toNat_version : w.version.toNat = w.plain.version := by
  rw [MaskedWord.version, UInt64.toNat_shiftRight, Nat.shiftRight_eq_div_pow]
  rfl

theorem MaskedWord.isLocked_eq : w.isLocked = w.plain.isLocked :=
  MaskedWord.bit_ne_zero (k := 7) w.raw rfl

theorem MaskedWord.isWriting_eq : w.isWriting = w.plain.isWriting :=
  MaskedWord.bit_ne_zero (k := 5) w.raw rfl

theorem MaskedWord.hasOverflow_eq : w.hasOverflow = w.plain.hasOverflow :=
  MaskedWord.bit_ne_zero (k := 6) w.raw rfl

theorem MaskedWord.plain_locked : w.locked.plain = w.plain.locked := by
  have hset : w.locked.raw.toNat = _ := MaskedWord.toNat_set_bit (k := 7) w.raw rfl
  exact CellWord.ext_toNat (hset.trans w.plain.toNat_locked.symm)

theorem MaskedWord.plain_unlocked : w.unlocked.plain = w.plain.unlocked := by
  have hclear : w.unlocked.raw.toNat = _ := MaskedWord.toNat_clear_bit (k := 7) w.raw rfl
  exact CellWord.ext_toNat (hclear.trans w.plain.toNat_unlocked.symm)

theorem MaskedWord.plain_writing : w.writing.plain = w.plain.writing := by
  have hset : w.writing.raw.toNat = _ := MaskedWord.toNat_set_bit (k := 5) w.raw rfl
  exact CellWord.ext_toNat (hset.trans w.plain.toNat_writing.symm)

theorem MaskedWord.plain_withOverflow (overflow : Bool) :
    (w.withOverflow overflow).plain = w.plain.withOverflow overflow := by
  have hplain : (w.plain.withOverflow overflow).raw.toNat
      = w.raw.toNat - 64 * (w.raw.toNat / 64 % 2) + 64 * overflow.toNat :=
    w.plain.toNat_withOverflow overflow
  apply CellWord.ext_toNat
  cases overflow with
  | false =>
    have hclear : (w.withOverflow false).raw.toNat = _ :=
      MaskedWord.toNat_clear_bit (k := 6) w.raw rfl
    exact hclear.trans hplain.symm
  | true =>
    have hset : (w.withOverflow true).plain.raw.toNat
        = w.raw.toNat + 64 * (1 - w.raw.toNat / 64 % 2) :=
      MaskedWord.toNat_set_bit (k := 6) w.raw rfl
    rw [hset, hplain, Bool.toNat_true]
    omega

theorem MaskedWord.raw_settled : w.plain.settled.raw = w.raw &&& ~~~MaskedWord.writingMask := by
  have hclear : (w.raw &&& ~~~MaskedWord.writingMask).toNat = _ :=
    MaskedWord.toNat_clear_bit (k := 5) w.raw rfl
  exact UInt64.toNat_inj.mp (w.plain.toNat_settled.trans hclear.symm)

theorem MaskedWord.plain_published : w.published.plain = w.plain.published := by
  have hunlocked : w.plain.settled.unlocked.raw
      = w.raw &&& ~~~(MaskedWord.writingMask ||| MaskedWord.lockedMask) := by
    have hraw := congrArg CellWord.raw (MaskedWord.plain_unlocked ⟨w.plain.settled.raw⟩)
    rw [MaskedWord.clear_or, ← MaskedWord.raw_settled]
    exact hraw.symm
  rw [CellWord.published, hunlocked]
  rfl

/-- The bits that a count and its bitmap are made of. -/
def MaskedWord.slotsMask : UInt64 := countMask ||| occupiedMask

def MaskedWord.slots (count : UInt64) : UInt64 := count ||| ((1 <<< count) - 1) <<< occupiedShift

theorem MaskedWord.slots_under_mask (h : n ≤ inlineSlots) :
    slots (UInt64.ofNat n) &&& slotsMask = slots (UInt64.ofNat n) := by
  simp only [inlineSlots] at h
  interval_cases n <;> decide

theorem MaskedWord.toNat_slots (h : n ≤ inlineSlots) :
    (slots (UInt64.ofNat n)).toNat = n + 4 * CellWord.bitmap n := by
  simp only [inlineSlots] at h
  interval_cases n <;> decide

theorem MaskedWord.plain_withCount (h : n ≤ inlineSlots) :
    (w.withCount (UInt64.ofNat n)).plain = w.plain.withCount n := by
  have hraw : (w.withCount (UInt64.ofNat n)).plain.raw
      = w.raw &&& ~~~slotsMask ||| slots (UInt64.ofNat n) := UInt64.or_assoc _ _ _
  have hapart := MaskedWord.clear_and_keep w.raw (slots (UInt64.ofNat n)) slotsMask
  have hkeep : (w.raw &&& slotsMask).toNat = w.raw.toNat % 32 :=
    (UInt64.toNat_and _ _).trans (Nat.and_two_pow_sub_one_eq_mod w.raw.toNat 5)
  rw [MaskedWord.slots_under_mask h] at hapart
  apply CellWord.ext_toNat
  rw [hraw, MaskedWord.toNat_or hapart, MaskedWord.toNat_clear, hkeep, MaskedWord.toNat_slots h,
    w.plain.toNat_withCount h]
  rfl

theorem MaskedWord.plain_apply (change : CellWord.Change)
    (h : ∀ n, change = .count n → n ≤ inlineSlots) :
    (w.apply change).plain = w.plain.apply change := by
  cases change with
  | count n => exact w.plain_withCount (h n rfl)
  | overflow value => exact w.plain_withOverflow value
  | locked => exact w.plain_locked
  | unlocked => exact w.plain_unlocked
  | writing => exact w.plain_writing
  | published => exact w.plain_published

theorem MaskedWord.plain_foldl (changes : List CellWord.Change)
    (h : ∀ n, .count n ∈ changes → n ≤ inlineSlots) :
    (changes.foldl MaskedWord.apply w).plain = changes.foldl CellWord.apply w.plain := by
  refine List.foldl_rel (r := fun (v : MaskedWord) u => v.plain = u) rfl ?_
  rintro change hmem v _ rfl
  exact v.plain_apply change fun n hn => h n (hn ▸ hmem)

/-- Setting the lock in both words is as good for comparing them as clearing it in both. -/
theorem MaskedWord.sameContents_eq (v w : MaskedWord) :
    v.sameContents w = v.plain.sameContents w.plain := by
  have hraw : v.raw ||| lockedMask = w.raw ||| lockedMask ↔ v.plain.locked = w.plain.locked := by
    rw [← v.plain_locked, ← w.plain_locked]
    exact CellWord.mk.injEq _ _ ▸ Iff.rfl
  rw [MaskedWord.sameContents, CellWord.sameContents, Bool.eq_iff_iff, beq_iff_eq,
    decide_eq_true_iff, hraw, CellWord.locked_inj]

end EpochTable
