import EpochTable.CellWord
import Mathlib

namespace EpochTable

variable (w : CellWord) {n : Nat}

theorem CellWord.count_le : w.count ≤ inlineSlots := by
  have := Nat.mod_lt w.raw.toNat (show 0 < 4 by decide)
  simp only [CellWord.count, inlineSlots]
  omega

theorem CellWord.ext_toNat {w w' : CellWord} (h : w.raw.toNat = w'.raw.toNat) : w = w' := by
  cases w
  cases w'
  exact congrArg CellWord.mk (UInt64.toNat_inj.mp h)

/-- Adding a bit that is not set sets it and carries nothing. -/
theorem CellWord.toNat_set_bit (x : UInt64) {bit : UInt64} (hbit : 2 * bit.toNat ∣ 2 ^ 64) :
    (if x.toNat / bit.toNat % 2 = 1 then x else x + bit).toNat
      = x.toNat + bit.toNat * (1 - x.toNat / bit.toNat % 2) := by
  split
  next hset => rw [hset, Nat.sub_self, Nat.mul_zero, Nat.add_zero]
  next hset =>
    obtain ⟨m, hm⟩ := hbit
    have hclear : x.toNat / bit.toNat % 2 = 0 := by omega
    have hword : 2 ^ 64 = 2 * m * bit.toNat := by rw [hm, Nat.mul_right_comm]
    have hpos : 0 < bit.toNat := by
      by_contra hzero
      rw [Nat.eq_zero_of_not_pos hzero] at hword
      omega
    have hquot : x.toNat / bit.toNat < 2 * m :=
      (Nat.div_lt_iff_lt_mul hpos).mpr (hword ▸ x.toNat_lt)
    -- the quotient is even and so is its bound, which leaves room for one more
    have hroom : x.toNat + bit.toNat < 2 ^ 64 := by
      rw [hword, ← Nat.div_lt_iff_lt_mul hpos, Nat.add_div_right _ hpos]
      omega
    rw [hclear, Nat.sub_zero, Nat.mul_one, UInt64.toNat_add, Nat.mod_eq_of_lt hroom]

theorem CellWord.toNat_clear_bit (x bit : UInt64) :
    (if x.toNat / bit.toNat % 2 = 1 then x - bit else x).toNat
      = x.toNat - bit.toNat * (x.toNat / bit.toNat % 2) := by
  split
  next hset =>
    have hle : bit ≤ x := by
      by_contra hlt
      rw [UInt64.le_iff_toNat_le, Nat.not_le] at hlt
      rw [Nat.div_eq_of_lt hlt] at hset
      omega
    rw [hset, Nat.mul_one, UInt64.toNat_sub_of_le _ _ hle]
  next hset =>
    have hclear : x.toNat / bit.toNat % 2 = 0 := by omega
    rw [hclear, Nat.mul_zero, Nat.sub_zero]

theorem CellWord.toNat_locked :
    w.locked.raw.toNat = w.raw.toNat + 128 * (1 - w.raw.toNat / 128 % 2) := by
  simp only [CellWord.locked, CellWord.isLocked, decide_eq_true_eq, apply_ite CellWord.raw]
  exact CellWord.toNat_set_bit w.raw (show 2 * CellWord.lockedBit.toNat ∣ 2 ^ 64 by decide)

theorem CellWord.toNat_unlocked :
    w.unlocked.raw.toNat = w.raw.toNat - 128 * (w.raw.toNat / 128 % 2) := by
  simp only [CellWord.unlocked, CellWord.isLocked, decide_eq_true_eq, apply_ite CellWord.raw]
  exact CellWord.toNat_clear_bit w.raw CellWord.lockedBit

theorem CellWord.toNat_writing :
    w.writing.raw.toNat = w.raw.toNat + 32 * (1 - w.raw.toNat / 32 % 2) := by
  simp only [CellWord.writing, CellWord.isWriting, decide_eq_true_eq, apply_ite CellWord.raw]
  exact CellWord.toNat_set_bit w.raw (show 2 * CellWord.writingBit.toNat ∣ 2 ^ 64 by decide)

theorem CellWord.toNat_settled :
    w.settled.raw.toNat = w.raw.toNat - 32 * (w.raw.toNat / 32 % 2) := by
  simp only [CellWord.settled, CellWord.isWriting, decide_eq_true_eq, apply_ite CellWord.raw]
  exact CellWord.toNat_clear_bit w.raw CellWord.writingBit

theorem CellWord.toNat_withOverflow (overflow : Bool) : (w.withOverflow overflow).raw.toNat
    = w.raw.toNat - 64 * (w.raw.toNat / 64 % 2) + 64 * overflow.toNat := by
  cases overflow with
  | false =>
    simp only [CellWord.withOverflow, CellWord.hasOverflow, ← Bool.not_eq_true, decide_eq_true_eq,
      ite_not, Bool.false_eq_true, if_false, apply_ite CellWord.raw]
    exact CellWord.toNat_clear_bit w.raw CellWord.overflowBit
  | true =>
    have hset := CellWord.toNat_set_bit w.raw
      (show 2 * CellWord.overflowBit.toNat ∣ 2 ^ 64 by decide)
    have hbit : CellWord.overflowBit.toNat = 64 := by decide
    simp only [CellWord.withOverflow, CellWord.hasOverflow, decide_eq_true_eq, if_true,
      apply_ite CellWord.raw, Bool.toNat_true]
    rw [hbit] at hset
    rw [hset]
    omega

theorem CellWord.toNat_published :
    w.published.raw.toNat = (w.settled.unlocked.raw.toNat + 256) % 2 ^ 64 :=
  UInt64.toNat_add _ _

theorem CellWord.bitmap_lt (h : n ≤ inlineSlots) : CellWord.bitmap n < 8 := by
  simp only [inlineSlots] at h
  interval_cases n <;> decide

theorem CellWord.toNat_withCount (h : n ≤ inlineSlots) : (w.withCount n).raw.toNat
    = w.raw.toNat - w.raw.toNat % 32 + (n + 4 * CellWord.bitmap n) := by
  have hw := w.raw.toNat_lt
  have hb := CellWord.bitmap_lt h
  simp only [inlineSlots] at h
  have hmod : (w.raw % 32).toNat = w.raw.toNat % 32 := UInt64.toNat_mod _ _
  have hsub : (w.raw - w.raw % 32).toNat = w.raw.toNat - w.raw.toNat % 32 := by
    have hle : w.raw % 32 ≤ w.raw := UInt64.le_iff_toNat_le.mpr (hmod ▸ Nat.mod_le _ _)
    rw [UInt64.toNat_sub_of_le _ _ hle, hmod]
  have hsmall : (UInt64.ofNat (n + 4 * CellWord.bitmap n)).toNat = n + 4 * CellWord.bitmap n := by
    rw [UInt64.toNat_ofNat', Nat.mod_eq_of_lt (by omega)]
  simp only [CellWord.withCount, UInt64.toNat_add, hsub, hsmall]
  omega

@[simp] theorem CellWord.count_locked : w.locked.count = w.count := by
  simp only [CellWord.count, CellWord.toNat_locked]
  omega

@[simp] theorem CellWord.occupied_locked : w.locked.occupied = w.occupied := by
  simp only [CellWord.occupied, CellWord.toNat_locked]
  omega

@[simp] theorem CellWord.hasOverflow_locked : w.locked.hasOverflow = w.hasOverflow := by
  simp only [CellWord.hasOverflow, CellWord.toNat_locked, decide_eq_decide]
  omega

@[simp] theorem CellWord.isWriting_locked : w.locked.isWriting = w.isWriting := by
  simp only [CellWord.isWriting, CellWord.toNat_locked, decide_eq_decide]
  omega

@[simp] theorem CellWord.isLocked_locked : w.locked.isLocked = true := by
  simp only [CellWord.isLocked, CellWord.toNat_locked, decide_eq_true_eq]
  omega

@[simp] theorem CellWord.count_unlocked : w.unlocked.count = w.count := by
  simp only [CellWord.count, CellWord.toNat_unlocked]
  omega

@[simp] theorem CellWord.occupied_unlocked : w.unlocked.occupied = w.occupied := by
  simp only [CellWord.occupied, CellWord.toNat_unlocked]
  omega

@[simp] theorem CellWord.hasOverflow_unlocked : w.unlocked.hasOverflow = w.hasOverflow := by
  simp only [CellWord.hasOverflow, CellWord.toNat_unlocked, decide_eq_decide]
  omega

@[simp] theorem CellWord.isWriting_unlocked : w.unlocked.isWriting = w.isWriting := by
  simp only [CellWord.isWriting, CellWord.toNat_unlocked, decide_eq_decide]
  omega

@[simp] theorem CellWord.isLocked_unlocked : w.unlocked.isLocked = false := by
  simp only [CellWord.isLocked, CellWord.toNat_unlocked, decide_eq_false_iff_not]
  omega

theorem CellWord.unlocked_of_free {w : CellWord} (h : w.isLocked = false) : w.unlocked = w :=
  if_neg (Bool.eq_false_iff.mp h)

/-- Giving back a lock that was just taken restores the word. -/
theorem CellWord.unlocked_locked {w : CellWord} (h : w.isLocked = false) : w.locked.unlocked = w := by
  simp only [CellWord.isLocked, decide_eq_false_iff_not] at h
  apply CellWord.ext_toNat
  rw [CellWord.toNat_unlocked, CellWord.toNat_locked]
  omega

/-- To set the lock in both of two words or to clear it in both leaves the same differences. -/
theorem CellWord.locked_inj {w w' : CellWord} :
    w.locked = w'.locked ↔ w.unlocked = w'.unlocked := by
  have hlocked (u : CellWord) : u.locked.raw.toNat = u.unlocked.raw.toNat + 128 := by
    rw [u.toNat_locked, u.toNat_unlocked]
    omega
  constructor
  · intro h
    have heq := hlocked w
    rw [h, hlocked w'] at heq
    exact CellWord.ext_toNat (by omega)
  · intro h
    have heq := hlocked w
    rw [h, ← hlocked w'] at heq
    exact CellWord.ext_toNat heq

theorem CellWord.eq_of_unlocked {w w' : CellWord} (h : w.unlocked = w'.unlocked)
    (hlock : w.isLocked = w'.isLocked) : w = w' := by
  have hlt := w.raw.toNat_lt
  have hlt' := w'.raw.toNat_lt
  have hraw := congrArg (fun u => u.raw.toNat) h
  simp only [CellWord.toNat_unlocked] at hraw
  simp only [CellWord.isLocked, decide_eq_decide] at hlock
  exact CellWord.ext_toNat (by omega)

@[simp] theorem CellWord.count_writing : w.writing.count = w.count := by
  simp only [CellWord.count, CellWord.toNat_writing]
  omega

@[simp] theorem CellWord.occupied_writing : w.writing.occupied = w.occupied := by
  simp only [CellWord.occupied, CellWord.toNat_writing]
  omega

@[simp] theorem CellWord.hasOverflow_writing : w.writing.hasOverflow = w.hasOverflow := by
  simp only [CellWord.hasOverflow, CellWord.toNat_writing, decide_eq_decide]
  omega

@[simp] theorem CellWord.isWriting_writing : w.writing.isWriting = true := by
  simp only [CellWord.isWriting, CellWord.toNat_writing, decide_eq_true_eq]
  omega

@[simp] theorem CellWord.isLocked_writing : w.writing.isLocked = w.isLocked := by
  simp only [CellWord.isLocked, CellWord.toNat_writing, decide_eq_decide]
  omega

theorem CellWord.settled_writing {w : CellWord} (h : w.isWriting = false) : w.writing.settled = w := by
  simp only [CellWord.isWriting, decide_eq_false_iff_not] at h
  apply CellWord.ext_toNat
  rw [CellWord.toNat_settled, CellWord.toNat_writing]
  omega

@[simp] theorem CellWord.count_settled : w.settled.count = w.count := by
  simp only [CellWord.count, CellWord.toNat_settled]
  omega

@[simp] theorem CellWord.occupied_settled : w.settled.occupied = w.occupied := by
  simp only [CellWord.occupied, CellWord.toNat_settled]
  omega

@[simp] theorem CellWord.hasOverflow_settled : w.settled.hasOverflow = w.hasOverflow := by
  simp only [CellWord.hasOverflow, CellWord.toNat_settled, decide_eq_decide]
  omega

@[simp] theorem CellWord.isWriting_settled : w.settled.isWriting = false := by
  simp only [CellWord.isWriting, CellWord.toNat_settled, decide_eq_false_iff_not]
  omega

@[simp] theorem CellWord.count_published : w.published.count = w.count := by
  have hrest : w.settled.unlocked.count = w.count := by simp
  rw [← hrest]
  simp only [CellWord.count, CellWord.toNat_published]
  omega

@[simp] theorem CellWord.occupied_published : w.published.occupied = w.occupied := by
  have hrest : w.settled.unlocked.occupied = w.occupied := by simp
  rw [← hrest]
  simp only [CellWord.occupied, CellWord.toNat_published]
  omega

@[simp] theorem CellWord.hasOverflow_published : w.published.hasOverflow = w.hasOverflow := by
  have hrest : w.settled.unlocked.hasOverflow = w.hasOverflow := by simp
  rw [← hrest]
  simp only [CellWord.hasOverflow, CellWord.toNat_published, decide_eq_decide]
  omega

@[simp] theorem CellWord.isWriting_published : w.published.isWriting = false := by
  have hrest : w.settled.unlocked.isWriting = false := by simp
  rw [← hrest]
  simp only [CellWord.isWriting, CellWord.toNat_published, decide_eq_decide]
  omega

@[simp] theorem CellWord.isLocked_published : w.published.isLocked = false := by
  have hrest : w.settled.unlocked.isLocked = false := by simp
  rw [← hrest]
  simp only [CellWord.isLocked, CellWord.toNat_published, decide_eq_decide]
  omega

/-- A change that was announced after locking leaves the word as it was before, one version ahead. -/
theorem CellWord.published_writing {w : CellWord} (hfree : w.isLocked = false)
    (hrest : w.isWriting = false) :
    w.locked.writing.published = ⟨w.raw + CellWord.versionOne⟩ := by
  have hlocked : w.locked.isWriting = false := w.isWriting_locked.trans hrest
  rw [CellWord.published, CellWord.settled_writing hlocked, CellWord.unlocked_locked hfree]

@[simp] theorem CellWord.count_withOverflow (overflow : Bool) :
    (w.withOverflow overflow).count = w.count := by
  simp only [CellWord.count, CellWord.toNat_withOverflow]
  omega

@[simp] theorem CellWord.occupied_withOverflow (overflow : Bool) :
    (w.withOverflow overflow).occupied = w.occupied := by
  simp only [CellWord.occupied, CellWord.toNat_withOverflow]
  omega

@[simp] theorem CellWord.hasOverflow_withOverflow (overflow : Bool) :
    (w.withOverflow overflow).hasOverflow = overflow := by
  simp only [CellWord.hasOverflow, CellWord.toNat_withOverflow]
  cases overflow <;> simp only [Bool.toNat_false, Bool.toNat_true, decide_eq_true_eq,
    decide_eq_false_iff_not] <;> omega

@[simp] theorem CellWord.isWriting_withOverflow (overflow : Bool) :
    (w.withOverflow overflow).isWriting = w.isWriting := by
  simp only [CellWord.isWriting, CellWord.toNat_withOverflow, decide_eq_decide]
  omega

@[simp] theorem CellWord.isLocked_withOverflow (overflow : Bool) :
    (w.withOverflow overflow).isLocked = w.isLocked := by
  simp only [CellWord.isLocked, CellWord.toNat_withOverflow, decide_eq_decide]
  cases overflow <;> simp only [Bool.toNat_false, Bool.toNat_true] <;> omega

theorem CellWord.count_withCount (h : n ≤ inlineSlots) : (w.withCount n).count = n := by
  have hb := CellWord.bitmap_lt h
  simp only [inlineSlots] at h
  simp only [CellWord.count, w.toNat_withCount h]
  omega

theorem CellWord.occupied_withCount (h : n ≤ inlineSlots) :
    (w.withCount n).occupied = CellWord.bitmap n := by
  have hb := CellWord.bitmap_lt h
  simp only [inlineSlots] at h
  simp only [CellWord.occupied, w.toNat_withCount h]
  omega

theorem CellWord.hasOverflow_withCount (h : n ≤ inlineSlots) :
    (w.withCount n).hasOverflow = w.hasOverflow := by
  have hb := CellWord.bitmap_lt h
  simp only [inlineSlots] at h
  simp only [CellWord.hasOverflow, w.toNat_withCount h, decide_eq_decide]
  omega

theorem CellWord.isWriting_withCount (h : n ≤ inlineSlots) :
    (w.withCount n).isWriting = w.isWriting := by
  have hb := CellWord.bitmap_lt h
  simp only [inlineSlots] at h
  simp only [CellWord.isWriting, w.toNat_withCount h, decide_eq_decide]
  omega

theorem CellWord.isLocked_withCount (h : n ≤ inlineSlots) :
    (w.withCount n).isLocked = w.isLocked := by
  have hb := CellWord.bitmap_lt h
  simp only [inlineSlots] at h
  simp only [CellWord.isLocked, w.toNat_withCount h, decide_eq_decide]
  omega

theorem CellWord.version_lt : w.version < 2 ^ 56 := by
  have hw := w.raw.toNat_lt
  simp only [CellWord.version]
  omega

@[simp] theorem CellWord.version_locked : w.locked.version = w.version := by
  simp only [CellWord.version, CellWord.toNat_locked]
  omega

@[simp] theorem CellWord.version_unlocked : w.unlocked.version = w.version := by
  simp only [CellWord.version, CellWord.toNat_unlocked]
  omega

@[simp] theorem CellWord.version_writing : w.writing.version = w.version := by
  simp only [CellWord.version, CellWord.toNat_writing]
  omega

@[simp] theorem CellWord.version_settled : w.settled.version = w.version := by
  simp only [CellWord.version, CellWord.toNat_settled]
  omega

@[simp] theorem CellWord.version_withOverflow (overflow : Bool) :
    (w.withOverflow overflow).version = w.version := by
  simp only [CellWord.version, CellWord.toNat_withOverflow]
  cases overflow <;> simp only [Bool.toNat_false, Bool.toNat_true] <;> omega

theorem CellWord.version_withCount (h : n ≤ inlineSlots) :
    (w.withCount n).version = w.version := by
  have hb := CellWord.bitmap_lt h
  simp only [inlineSlots] at h
  simp only [CellWord.version, w.toNat_withCount h]
  omega

/-- The version is one ahead, and after the last one comes the first. -/
theorem CellWord.version_published : w.published.version = (w.version + 1) % 2 ^ 56 := by
  have hrest : w.settled.unlocked.version = w.version := by simp
  rw [← hrest]
  simp only [CellWord.version, CellWord.toNat_published]
  omega

end EpochTable
