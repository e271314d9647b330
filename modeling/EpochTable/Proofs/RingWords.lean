import EpochTable.Reclaim.Activity
import Mathlib

namespace EpochTable

theorem Seat.val_of (g : Nat) : (Seat.of g).val = g % 16 := rfl

theorem Seat.next_of (g : Nat) : (Seat.of g).next = Seat.of (g + 1) := by
  apply Fin.ext
  simp [Seat.next, Seat.of, Fin.add_def]

/-- Two generations that are less than a round apart have collectors of their own. -/
theorem Seat.of_inj {t g h : Nat} (hg : t ≤ g) (hg' : g < t + ringSize) (hh : t ≤ h)
    (hh' : h < t + ringSize) : Seat.of g = Seat.of h ↔ g = h := by
  simp only [ringSize] at hg' hh'
  simp only [Fin.ext_iff, Seat.val_of]
  omega

theorem Seat.of_add_ringSize (g : Nat) : Seat.of (g + ringSize) = Seat.of g := by
  apply Fin.ext
  simp [Seat.val_of]

theorem Seat.exists_of (t : Nat) (s : Seat) : ∃ g, t ≤ g ∧ g < t + ringSize ∧ s = Seat.of g := by
  have hs := s.isLt
  simp only [ringSize] at hs
  refine ⟨t + (s.val + 16 - t % 16) % 16, by omega, by simp only [ringSize]; omega, ?_⟩
  apply Fin.ext
  rw [Seat.val_of]
  omega

theorem MasterWord.val_current (w : MasterWord) : w.current.val = w.raw.toNat % 16 := rfl

theorem MasterWord.val_tail (w : MasterWord) : w.tail.val = w.raw.toNat / 16 % 16 := rfl

theorem MasterWord.toNat_entered (w : MasterWord) : w.entered.toNat = w.raw.toNat / 256 := by
  simp [MasterWord.entered, UInt64.toNat_div]

theorem MasterWord.toNat_make (current tail : Seat) (entered : UInt64) :
    (MasterWord.make current tail entered).raw.toNat
      = current.val + tail.val * 16 + entered.toNat % 2 ^ 56 * 256 := by
  have hc := current.isLt
  have ht := tail.isLt
  simp only [ringSize] at hc ht
  simp only [MasterWord.make, UInt64.toNat_add, UInt64.toNat_mul, UInt64.toNat_ofNat,
    UInt64.toNat_ofNat', Nat.reducePow, Nat.reduceMod]
  omega

theorem MasterWord.toNat_joined (w : MasterWord) :
    w.joined.raw.toNat = (w.raw.toNat + 256) % 2 ^ 64 := by
  simp [MasterWord.joined, UInt64.toNat_add]

@[simp] theorem MasterWord.current_make (current tail : Seat) (entered : UInt64) :
    (MasterWord.make current tail entered).current = current := by
  have hc := current.isLt
  simp only [ringSize] at hc
  apply Fin.ext
  rw [val_current, toNat_make]
  omega

@[simp] theorem MasterWord.tail_make (current tail : Seat) (entered : UInt64) :
    (MasterWord.make current tail entered).tail = tail := by
  have hc := current.isLt
  have ht := tail.isLt
  simp only [ringSize] at hc ht
  apply Fin.ext
  rw [val_tail, toNat_make]
  omega

theorem MasterWord.entered_make (current tail : Seat) (entered : UInt64) :
    (MasterWord.make current tail entered).entered.toNat = entered.toNat % 2 ^ 56 := by
  have hc := current.isLt
  have ht := tail.isLt
  simp only [ringSize] at hc ht
  rw [toNat_entered, toNat_make]
  omega

@[simp] theorem MasterWord.current_joined (w : MasterWord) : w.joined.current = w.current := by
  apply Fin.ext
  rw [val_current, val_current, toNat_joined]
  omega

@[simp] theorem MasterWord.tail_joined (w : MasterWord) : w.joined.tail = w.tail := by
  apply Fin.ext
  rw [val_tail, val_tail, toNat_joined]
  omega

/-- The count of the master word has 56 bits, so as a part of a collector's word it never wraps
askew. -/
theorem MasterWord.entered_joined (w : MasterWord) :
    256 * w.joined.entered = 256 * w.entered + 256 := by
  have hw := w.raw.toNat_lt
  apply UInt64.toNat_inj.mp
  simp only [UInt64.toNat_add, UInt64.toNat_mul, toNat_entered, toNat_joined, UInt64.toNat_ofNat,
    Nat.reducePow, Nat.reduceMod]
  omega

@[simp] theorem MasterWord.current_advanced (w : MasterWord) :
    w.advanced.current = w.current.next := current_make _ _ _

@[simp] theorem MasterWord.tail_advanced (w : MasterWord) : w.advanced.tail = w.tail :=
  tail_make _ _ _

@[simp] theorem MasterWord.entered_advanced (w : MasterWord) : w.advanced.entered = 0 := by
  apply UInt64.toNat_inj.mp
  exact entered_make _ _ _

@[simp] theorem MasterWord.current_drained (w : MasterWord) : w.drained.current = w.current :=
  current_make _ _ _

@[simp] theorem MasterWord.tail_drained (w : MasterWord) : w.drained.tail = w.tail.next :=
  tail_make _ _ _

@[simp] theorem MasterWord.entered_drained (w : MasterWord) : w.drained.entered = w.entered := by
  have hw := w.raw.toNat_lt
  apply UInt64.toNat_inj.mp
  rw [MasterWord.drained, entered_make, toNat_entered]
  omega

theorem EpochRing.collector_setCollector (r : EpochRing) (s t : Seat) (k : Collector Node) :
    (r.setCollector s k).collector t = if s = t then k else r.collector t := by
  simp only [EpochRing.collector, EpochRing.setCollector, Fin.getElem_fin, Vector.getElem_set,
    Fin.ext_iff]

theorem EpochRing.collector_flush (r : EpochRing) (b : Batch Node) (t : Seat) :
    (r.flush b).1.collector t =
      if r.current = t then ((r.collector t).push b).1 else r.collector t := by
  rw [EpochRing.flush, EpochRing.collector_setCollector]
  split
  next h => rw [h]
  next => rfl

theorem EpochRing.collector_release (r : EpochRing) (s t : Seat) (amount : UInt64) :
    (r.release s amount).1.collector t =
      if s = t then ((r.collector t).release amount).1 else r.collector t := by
  rw [EpochRing.release, EpochRing.collector_setCollector]
  split
  next h => rw [h]
  next => rfl

theorem EpochRing.collector_unload (r : EpochRing) (s t : Seat) :
    (r.unload s).1.collector t = if s = t then (r.collector t).unload.1 else r.collector t := by
  rw [EpochRing.unload, EpochRing.collector_setCollector]
  split
  next h => rw [h]
  next => rfl

theorem EpochRing.advance_eq_some {r r' : EpochRing} {s : Seat} {last : Bool}
    (h : r.advance s = some (r', last)) :
    r.current = s ∧ r.tail ≠ s.next ∧ last = ((r.collector s).retire r.entered).2 ∧
      r' = EpochRing.setCollector { r with master := r.master.advanced } s
        ((r.collector s).retire r.entered).1 := by
  unfold EpochRing.advance at h
  split at h
  next => simp at h
  next hh =>
    obtain ⟨hr, hl⟩ := Prod.mk.inj (Option.some.inj h)
    have hcurrent : r.current = s := by
      by_contra hne
      exact hh (Or.inl hne)
    exact ⟨hcurrent, fun ht => hh (Or.inr ht), hl.symm, hr.symm⟩

theorem EpochRing.collector_advance {r r' : EpochRing} {s : Seat} {last : Bool}
    (h : r.advance s = some (r', last)) (t : Seat) : r'.collector t =
      if s = t then ((r.collector t).retire r.entered).1 else r.collector t := by
  obtain ⟨_, _, _, rfl⟩ := EpochRing.advance_eq_some h
  rw [EpochRing.collector_setCollector]
  split
  next h => rw [h]
  next => rfl

theorem Seat.next_ne (s : Seat) : s.next ≠ s := by
  have hs := s.isLt
  simp only [ringSize] at hs
  intro h
  have hv := congrArg Fin.val h
  simp only [Seat.next, Fin.val_add, ringSize] at hv
  simp at hv
  omega

theorem EpochRing.collector_finishDrain (r : EpochRing) (s t : Seat) (n : Nat) :
    (r.finishDrain s n).1.collector t =
      if s = t then (r.collector t).recycle
      else if s.next = t then ((r.collector t).release Collector.backLink).1
      else r.collector t := by
  let idle := r.setCollector s (r.collector s).recycle
  let moved : EpochRing :=
    { idle with master := idle.master.drained, reclaimed := idle.reclaimed + n }
  have hmoved : ∀ u : Seat, moved.collector u
      = if s = u then (r.collector s).recycle else r.collector u :=
    fun u => r.collector_setCollector s u _
  have hdef : (r.finishDrain s n).1 = (moved.release s.next Collector.backLink).1 := rfl
  rw [hdef, EpochRing.collector_release, hmoved]
  by_cases hs : s = t
  · subst hs
    rw [if_neg s.next_ne, if_pos rfl, if_pos rfl]
  · rw [if_neg hs, if_neg hs]

theorem EpochRing.master_finishDrain (r : EpochRing) (s : Seat) (n : Nat) :
    (r.finishDrain s n).1.master = r.master.drained := rfl

/-- The oldest collector is that of generation `t`, the current one that of `g`, less than a round
later. -/
structure EpochRing.Placed (r : EpochRing) (t g : Nat) : Prop where
  current : r.current = Seat.of g
  tail : r.tail = Seat.of t
  le : t ≤ g
  room : g < t + ringSize

/-- An advance keeps clear of the tail. -/
theorem EpochRing.Placed.advance {r r' : EpochRing} {t g : Nat} {s : Seat} {last : Bool}
    (h : r.Placed t g) (ha : r.advance s = some (r', last)) :
    s = Seat.of g ∧ r'.Placed t (g + 1) := by
  obtain ⟨hcurrent, htail, _, hr⟩ := EpochRing.advance_eq_some ha
  have hs : s = Seat.of g := hcurrent.symm.trans h.current
  have hmaster : r'.master = r.master.advanced := by rw [hr]; rfl
  have hroom := h.room
  have hfree : g + 1 < t + ringSize := by
    by_contra hh
    have heq : g + 1 = t + ringSize := by omega
    rw [h.tail, hs, Seat.next_of, heq, Seat.of_add_ringSize] at htail
    exact htail rfl
  refine ⟨hs, ?_, ?_, Nat.le_succ_of_le h.le, hfree⟩
  · rw [EpochRing.current, hmaster, MasterWord.current_advanced]
    exact (congrArg Seat.next h.current).trans (Seat.next_of _)
  · rw [EpochRing.tail, hmaster, MasterWord.tail_advanced]
    exact h.tail

theorem EpochRing.Placed.finishDrain {r : EpochRing} {t g : Nat} (h : r.Placed t g) (old : t < g)
    (s : Seat) (n : Nat) : (r.finishDrain s n).1.Placed (t + 1) g := by
  refine ⟨?_, ?_, old, Nat.lt_succ_of_lt h.room⟩
  · rw [EpochRing.current, EpochRing.master_finishDrain, MasterWord.current_drained]
    exact h.current
  · rw [EpochRing.tail, EpochRing.master_finishDrain, MasterWord.tail_drained]
    exact (congrArg Seat.next h.tail).trans (Seat.next_of _)

end EpochTable
