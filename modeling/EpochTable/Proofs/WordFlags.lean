import EpochTable.Proofs.TasksSound

namespace EpochTable

variable {ring ring' : EpochRing} {t g n : Nat} {s : Seat} {last : Bool}

/-- What is left of the word without the member count. -/
def Collector.flags (c : Collector Node) : Nat := c.word.toNat % 256

/-- The flags of generation `h`, when `t` is the oldest one and `g` the current one. -/
def EpochRing.flagsOf (t g h : Nat) : Nat := (if h < g then 0 else 1) + if h = t then 0 else 2

structure EpochRing.Flagged (ring : EpochRing) (t g : Nat) : Prop extends ring.Placed t g where
  flags : ∀ h, t ≤ h → h < t + ringSize →
    (ring.collector (Seat.of h)).flags = EpochRing.flagsOf t g h

theorem EpochRing.flags_release (ring : EpochRing) (s t : Seat) :
    ((ring.release s Collector.memberRef).1.collector t).flags = (ring.collector t).flags := by
  have hlt := (ring.collector t).word.toNat_lt
  rw [Collector.flags, EpochRing.word_release, Collector.flags, UInt64.toNat_sub]
  split <;> simp only [Collector.memberRef, UInt64.toNat_ofNat, Nat.reducePow, Nat.reduceMod] <;> omega

theorem EpochRing.flags_advance (ha : ring.advance s = some (ring', last)) (t : Seat) :
    (ring'.collector t).flags
      = if s = t then ((ring.collector t).flags + 255) % 256 else (ring.collector t).flags := by
  have hlt := (ring.collector t).word.toNat_lt
  rw [Collector.flags, EpochRing.word_advance ha, Collector.flags]
  by_cases hs : s = t
  · simp only [hs, if_true, Collector.memberRef, Collector.currentRef, UInt64.toNat_add,
      UInt64.toNat_sub, UInt64.toNat_mul, UInt64.toNat_ofNat, Nat.reducePow, Nat.reduceMod]
    omega
  · simp [hs]

theorem EpochRing.flags_finishDrain (ring : EpochRing) (s t : Seat) (n : Nat) :
    ((ring.finishDrain s n).1.collector t).flags = if s = t then 3
      else if s.next = t then ((ring.collector t).flags + 254) % 256
      else (ring.collector t).flags := by
  have hlt := (ring.collector t).word.toNat_lt
  rw [Collector.flags, EpochRing.word_finishDrain]
  by_cases hs : s = t
  · simp [hs, Collector.idleWord, Collector.currentRef, Collector.backLink]
  · rw [if_neg hs, if_neg hs]
    by_cases hnext : s.next = t
    · simp only [hnext, if_true, Collector.flags, Collector.backLink, UInt64.toNat_sub,
        UInt64.toNat_ofNat, Nat.reducePow, Nat.reduceMod]
      omega
    · simp [hnext, Collector.flags]

theorem EpochRing.Flagged.congr (h : ring.Flagged t g) (hc : ring'.current = ring.current)
    (ht : ring'.tail = ring.tail)
    (hf : ∀ s : Seat, (ring'.collector s).flags = (ring.collector s).flags) : ring'.Flagged t g where
  current := hc.trans h.current
  tail := ht.trans h.tail
  le := h.le
  room := h.room
  flags k hk hk' := (hf _).trans (h.flags k hk hk')

theorem EpochRing.Flagged.enter (h : ring.Flagged t g) : ring.enter.1.Flagged t g :=
  h.congr (MasterWord.current_joined _) (MasterWord.tail_joined _) fun _ => rfl

theorem EpochRing.Flagged.flush (h : ring.Flagged t g) (b : Batch Node) :
    (ring.flush b).1.Flagged t g := by
  refine h.congr rfl rfl fun s => ?_
  rw [Collector.flags, EpochRing.word_flush, Collector.flags]

theorem EpochRing.Flagged.release (h : ring.Flagged t g) (s : Seat) :
    (ring.release s Collector.memberRef).1.Flagged t g :=
  h.congr rfl rfl (ring.flags_release s)

theorem EpochRing.Flagged.unload (h : ring.Flagged t g) (s : Seat) :
    (ring.unload s).1.Flagged t g := by
  refine h.congr rfl rfl fun u => ?_
  rw [EpochRing.collector_unload]
  split <;> rfl

/-- Only the oldest collector can lose its last reference, and only when it is not current. -/
theorem EpochRing.Flagged.of_word_eq_zero (h : ring.Flagged t g)
    (hw : (ring.collector s).word = 0) : s = Seat.of t ∧ t < g := by
  obtain ⟨k, hk, hk', rfl⟩ := Seat.exists_of t s
  have hflags := h.flags k hk hk'
  simp only [Collector.flags, hw, EpochRing.flagsOf] at hflags
  have hold : k < g := by
    by_contra hh
    simp [hh] at hflags
    omega
  have htail : k = t := by
    by_contra hh
    simp [hh] at hflags
  subst htail
  exact ⟨rfl, hold⟩

theorem EpochRing.Flagged.current_ne (h : ring.Flagged t g) (old : t < g) :
    Seat.of t ≠ ring.current := by
  have hroom := h.room
  rw [h.current, ne_eq, Seat.of_inj (Nat.le_refl t) (by omega) h.le hroom]
  omega

/-- The current collector has the reference of being current. -/
theorem EpochRing.Flagged.odd_current (h : ring.Flagged t g) :
    (ring.collector ring.current).word.toNat % 2 = 1 := by
  have hflags := h.flags g h.le h.room
  rw [← h.current] at hflags
  simp only [Collector.flags, EpochRing.flagsOf, Nat.lt_irrefl, if_false] at hflags
  split at hflags <;> omega

theorem EpochRing.Flagged.advance (h : ring.Flagged t g)
    (ha : ring.advance s = some (ring', last)) : ring'.Flagged t (g + 1) := by
  obtain ⟨hs, hplaced⟩ := h.toPlaced.advance ha
  refine ⟨hplaced, fun k hk hk' => ?_⟩
  have hseat := Seat.of_inj h.le h.room hk hk'
  rw [EpochRing.flags_advance ha, h.flags k hk hk', hs]
  simp only [hseat, EpochRing.flagsOf]
  split <;> split <;> split <;> split <;> omega

theorem EpochRing.Flagged.finishDrain (h : ring.Flagged t g) (old : t < g) (n : Nat) :
    (ring.finishDrain (Seat.of t) n).1.Flagged (t + 1) g := by
  have hroom := h.room
  refine ⟨h.toPlaced.finishDrain old _ n, fun k hk hk' => ?_⟩
  rw [EpochRing.flags_finishDrain, Seat.next_of]
  by_cases hlast : k = t + ringSize
  · -- The collector just drained is the last one of the next round.
    have hk : ¬ k < g := by omega
    have hne : k ≠ t + 1 := by simp only [ringSize] at hlast; omega
    rw [hlast, Seat.of_add_ringSize, if_pos rfl, ← hlast]
    simp [EpochRing.flagsOf, hk, hne]
  · have hself := Seat.of_inj (Nat.le_refl t) (by omega) (by omega : t ≤ k) (by omega)
    have hnext := Seat.of_inj (Nat.le_succ t) (by simp only [ringSize]; omega)
      (by omega : t ≤ k) (by omega)
    have hne : ¬ t = k := by omega
    rw [h.flags k (by omega) (by omega)]
    simp only [hself, hne, if_false, hnext, EpochRing.flagsOf]
    split <;> split <;> split <;> split <;> omega

theorem EpochRing.flagged_fresh (threshold : UInt64) : (EpochRing.fresh threshold).Flagged 0 0 := by
  have hbalanced := EpochRing.balanced_fresh threshold
  refine ⟨hbalanced.placed, fun k hk hk' => ?_⟩
  rw [Collector.flags, hbalanced.word k hk hk', Chronicle.toNat_wordOf]
  generalize (UInt64.ofNat (Chronicle.crowd .empty k) - if k = Chronicle.empty.generation then _
    else 0).toNat = count
  by_cases hzero : k = 0 <;> simp [EpochRing.flagsOf, Chronicle.empty, hzero] <;> omega

end EpochTable
