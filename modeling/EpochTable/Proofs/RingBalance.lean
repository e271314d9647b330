import EpochTable.Proofs.Chronicle
import EpochTable.Proofs.Lists
import EpochTable.Proofs.RingWords

namespace EpochTable

variable {r r' : EpochRing} {c : Chronicle} {i g : Nat}

/-- The word of the collector of generation `g`, when `entered` members entered the current one. -/
def Chronicle.wordOf (c : Chronicle) (entered : UInt64) (g : Nat) : UInt64 :=
  (if g < c.generation then 0 else 1) + (if g = c.ended then 0 else 2)
    + 256 * (UInt64.ofNat (c.crowd g) - if g = c.generation then entered else 0)

/-- Between the oldest generation and the current one lie all counted members, and less than a round
of the ring; the words count references. -/
structure EpochRing.Balanced (r : EpochRing) (c : Chronicle) : Prop where
  current : r.current = Seat.of c.generation
  tail : r.tail = Seat.of c.ended
  ended_le : c.ended ≤ c.generation
  room : c.generation < c.ended + ringSize
  within : ∀ p ∈ c.roster, c.ended ≤ p.2 ∧ p.2 ≤ c.generation
  once : c.counted.Nodup
  word : ∀ g, c.ended ≤ g → g < c.ended + ringSize →
    (r.collector (Seat.of g)).word = c.wordOf r.entered g

/-- The oldest collector is not current any more, and nobody is counted in it. -/
def Chronicle.Vacant (c : Chronicle) : Prop :=
  c.ended < c.generation ∧ c.crowd c.ended = 0

theorem Chronicle.crowd_le (c : Chronicle) (g : Nat) : c.crowd g ≤ c.roster.length :=
  List.countP_le_length

theorem Chronicle.crowd_eq_zero : c.crowd g = 0 ↔ ∀ p ∈ c.roster, p.2 ≠ g := by
  simp [Chronicle.crowd, List.countP_eq_zero]

theorem Chronicle.crowd_joined (c : Chronicle) (i : Nat) (s : Seat) (g : Nat) :
    (c.record (.joined i s)).crowd g = c.crowd g + if c.generation = g then 1 else 0 := by
  simp [Chronicle.record, Chronicle.crowd, List.countP_cons]

theorem Chronicle.crowd_left (hn : c.counted.Nodup) (h : (i, g) ∈ c.roster) (s : Seat) (g' : Nat) :
    c.crowd g' = (c.record (.left i s)).crowd g' + if g = g' then 1 else 0 := by
  have hperm := (perm_cons_filter_of_nodup hn h).countP_eq fun p => p.2 = g'
  simpa [Chronicle.record, Chronicle.crowd, List.countP_cons] using hperm

theorem Chronicle.mem_left {p : Nat × Nat} {s : Seat} (h : p ∈ (c.record (.left i s)).roster) :
    p ∈ c.roster :=
  List.mem_of_mem_filter h

/-- The parts of a collector's word, each in bits of its own. -/
theorem Chronicle.toNat_wordOf (c : Chronicle) (entered : UInt64) (g : Nat) :
    (c.wordOf entered g).toNat =
      (if g < c.generation then 0 else 1) + (if g = c.ended then 0 else 2)
        + 256 * (UInt64.ofNat (c.crowd g) - if g = c.generation then entered else 0).toNat
          % 2 ^ 64 := by
  rw [Chronicle.wordOf]
  -- The member count may have wrapped below zero; the two low bits do not depend on it.
  generalize UInt64.ofNat (c.crowd g) - (if g = c.generation then entered else 0) = x
  have hx := x.toNat_lt
  simp only [UInt64.toNat_add, UInt64.toNat_mul]
  split <;> split <;> simp <;> omega

theorem Chronicle.wordOf_eq_zero {entered : UInt64} (few : c.roster.length < 2 ^ 56) :
    c.wordOf entered g = 0 ↔ g < c.generation ∧ g = c.ended ∧ c.crowd g = 0 := by
  have hle := c.crowd_le g
  rw [← UInt64.toNat_inj, Chronicle.toNat_wordOf]
  constructor
  · intro h
    have hlt : g < c.generation := by
      by_contra hh
      simp only [hh, if_false] at h
      split at h <;> simp at h
    have he : g = c.ended := by
      by_contra hh
      simp only [hh, if_false] at h
      split at h <;> simp at h
    have hne : g ≠ c.generation := by omega
    simp only [he, if_true] at h
    refine ⟨hlt, he, ?_⟩
    subst he
    simp [hne] at h
    omega
  · rintro ⟨hlt, he, hc⟩
    have hne : g ≠ c.generation := by omega
    subst he
    simp [hlt, hne, hc]

theorem Chronicle.wordOf_joined {entered entered' : UInt64}
    (h : 256 * entered' = 256 * entered + 256) (s : Seat) (g : Nat) :
    (c.record (.joined i s)).wordOf entered' g = c.wordOf entered g := by
  rw [Chronicle.wordOf, Chronicle.crowd_joined, Chronicle.wordOf]
  simp only [Chronicle.record]
  congr 1
  by_cases hg : g = c.generation
  · subst hg
    simp only [if_true, UInt64.ofNat_add]
    grind
  · simp [hg, Ne.symm hg]

theorem EpochRing.Balanced.enter (h : r.Balanced c) (hi : i ∉ c.counted) :
    r.enter.1.Balanced (c.record (.joined i r.enter.2)) where
  current := (MasterWord.current_joined _).trans h.current
  tail := (MasterWord.tail_joined _).trans h.tail
  ended_le := h.ended_le
  room := h.room
  within p hp := by
    rcases List.mem_cons.mp hp with rfl | hp
    · exact ⟨h.ended_le, Nat.le_refl _⟩
    · exact h.within p hp
  once := List.nodup_cons.mpr ⟨hi, h.once⟩
  word g hg hg' :=
    (h.word g hg hg').trans (Chronicle.wordOf_joined (MasterWord.entered_joined _) _ g).symm

theorem Chronicle.wordOf_left (hn : c.counted.Nodup) (hp : (i, g) ∈ c.roster) (s : Seat)
    (entered : UInt64) (g' : Nat) :
    (c.record (.left i s)).wordOf entered g'
      = c.wordOf entered g' - if g = g' then Collector.memberRef else 0 := by
  have hcrowd := Chronicle.crowd_left hn hp s g'
  have hgeneration : (c.record (.left i s)).generation = c.generation := rfl
  have hended : (c.record (.left i s)).ended = c.ended := rfl
  rw [Chronicle.wordOf, Chronicle.wordOf, hcrowd, hgeneration, hended, Collector.memberRef]
  by_cases hg : g = g'
  · simp only [hg, if_true, UInt64.ofNat_add]
    grind
  · simp [hg]

theorem EpochRing.word_release (r : EpochRing) (s t : Seat) (amount : UInt64) :
    ((r.release s amount).1.collector t).word
      = (r.collector t).word - if s = t then amount else 0 := by
  rw [EpochRing.collector_release]
  split
  next => rfl
  next => simp

theorem EpochRing.release_last (r : EpochRing) (s : Seat) (amount : UInt64) :
    (r.release s amount).2 = true ↔ ((r.release s amount).1.collector s).word = 0 := by
  rw [EpochRing.word_release, if_pos rfl, UInt64.sub_eq_iff_eq_add, UInt64.zero_add]
  simp [EpochRing.release, Collector.release]

theorem EpochRing.Balanced.leave (h : r.Balanced c) (hp : (i, g) ∈ c.roster) :
    (r.release (Seat.of g) Collector.memberRef).1.Balanced (c.record (.left i (Seat.of g))) := by
  refine ⟨h.current, h.tail, h.ended_le, h.room, ?_, ?_, ?_⟩
  · exact fun p hp => h.within p (Chronicle.mem_left hp)
  · exact h.once.sublist (List.filter_sublist.map Prod.fst)
  · intro g' hg hg'
    have hw := h.within _ hp
    have hroom := h.room
    have hseat := Seat.of_inj hw.1 (by omega) hg hg'
    rw [EpochRing.word_release, h.word g' hg hg', Chronicle.wordOf_left h.once hp]
    simp only [hseat]
    rfl

theorem EpochRing.word_advance {s t : Seat} {last : Bool} (h : r.advance s = some (r', last)) :
    (r'.collector t).word = (r.collector t).word
      + if s = t then r.entered * Collector.memberRef - Collector.currentRef else 0 := by
  rw [EpochRing.collector_advance h]
  split
  next => rfl
  next => simp

theorem EpochRing.advance_last {s : Seat} {last : Bool} (h : r.advance s = some (r', last)) :
    last = true ↔ (r'.collector s).word = 0 := by
  obtain ⟨_, _, hl, _⟩ := EpochRing.advance_eq_some h
  rw [EpochRing.word_advance h, if_pos rfl, hl]
  simp [Collector.retire]

theorem Chronicle.wordOf_advanced (c : Chronicle) (s : Seat) (entered : UInt64) (g : Nat) :
    (c.record (.advanced s)).wordOf 0 g = c.wordOf entered g
      + if c.generation = g then entered * Collector.memberRef - Collector.currentRef else 0 := by
  have hgeneration : (c.record (.advanced s)).generation = c.generation + 1 := rfl
  have hended : (c.record (.advanced s)).ended = c.ended := rfl
  have hcrowd : (c.record (.advanced s)).crowd g = c.crowd g := rfl
  rw [Chronicle.wordOf, Chronicle.wordOf, hgeneration, hended, hcrowd, Collector.memberRef,
    Collector.currentRef]
  by_cases hg : g = c.generation
  · subst hg
    simp only [Nat.lt_irrefl, Nat.lt_add_one, if_true, if_false]
    grind
  · have hlt : g < c.generation + 1 ↔ g < c.generation := by omega
    simp [hg, Ne.symm hg, hlt]

theorem EpochRing.Balanced.placed (h : r.Balanced c) : r.Placed c.ended c.generation :=
  ⟨h.current, h.tail, h.ended_le, h.room⟩

/-- An advance turns the entries of the current collector into references to it. -/
theorem EpochRing.Balanced.advance {s : Seat} {last : Bool} (h : r.Balanced c)
    (ha : r.advance s = some (r', last)) : r'.Balanced (c.record (.advanced s)) := by
  obtain ⟨hs, hplaced⟩ := h.placed.advance ha
  obtain ⟨_, _, _, hr⟩ := EpochRing.advance_eq_some ha
  have hmaster : r'.master = r.master.advanced := by rw [hr]; rfl
  refine ⟨hplaced.current, hplaced.tail, hplaced.le, hplaced.room, ?_, h.once, ?_⟩
  · exact fun p hp => ⟨(h.within p hp).1, Nat.le_succ_of_le (h.within p hp).2⟩
  · intro g hg hg'
    have hentered : r'.entered = 0 := by rw [EpochRing.entered, hmaster, MasterWord.entered_advanced]
    have hseat := Seat.of_inj h.ended_le h.room hg hg'
    rw [EpochRing.word_advance ha, h.word g hg hg', hentered,
      Chronicle.wordOf_advanced c s r.entered g, hs]
    simp only [hseat]

theorem EpochRing.word_finishDrain (r : EpochRing) (s t : Seat) (n : Nat) :
    ((r.finishDrain s n).1.collector t).word =
      if s = t then Collector.idleWord
      else (r.collector t).word - if s.next = t then Collector.backLink else 0 := by
  rw [EpochRing.collector_finishDrain]
  split
  next => rfl
  next =>
    split
    next => rfl
    next => simp

theorem EpochRing.finishDrain_last (r : EpochRing) (s : Seat) (n : Nat) :
    (r.finishDrain s n).2 = true ↔ ((r.finishDrain s n).1.collector s.next).word = 0 :=
  EpochRing.release_last _ _ _

theorem Chronicle.wordOf_drainEnded (c : Chronicle) (s : Seat) (n : Nat) (entered : UInt64)
    {g : Nat} (hg : c.ended < g) :
    (c.record (.drainEnded s n)).wordOf entered g = c.wordOf entered g
      - if c.ended + 1 = g then Collector.backLink else 0 := by
  have hgeneration : (c.record (.drainEnded s n)).generation = c.generation := rfl
  have hended : (c.record (.drainEnded s n)).ended = c.ended + 1 := rfl
  have hcrowd : (c.record (.drainEnded s n)).crowd g = c.crowd g := rfl
  have hne : g ≠ c.ended := by omega
  rw [Chronicle.wordOf, Chronicle.wordOf, hgeneration, hended, hcrowd, Collector.backLink]
  by_cases he : c.ended + 1 = g
  · subst he
    simp only [if_true, hne, if_false]
    grind
  · simp [hne, he, Ne.symm he]

theorem EpochRing.Balanced.wordOf_idle (h : r.Balanced c) (entered : UInt64)
    (hg : c.generation < g) : c.wordOf entered g = Collector.idleWord := by
  have hended := h.ended_le
  have hcrowd : c.crowd g = 0 := by
    apply Chronicle.crowd_eq_zero.mpr
    intro p hp
    have := (h.within p hp).2
    omega
  have hlt : ¬ g < c.generation := by omega
  have hne : g ≠ c.ended := by omega
  have hne' : g ≠ c.generation := by omega
  simp [Chronicle.wordOf, hcrowd, hlt, hne, hne', Collector.idleWord, Collector.currentRef,
    Collector.backLink]

/-- The end of the drain of a vacant collector hands the tail on to the next one. -/
theorem EpochRing.Balanced.finishDrain (h : r.Balanced c) (hv : c.Vacant) (n : Nat) :
    (r.finishDrain (Seat.of c.ended) n).1.Balanced
      (c.record (.drainEnded (Seat.of c.ended) n)) := by
  have hroom := h.room
  have hlt := hv.1
  have hplaced := h.placed.finishDrain hlt (Seat.of c.ended) n
  refine ⟨hplaced.current, hplaced.tail, hplaced.le, hplaced.room, ?_, h.once, ?_⟩
  · intro p hp
    have hw := h.within p hp
    have hne := Chronicle.crowd_eq_zero.mp hv.2 p hp
    exact ⟨by change c.ended + 1 ≤ p.2; omega, hw.2⟩
  · intro g hg hg'
    change c.ended + 1 ≤ g at hg
    change g < c.ended + 1 + ringSize at hg'
    have hentered : (r.finishDrain (Seat.of c.ended) n).1.entered = r.entered := by
      rw [EpochRing.entered, EpochRing.master_finishDrain, MasterWord.entered_drained]
      rfl
    rw [EpochRing.word_finishDrain, hentered, Seat.next_of,
      Chronicle.wordOf_drainEnded c _ n r.entered hg]
    by_cases hlast : g = c.ended + ringSize
    · have hne : ¬ c.ended + 1 = g := by simp only [ringSize] at hlast; omega
      rw [hlast, Seat.of_add_ringSize, if_pos rfl, ← hlast, if_neg hne,
        h.wordOf_idle _ (by omega)]
      simp
    · have hself := Seat.of_inj (Nat.le_refl c.ended) (by omega) (by omega : c.ended ≤ g) (by omega)
      have hnext := Seat.of_inj (Nat.le_succ c.ended) (by simp only [ringSize]; omega)
        (by omega : c.ended ≤ g) (by omega)
      have hne : ¬ c.ended = g := by omega
      simp only [hself, hne, if_false, hnext, h.word g (by omega) (by omega)]

theorem EpochRing.Balanced.congr {d : Chronicle} (h : r.Balanced c) (hm : r'.master = r.master)
    (hw : ∀ s : Seat, (r'.collector s).word = (r.collector s).word)
    (hg : d.generation = c.generation) (he : d.ended = c.ended) (hr : d.roster = c.roster) :
    r'.Balanced d := by
  have hcrowd : ∀ g, d.crowd g = c.crowd g := fun g => by rw [Chronicle.crowd, hr, Chronicle.crowd]
  refine ⟨?_, ?_, ?_, ?_, ?_, ?_, ?_⟩
  · rw [EpochRing.current, hm, hg]
    exact h.current
  · rw [EpochRing.tail, hm, he]
    exact h.tail
  · rw [he, hg]
    exact h.ended_le
  · rw [he, hg]
    exact h.room
  · rw [he, hg, hr]
    exact h.within
  · rw [Chronicle.counted, hr]
    exact h.once
  · intro g hlo hhi
    rw [he] at hlo hhi
    have hentered : r'.entered = r.entered := by rw [EpochRing.entered, hm, EpochRing.entered]
    rw [hw, h.word g hlo hhi, Chronicle.wordOf, Chronicle.wordOf, hcrowd, hg, he, hentered]

/-- The last reference to a collector is gone exactly when it is the oldest one and vacant. -/
theorem EpochRing.Balanced.word_eq_zero (h : r.Balanced c) (few : c.roster.length < 2 ^ 56)
    (hg : c.ended ≤ g) (hg' : g < c.ended + ringSize) :
    (r.collector (Seat.of g)).word = 0 ↔ g = c.ended ∧ c.Vacant := by
  rw [h.word g hg hg', Chronicle.wordOf_eq_zero few]
  constructor
  · rintro ⟨hlt, rfl, hc⟩
    exact ⟨rfl, hlt, hc⟩
  · rintro ⟨rfl, hlt, hc⟩
    exact ⟨hlt, rfl, hc⟩

end EpochTable
