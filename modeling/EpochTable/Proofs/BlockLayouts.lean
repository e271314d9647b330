import EpochTable.Table.Sizing
import Mathlib

namespace EpochTable

variable {n : Nat} {f : Footprint} {align : UInt64}

/-- The calculation goes through and has this result. -/
def Exact.Gives (x : Exact UInt64) (n : Nat) : Prop := ∃ w, x = .ok w ∧ w.toNat = n

theorem Exact.word_gives (h : n < UInt64.size) : (Exact.word n).Gives n := by
  refine ⟨.ofNat n, ?_, UInt64.toNat_ofNat_of_lt' h⟩
  rw [Exact.word, if_pos h]

theorem Exact.add_gives {x y : UInt64} (h : x.toNat + y.toNat < UInt64.size) :
    (Exact.add x y).Gives (x.toNat + y.toNat) :=
  Exact.word_gives h

theorem Exact.mul_gives {x y : UInt64} (h : x.toNat * y.toNat < UInt64.size) :
    (Exact.mul x y).Gives (x.toNat * y.toNat) :=
  Exact.word_gives h

theorem Exact.sub_gives {x y : UInt64} (h : y.toNat ≤ x.toNat) :
    (Exact.sub x y).Gives (x.toNat - y.toNat) := by
  have hx : x.toNat < UInt64.size := x.toNat_lt
  rw [Exact.sub, if_neg (mt UInt64.lt_iff_toNat_lt.mp (Nat.not_lt.mpr h))]
  exact Exact.word_gives (by omega)

theorem Exact.div_gives (x : UInt64) {y : UInt64} (h : 0 < y.toNat) :
    (Exact.div x y).Gives (x.toNat / y.toNat) := by
  have hy : y ≠ 0 := fun h0 => by simp [h0] at h
  rw [Exact.div, if_neg hy]
  exact Exact.word_gives (Nat.lt_of_le_of_lt (Nat.div_le_self _ _) x.toNat_lt)

theorem Exact.rem_gives (x : UInt64) {y : UInt64} (h : 0 < y.toNat) :
    (Exact.rem x y).Gives (x.toNat % y.toNat) := by
  have hy : y ≠ 0 := fun h0 => by simp [h0] at h
  rw [Exact.rem, if_neg hy]
  exact Exact.word_gives (Nat.lt_of_le_of_lt (Nat.mod_le _ _) x.toNat_lt)

/-- The alignment of an allocation is a power of two, and cells and shelves have one of 64 at least. -/
structure Layout.Aligns (align : UInt64) : Prop where
  least : 64 ≤ align.toNat
  divides : align.toNat ∣ 2 ^ 62

/-- A multiple of the alignment is above the largest size for this alignment exactly if it is above the
one for the least alignment. -/
theorem Layout.Aligns.above_iff (ha : Layout.Aligns align) (hn : align.toNat ∣ n) :
    2 ^ 63 - align.toNat < n ↔ Footprint.limit < n := by
  have hlimit : Footprint.limit = 2 ^ 63 - 64 := by decide
  have hleast := ha.least
  have hwhole : align.toNat ∣ 2 ^ 63 := ha.divides.trans ⟨2, by norm_num⟩
  constructor
  · intro h
    by_contra hle
    have hgap : align.toNat ≤ 2 ^ 63 - n := Nat.le_of_dvd (by omega) (Nat.dvd_sub hwhole hn)
    omega
  · intro h
    omega

theorem Layout.Aligns.le (ha : Layout.Aligns align) : align.toNat ≤ 2 ^ 62 :=
  Nat.le_of_dvd (by norm_num) ha.divides

theorem Layout.Aligns.largest (ha : Layout.Aligns align) :
    (Layout.largest align).Gives (2 ^ 63 - align.toNat) := by
  have hle := ha.le
  refine Exact.sub_gives (x := 9223372036854775808) ?_
  show align.toNat ≤ 9223372036854775808
  omega

theorem Layout.roundUp_of_dvd {size : UInt64} (ha : Layout.Aligns align)
    (hdvd : align.toNat ∣ size.toNat) (hsize : size.toNat ≤ 2 ^ 63) :
    Layout.roundUp size align = .ok size := by
  have hle := ha.le
  have hleast := ha.least
  have hwords : UInt64.size = 2 ^ 64 := by decide
  obtain ⟨less, hless, htoNat⟩ := Exact.sub_gives (x := align) (y := 1) (by show 1 ≤ _; omega)
  obtain ⟨above, habove, hsum⟩ := Exact.add_gives (x := size) (y := less) (by
    rw [htoNat]
    omega)
  obtain ⟨rest, hrest, hmod⟩ := Exact.rem_gives above (y := align) (by omega)
  have hrestNat : rest.toNat = align.toNat - 1 := by
    obtain ⟨q, hq⟩ := hdvd
    have hone : (1 : UInt64).toNat = 1 := rfl
    rw [hmod, hsum, htoNat, hq, Nat.mul_add_mod, hone]
    exact Nat.mod_eq_of_lt (by omega)
  obtain ⟨result, hresult, hvalue⟩ := Exact.sub_gives (x := above) (y := rest) (by
    rw [hsum, htoNat, hrestNat]
    exact Nat.le_add_left _ _)
  have hsame : result = size := by
    have hone : (1 : UInt64).toNat = 1 := rfl
    rw [hone] at htoNat
    apply UInt64.toNat_inj.mp
    omega
  rw [Layout.roundUp, hless]
  simp only [bind, Except.bind, habove, hrest, hresult, hsame]

/-- Elements of a type: their size is a multiple of the alignment, and not zero. -/
structure Layout.Proper (element : Layout) : Prop where
  aligns : Layout.Aligns element.align
  divides : element.align.toNat ∣ element.size.toNat
  positive : 0 < element.size.toNat

/-- An array of elements is made exactly if it is not too large, and then it has the size of all. -/
theorem Layout.Proper.array {element : Layout} (h : element.Proper) (count : UInt64) :
    if Footprint.limit < count.toNat * element.size.toNat then
      Layout.array element count = .error .tooLarge
    else ∃ size, Layout.array element count = .ok ⟨size, element.align⟩ ∧
      size.toNat = count.toNat * element.size.toNat := by
  have hsize : element.size ≠ 0 := fun h0 => by
    have hpos := h.positive
    simp [h0] at hpos
  obtain ⟨largest, hlargest, hvalue⟩ := h.aligns.largest
  obtain ⟨most, hmost, hcount⟩ := Exact.div_gives largest h.positive
  have habove := h.aligns.above_iff (n := count.toNat * element.size.toNat)
    (Dvd.dvd.mul_left h.divides _)
  have htoo : most < count ↔ Footprint.limit < count.toNat * element.size.toNat := by
    rw [UInt64.lt_iff_toNat_lt, hcount, hvalue, Nat.div_lt_iff_lt_mul h.positive, habove]
  split
  next hlt =>
    rw [Layout.array, if_neg hsize, hlargest]
    simp only [bind, Except.bind, hmost, if_pos (htoo.mpr hlt)]
  next hle =>
    have hfits : element.size.toNat * count.toNat < UInt64.size := by
      have hlimit : Footprint.limit < UInt64.size := by decide
      rw [Nat.mul_comm]
      omega
    obtain ⟨size, hmul, hproduct⟩ := Exact.mul_gives hfits
    refine ⟨size, ?_, hproduct.trans (Nat.mul_comm _ _)⟩
    rw [Layout.array, if_neg hsize, hlargest]
    simp only [bind, Except.bind, hmost, if_neg (mt htoo.mp hle), hmul, pure, Except.pure]

/-- A second layout of the same alignment goes right after the first one. -/
theorem Layout.Aligns.extend (ha : Layout.Aligns align) {first second : UInt64}
    (hfirst : align.toNat ∣ first.toNat) (hsecond : align.toNat ∣ second.toNat)
    (hle : first.toNat ≤ Footprint.limit) (hle' : second.toNat ≤ Footprint.limit) :
    if Footprint.limit < first.toNat + second.toNat then
      Layout.extend ⟨first, align⟩ ⟨second, align⟩ = .error .tooLarge
    else ∃ size, Layout.extend ⟨first, align⟩ ⟨second, align⟩ = .ok (⟨size, align⟩, first) ∧
      size.toNat = first.toNat + second.toNat := by
  have hlimit : Footprint.limit = 2 ^ 63 - 64 := by decide
  have hwords : UInt64.size = 2 ^ 64 := by decide
  have hmax : max align align = align := ite_self align
  have hround := Layout.roundUp_of_dvd ha hfirst (by omega)
  obtain ⟨size, hadd, hsum⟩ := Exact.add_gives (x := first) (y := second) (by omega)
  obtain ⟨largest, hlargest, hvalue⟩ := ha.largest
  have habove := ha.above_iff (Nat.dvd_add hfirst hsecond)
  have htoo : largest < size ↔ Footprint.limit < first.toNat + second.toNat := by
    rw [UInt64.lt_iff_toNat_lt, hsum, hvalue, habove]
  split
  next hlt =>
    simp only [Layout.extend, bind, Except.bind, hmax, hround, hadd, hlargest,
      if_pos (htoo.mpr hlt)]
  next hsmall =>
    refine ⟨size, ?_, hsum⟩
    simp only [Layout.extend, bind, Except.bind, hmax, hround, hadd, hlargest,
      if_neg (mt htoo.mp hsmall), pure, Except.pure]

/-- The sizes of cells and shelves are multiples of an alignment that both have. -/
structure Footprint.Proper (f : Footprint) (align : UInt64) : Prop where
  aligns : Layout.Aligns align
  cell : align.toNat ∣ f.cell ∧ 0 < f.cell ∧ f.cell < 2 ^ 63
  shelf : align.toNat ∣ f.shelf ∧ 0 < f.shelf ∧ f.shelf < 2 ^ 63

theorem Footprint.proper_words : Footprint.words.Proper 64 :=
  ⟨⟨by decide, by decide⟩, by decide, by decide⟩

/-- The cells or the shelves or both are too large together. -/
def Footprint.Exceeds (f : Footprint) (cells shelves : Nat) : Prop :=
  cells * f.cell > 2 ^ 63 - 64 ∨ shelves * f.shelf > 2 ^ 63 - 64 ∨
    cells * f.cell + shelves * f.shelf > 2 ^ 63 - 64

theorem Layout.proper_of_size {size : Nat} (ha : Layout.Aligns align)
    (h : align.toNat ∣ size ∧ 0 < size ∧ size < 2 ^ 63) :
    Layout.Proper ⟨.ofNat size, align⟩ ∧ (UInt64.ofNat size).toNat = size := by
  obtain ⟨hdvd, hpos, hlt⟩ := h
  have hwords : UInt64.size = 2 ^ 64 := by decide
  have hsize : (UInt64.ofNat size).toNat = size := UInt64.toNat_ofNat_of_lt' (by omega)
  refine ⟨⟨ha, ?_, ?_⟩, hsize⟩
  · rwa [hsize]
  · rwa [hsize]

/-- The layout of a block is made exactly if nothing in it is too large; then the shelves begin where the
cells end. No step of this leaves the words. -/
theorem Footprint.Proper.layout (h : f.Proper align) (cells shelves : UInt64) :
    (f.Exceeds cells.toNat shelves.toNat ∧ f.layout align cells shelves = .error .tooLarge) ∨
    ¬ f.Exceeds cells.toNat shelves.toNat ∧
      ∃ size offset, f.layout align cells shelves = .ok (⟨size, align⟩, offset) ∧
        size.toNat = f.total cells.toNat shelves.toNat ∧ offset.toNat = cells.toNat * f.cell := by
  have hlimit : Footprint.limit = 2 ^ 63 - 64 := by decide
  obtain ⟨hcell, hcellNat⟩ := Layout.proper_of_size h.aligns h.cell
  obtain ⟨hshelf, hshelfNat⟩ := Layout.proper_of_size h.aligns h.shelf
  have hfirst := hcell.array cells
  have hsecond := hshelf.array shelves
  simp only [hcellNat] at hfirst
  simp only [hshelfNat] at hsecond
  split at hfirst
  next hlarge =>
    refine .inl ⟨.inl (by omega), ?_⟩
    rw [Footprint.layout, hfirst]
    rfl
  next hcells =>
    obtain ⟨first, hfirst, hfirstNat⟩ := hfirst
    split at hsecond
    next hlarge =>
      refine .inl ⟨.inr (.inl (by omega)), ?_⟩
      rw [Footprint.layout, hfirst]
      simp only [bind, Except.bind, hsecond]
    next hshelves =>
      obtain ⟨second, hsecond, hsecondNat⟩ := hsecond
      have hdvd : align.toNat ∣ first.toNat := hfirstNat ▸ Dvd.dvd.mul_left h.cell.1 _
      have hdvd' : align.toNat ∣ second.toNat := hsecondNat ▸ Dvd.dvd.mul_left h.shelf.1 _
      have hwhole := h.aligns.extend hdvd hdvd' (by omega) (by omega)
      rw [hfirstNat, hsecondNat] at hwhole
      split at hwhole
      next hlarge =>
        refine .inl ⟨.inr (.inr (by omega)), ?_⟩
        rw [Footprint.layout, hfirst]
        simp only [bind, Except.bind, hsecond, hwhole]
      next hsmall =>
        obtain ⟨size, hwhole, hsum⟩ := hwhole
        have hdivides : align.toNat ∣ size.toNat := by
          rw [hsum, ← hfirstNat, ← hsecondNat]
          exact Nat.dvd_add hdvd hdvd'
        have hpad := Layout.roundUp_of_dvd h.aligns hdivides (by omega)
        refine .inr ⟨fun hexceeds => ?_, size, first, ?_, hsum, hfirstNat⟩
        · rcases hexceeds with h | h | h <;> omega
        · rw [Footprint.layout, hfirst]
          simp only [bind, Except.bind, hsecond, hwhole, Layout.padded, hpad, pure, Except.pure]

theorem Footprint.exceeds_iff (f : Footprint) (m n : Nat) :
    f.Exceeds m n ↔ m * f.cell > Footprint.limit ∨ n * f.shelf > Footprint.limit ∨
      f.total m n > Footprint.limit :=
  Iff.rfl

theorem Block.allocate_eq_capacityOverflow_iff (f : Footprint) (memory : Memory) (m n : Nat) :
    Block.allocate f memory m n = .error (.capacityOverflow m) ↔ f.Exceeds m n := by
  rw [Footprint.exceeds_iff, Block.allocate, Footprint.reserve]
  split
  next habove => exact ⟨fun _ => habove, fun _ => rfl⟩
  next hbelow =>
    refine ⟨fun h => ?_, fun h => absurd h hbelow⟩
    split at h <;> simp [Except.map] at h

/-- Making a block with words is the same as making it with numbers. -/
theorem Footprint.Proper.allocateWord (h : f.Proper align) (memory : Memory) (cells shelves : UInt64) :
    Block.allocateWord f align memory cells shelves
      = .ok (Block.allocate f memory cells.toNat shelves.toNat) := by
  rcases h.layout cells shelves with ⟨hexceeds, hlayout⟩ | ⟨hfits, size, offset, hlayout, hsize, _⟩
  · rw [Block.allocateWord, hlayout, (Block.allocate_eq_capacityOverflow_iff f memory _ _).mpr hexceeds]
  · rw [Footprint.exceeds_iff] at hfits
    rw [Block.allocateWord, hlayout, Block.allocate, Footprint.reserve, if_neg hfits]
    simp only [hsize]
    split <;> rfl

end EpochTable
