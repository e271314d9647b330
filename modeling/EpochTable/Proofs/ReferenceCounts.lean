import EpochTable.Proofs.OldestCollector
import EpochTable.Proofs.Reclamation
import EpochTable.Proofs.RingSpacing

namespace EpochTable

variable {r : Realm} {c : Chronicle} {t g i : Nat} {m : Member} {seat : Seat}

/-- The seat lies on the way from the oldest collector to the current one. -/
def EpochRing.Spans (r : EpochRing) (seat : Seat) : Prop :=
  (seat - r.tail).val ≤ (r.current - r.tail).val

instance (r : EpochRing) (seat : Seat) : Decidable (r.Spans seat) :=
  inferInstanceAs (Decidable (_ ≤ _))

/-- The number of members whose records say that they are counted in this collector. -/
def Realm.crowdAt (r : Realm) (seat : Seat) : Nat :=
  r.members.countP fun m => (m.bind fun m => m.standing.seat?) = some seat

/-- One reference for being current or waiting for it, one owned by the collector before, and one for
every member, those apart that are still counted in the master word. -/
def Realm.wordAt (r : Realm) (seat : Seat) : UInt64 :=
  (if seat = r.ring.current ∨ ¬ r.ring.Spans seat then 1 else 0)
    + (if seat = r.ring.tail then 0 else 2)
    + 256 * (UInt64.ofNat (r.crowdAt seat) - if seat = r.ring.current then r.ring.entered else 0)

/-- The records of the members, the history of who entered and left, and the words of the ring tell
the same. -/
structure Realm.Accounted (r : Realm) (c : Chronicle) : Prop where
  idle : ∀ i m, r.member? i = some m → (m.standing = .idle ↔ m.depth = 0)
  counted : ∀ i m, r.pinned? i = some m →
    ∃ g, m.standing.seat? = some (Seat.of g) ∧ ∀ g', (i, g') ∈ c.roster ↔ g' = g
  uncounted : ∀ i, r.pinned? i = none → i ∉ c.counted
  once : c.counted.Nodup
  crowd : ∀ seat, r.crowdAt seat = c.roster.countP fun p => Seat.of p.2 = seat
  within : ∀ i seat, r.CountedIn i seat → r.ring.Spans seat
  width : (r.ring.current - r.ring.tail).val = c.generation - c.ended
  word : ∀ seat, (r.ring.collector seat).word = r.wordAt seat
  outside : ∀ seat, ¬ r.ring.Spans seat →
    r.ring.collector seat = ⟨Collector.idleWord, [], 0⟩

/-- Within a round, the way from one seat to another is as long as the generations are apart. -/
theorem Seat.val_sub_of (hg : t ≤ g) (hg' : g < t + ringSize) :
    (Seat.of g - Seat.of t).val = g - t := by
  simp only [ringSize] at hg'
  rw [Fin.val_sub, Seat.val_of, Seat.val_of]
  simp only [ringSize]
  omega

theorem EpochRing.Balanced.spans_iff {ring : EpochRing} (h : ring.Balanced c) (hg : c.ended ≤ g)
    (hg' : g < c.ended + ringSize) : ring.Spans (Seat.of g) ↔ g ≤ c.generation := by
  have hended := h.ended_le
  rw [EpochRing.Spans, h.current, h.tail, Seat.val_sub_of hg hg', Seat.val_sub_of hended h.room]
  omega

theorem Realm.members_eq_map (r : Realm) :
    r.members = (List.range r.members.length).map r.member? := by
  refine List.ext_getElem (by simp) fun i hi _ => ?_
  simp [Realm.member?, hi]

/-- Everybody who is counted in a collector has a record, and nobody has two. -/
theorem Realm.Sound.crowdAt_eq (h : r.Sound c []) (seat : Seat) :
    r.crowdAt seat = c.roster.countP fun p => Seat.of p.2 = seat := by
  let recorded := (List.range r.members.length).filter fun i =>
    ((r.member? i).bind fun m => m.standing.seat?) = some seat
  let entered := (c.roster.filter fun p => Seat.of p.2 = seat).map Prod.fst
  have hrecorded : recorded.length = r.crowdAt seat := by
    rw [Realm.crowdAt, r.members_eq_map, List.countP_map, List.countP_eq_length_filter]
    rfl
  have hentered : entered.length = c.roster.countP fun p => Seat.of p.2 = seat := by
    rw [List.length_map, List.countP_eq_length_filter]
  have hnodup : entered.Nodup := h.balanced.once.sublist (List.filter_sublist.map Prod.fst)
  have hsame : recorded.Perm entered := by
    refine (List.perm_ext_iff_of_nodup (List.nodup_range.filter _) hnodup).mpr fun i => ?_
    have hin : i ∈ entered ↔ ∃ g, (i, g) ∈ c.roster ∧ Seat.of g = seat := by
      simp [entered]
    rw [hin, ← h.countedIn_iff]
    constructor
    · intro hi
      have hseat := (List.mem_filter.mp hi).2
      obtain ⟨m, hm, hs⟩ := Option.bind_eq_some_iff.mp (of_decide_eq_true hseat)
      exact ⟨m, hm, hs⟩
    · rintro ⟨m, hm, hs⟩
      refine List.mem_filter.mpr ⟨List.mem_range.mpr (Realm.lt_length_of_member? hm), ?_⟩
      exact decide_eq_true (Option.bind_eq_some_iff.mpr ⟨m, hm, hs⟩)
  rw [← hrecorded, ← hentered]
  exact hsame.length_eq

theorem Realm.Sound.crowdAt_of (h : r.Sound c []) (hg : c.ended ≤ g) (hg' : g < c.ended + ringSize) :
    r.crowdAt (Seat.of g) = c.crowd g := by
  rw [h.crowdAt_eq, Chronicle.crowd]
  refine List.countP_congr fun p hp => ?_
  have hwithin := h.balanced.within p hp
  have hroom := h.balanced.room
  have hseat := Seat.of_inj hwithin.1 (by omega) hg hg'
  simpa using hseat

/-- Between two operations the words are what the members' records make of them. -/
theorem Realm.Sound.word_eq (h : r.Sound c []) (seat : Seat) :
    (r.ring.collector seat).word = r.wordAt seat := by
  obtain ⟨g, hg, hg', rfl⟩ := Seat.exists_of c.ended seat
  have hbalanced := h.balanced
  have hcurrent : Seat.of g = r.ring.current ↔ g = c.generation := by
    rw [hbalanced.current]
    exact Seat.of_inj hg hg' hbalanced.ended_le hbalanced.room
  have htail : Seat.of g = r.ring.tail ↔ g = c.ended := by
    rw [hbalanced.tail]
    exact Seat.of_inj hg hg' (Nat.le_refl _) (Nat.lt_add_of_pos_right (by decide))
  have hwaiting : g = c.generation ∨ ¬ g ≤ c.generation ↔ ¬ g < c.generation := by omega
  rw [hbalanced.word g hg hg', Chronicle.wordOf, Realm.wordAt, h.crowdAt_of hg hg']
  simp only [hcurrent, htail, hbalanced.spans_iff hg hg', hwaiting, ite_not]

theorem Realm.Sound.outside_eq (h : r.Sound c []) (keeps : r.Keeps c [] [])
    (hout : ¬ r.ring.Spans seat) : r.ring.collector seat = ⟨Collector.idleWord, [], 0⟩ := by
  obtain ⟨g, hg, hg', rfl⟩ := Seat.exists_of c.ended seat
  have hunborn : c.generation < g := by
    rw [h.balanced.spans_iff hg hg'] at hout
    omega
  have hword := (h.balanced.word g hg hg').trans (h.balanced.wordOf_idle _ hunborn)
  have hnodes := keeps.nodes g hg hg'
  rw [List.length_nil, if_neg (by omega), keeps.unborn g hunborn, List.reverse_nil] at hnodes
  have hsize := keeps.sizes (Seat.of g)
  rw [hnodes, List.length_nil] at hsize
  rw [← hword, ← hnodes, ← hsize]

theorem Realm.Valid.accounted {journal : List Event} (h : r.Valid journal []) :
    r.Accounted (Chronicle.of journal) where
  idle i m hm := by
    have hphase : Phase r (Chronicle.of journal) i [] := h.sound.phase rfl
    constructor
    · intro hidle
      rw [hphase.eq_fresh_of_seat hm (by rw [hidle]; rfl)]
      rfl
    · intro hd
      rw [(hphase.eq_fresh hm hd).1]
      rfl
  counted i m hm := by
    have hphase : Phase r (Chronicle.of journal) i [] := h.sound.phase rfl
    obtain ⟨g, hseat, hg⟩ :=
      hphase.seat_of_pinned (Realm.member?_of_pinned? hm) (Realm.depth_of_pinned? hm)
    refine ⟨g, hseat, fun g' => ⟨fun hg' => ?_, fun he => he ▸ hg⟩⟩
    exact Chronicle.entered_once h.sound.balanced.once hg' hg
  uncounted i hout hi := by
    rw [h.mem_counted_iff, hout] at hi
    cases hi
  once := h.sound.balanced.once
  crowd := h.sound.crowdAt_eq
  within i seat hi := by
    obtain ⟨g, hg, rfl⟩ := h.sound.countedIn_iff.mp hi
    have hwithin := h.sound.balanced.within _ hg
    have hroom := h.sound.balanced.room
    exact (h.sound.balanced.spans_iff hwithin.1 (by omega)).mpr hwithin.2
  width := by
    rw [h.sound.balanced.current, h.sound.balanced.tail]
    exact Seat.val_sub_of h.sound.balanced.ended_le h.sound.balanced.room
  word := h.sound.word_eq
  outside _ hout := h.sound.outside_eq h.keeps hout

/-- After any run every member is idle or counted in just the collector its record tells, in whatever
order its pins were taken, dropped or lost. All of them are counted on the way from the oldest
collector to the current one, which never catches up with the oldest from behind. The word of each
collector is the sum of its references, however often the counts have wrapped, and a collector off that
way is empty and waits for its turn. -/
theorem Realm.reference_counts (threshold : UInt64) (acts : List Realm.Act)
    (sparse : Event.Sparse ((Realm.fresh threshold).run acts).2) :
    let r := ((Realm.fresh threshold).run acts).1
    let journal := ((Realm.fresh threshold).run acts).2
    r.Accounted (Chronicle.of journal) ∧ Event.AlwaysSpaced journal := by
  have hfresh := Realm.valid_fresh threshold
  have hvalid := hfresh.run acts sparse
  have hspaced := hfresh.spaced_run acts sparse Event.alwaysSpaced_nil
  rw [List.nil_append] at hvalid hspaced
  exact ⟨hvalid.accounted, hspaced⟩

/-- The second member enters the new current collector and leaves it again. It is still counted in the
master word, so the member count of that collector is below zero. -/
theorem Realm.reference_counts_below :
    let acts : List Realm.Act := [.register, .register, .move 0 .acquire, .move 0 .acquire,
      .move 1 .acquire, .move 1 .requestAdvance, .move 1 .release, .move 1 .acquire,
      .move 1 .release, .move 0 .release]
    let (r, journal) := (Realm.fresh 8).run acts
    Event.Sparse journal ∧ r.ring.tail = 0 ∧ r.ring.current = 1 ∧ r.ring.entered = 1 ∧
      r.crowdAt 0 = 1 ∧ (r.ring.collector 0).word = 256 ∧
      r.crowdAt 1 = 0 ∧ (r.ring.collector 1).word = 3 - 256 ∧
      r.Accounted (Chronicle.of journal) ∧ Event.AlwaysSpaced journal := by
  intro acts
  have hsparse : Event.Sparse ((Realm.fresh 8).run acts).2 :=
    Event.sparse_of_length (by decide +kernel)
  obtain ⟨haccounted, hspaced⟩ := Realm.reference_counts 8 acts hsparse
  have hold := haccounted.word 0
  have hnew := haccounted.word 1
  exact ⟨hsparse, by decide +kernel, by decide +kernel, by decide +kernel, by decide +kernel,
    hold.trans (by decide +kernel), by decide +kernel, hnew.trans (by decide +kernel), haccounted,
    hspaced⟩

end EpochTable
