import EpochTable.Proofs.RealmHistory

namespace EpochTable

variable {r : Realm} {c : Chronicle} {i : Nat} {pending : List Node} {finishing : List Nat}
  {past : List Event}

/-- The number of nodes that members have deferred and not handed over. -/
def Realm.localPending (r : Realm) : Nat :=
  (r.members.map fun m => (m.map fun m => m.batch.size).getD 0).sum

theorem Realm.localPending_eq (h : ∀ i, Member.Tidy (r.member? i)) :
    r.localPending = r.held.length := by
  have hmem : ∀ w ∈ r.members, (w.map fun m => m.batch.size).getD 0 = (Member.held w).length := by
    intro w hw
    obtain ⟨i, hi⟩ := List.getElem?_of_mem hw
    cases w with
    | none => rfl
    | some m => exact (h i m (Option.join_eq_some_iff.mpr hi)).size
  rw [Realm.localPending, Realm.held, List.length_flatMap, List.map_congr_left hmem]

theorem EpochRing.perm_collectors (ring : EpochRing) (t : Nat) : ring.collectors.toList.Perm
    ((List.range ringSize).map fun k => ring.collector (Seat.of (t + k))) := by
  have hseats : ((List.range ringSize).map fun k => Seat.of (t + k)).Perm (List.finRange ringSize) := by
    have hnodup : ((List.range ringSize).map fun k => Seat.of (t + k)).Nodup := by
      refine List.Nodup.map_on ?_ List.nodup_range
      intro k hk l hl he
      rw [List.mem_range] at hk hl
      have hkl := (Seat.of_inj (t := t) (by omega) (by omega) (by omega) (by omega)).mp he
      omega
    refine (List.subperm_of_subset hnodup fun s _ => List.mem_finRange s).perm_of_length_le ?_
    simp
  have hlist : ring.collectors.toList = (List.finRange ringSize).map ring.collector := by
    apply List.ext_getElem
    · simp
    · intro k hk hk'
      simp [EpochRing.collector]
  have hmap := hseats.symm.map ring.collector
  rw [List.map_map] at hmap
  rw [hlist]
  exact hmap

theorem Chronicle.inOrder_add (c : Chronicle) (t k : Nat) : c.inOrder (t + k)
    = c.inOrder t ++ (List.range k).flatMap fun d => (c.flushed (t + d)).reverse := by
  rw [Chronicle.inOrder, List.range_add, List.flatMap_append, List.flatMap_map, Chronicle.inOrder]

theorem Chronicle.inOrder_unborn {t : Nat} (h : ∀ g, t < g → c.flushed g = []) (k : Nat) :
    c.inOrder (t + 1 + k) = c.inOrder (t + 1) := by
  induction k with
  | zero => rfl
  | succ k ih =>
    rw [← Nat.add_assoc, Chronicle.inOrder_succ, ih, h _ (by omega), List.reverse_nil,
      List.append_nil]

/-- Between operations the collectors have just the nodes that are still to run. -/
theorem Realm.Keeps.perm_remainder (h : r.Keeps c [] []) (hhi : c.generation < c.ended + ringSize) :
    (c.inOrder (c.generation + 1)).Perm (c.inOrder c.ended ++ r.ring.remainder) := by
  obtain ⟨k, hk⟩ := Nat.exists_eq_add_of_le (Nat.succ_le_of_lt hhi)
  -- Generations to come have no nodes, so the whole round of the ring may be counted.
  have hwhole : c.inOrder (c.generation + 1) = c.inOrder (c.ended + ringSize) := by
    rw [hk, Chronicle.inOrder_unborn h.unborn]
  rw [hwhole, Chronicle.inOrder_add]
  refine List.Perm.append_left _ ?_
  refine List.Perm.trans ?_ ((r.ring.perm_collectors c.ended).symm.flatMap_right Collector.nodes)
  rw [List.flatMap_map]
  refine List.Perm.of_eq (List.flatMap_congr ?_)
  intro d hd
  rw [List.mem_range] at hd
  have hn := h.nodes (c.ended + d) (by omega) (by omega)
  rw [List.length_nil, if_neg (by omega)] at hn
  exact hn.symm

theorem EpochRing.length_remainder {ring : EpochRing}
    (h : ∀ s : Seat, (ring.collector s).size = (ring.collector s).nodes.length) :
    ring.remainder.length = ring.pending := by
  rw [EpochRing.remainder, EpochRing.pending, List.length_flatMap]
  refine congrArg List.sum (List.map_congr_left ?_)
  intro k hk
  obtain ⟨n, hn, rfl⟩ := List.getElem_of_mem hk
  have hlt : n < ringSize := by simpa using hn
  exact (h ⟨n, hlt⟩).symm

/-- When the oldest generation is the current one, nothing lies in any other collector. -/
theorem Realm.Keeps.nodes_eq_nil (h : r.Keeps c [] []) (he : c.ended = c.generation) {s : Seat}
    (hs : s ≠ Seat.of c.generation) : (r.ring.collector s).nodes = [] := by
  obtain ⟨g, hg, hg', rfl⟩ := Seat.exists_of c.ended s
  have hn := h.nodes g hg hg'
  rw [List.length_nil, if_neg (by omega)] at hn
  have hne : g ≠ c.generation := fun heq => hs (congrArg Seat.of heq)
  rw [hn, h.unborn g (by omega)]
  rfl

/-- Once everybody has resigned, all that is left belongs to one generation, so it does not matter in
which order the collectors are dropped. -/
theorem Realm.Keeps.remainder_eq (h : r.Keeps c [] []) (he : c.ended = c.generation) :
    r.ring.remainder = (c.flushed c.generation).reverse := by
  have hself := h.nodes c.generation (by omega) (by simp only [ringSize]; omega)
  rw [List.length_nil, if_neg (by omega)] at hself
  refine Eq.trans (flatMap_eq_of_forall_ne (i := (Seat.of c.generation).val)
    (x := r.ring.collector (Seat.of c.generation)) (by simp [EpochRing.collector]) ?_) hself
  intro j y hj hy
  have hlt : j < ringSize := by simpa using (List.getElem?_eq_some_iff.mp hy).1
  have hy' : r.ring.collector ⟨j, hlt⟩ = y := by simpa [EpochRing.collector, hlt] using hy
  rw [← hy']
  exact h.nodes_eq_nil he fun hseat => hj (congrArg Fin.val hseat)

theorem Realm.isDeserted_iff : r.isDeserted = true ↔ ∀ i, r.member? i = none := by
  simp only [Realm.isDeserted, List.all_eq_true, Option.isNone_iff_eq_none]
  constructor
  · intro h i
    cases hi : r.members[i]? with
    | none => simp [Realm.member?, hi]
    | some w =>
      have hw := h w (List.mem_of_getElem? hi)
      simp [Realm.member?, hi, hw]
  · intro h w hw
    obtain ⟨i, hi⟩ := List.getElem?_of_mem hw
    have hnone := h i
    simpa [Realm.member?, hi] using hnone

/-- Between operations somebody is counted in the oldest collector, unless it is the current one. -/
theorem Realm.Sound.tail_held (h : r.Sound c []) :
    c.ended = c.generation ∨ ∃ i, (i, c.ended) ∈ c.roster := by
  have hdraining := h.draining
  have hle := h.balanced.ended_le
  by_contra! hstalled
  have hcrowd : c.crowd c.ended = 0 := by
    refine Chronicle.crowd_eq_zero.mpr fun p hp he => hstalled.2 p.1 ?_
    rwa [← he]
  rw [if_pos ⟨by omega, hcrowd⟩] at hdraining
  simp at hdraining

theorem Realm.Sound.deserted (h : r.Sound c []) (hd : r.isDeserted = true) :
    c.roster = [] ∧ c.ended = c.generation := by
  have hroster : c.roster = [] := by
    rw [List.eq_nil_iff_forall_not_mem]
    rintro ⟨i, g⟩ hp
    have hnone := Realm.isDeserted_iff.mp hd i
    cases h.phases i with
    | absent _ hout => exact hout (Chronicle.mem_counted.mpr ⟨g, hp⟩)
    | idle hm => simp [hnone] at hm
    | pinned m g' hm => simp [hnone] at hm
  refine ⟨hroster, h.tail_held.resolve_right ?_⟩
  simp [hroster]

theorem Realm.held_of_deserted (h : r.isDeserted = true) : r.held = [] := by
  rw [Realm.held, List.flatMap_eq_nil_iff]
  intro w hw
  have hnone : w = none := by
    simp only [Realm.isDeserted, List.all_eq_true, Option.isNone_iff_eq_none] at h
    exact h w hw
  rw [hnone]
  rfl

theorem Chronicle.after_runs (c : Chronicle) (nodes : List Node) :
    c.after (nodes.map .ran) = { c with ran := c.ran ++ nodes } := by
  induction nodes generalizing c with
  | nil => simp
  | cons node rest ih =>
    rw [List.map_cons, Chronicle.after_cons, ih]
    simp [Chronicle.record]

theorem Chronicle.Allows.flushed {journal : List Event} (h : c.Allows journal) {seat : Seat}
    {nodes : List Node} (hmem : .flushed seat nodes ∈ journal) :
    (nodes.map Node.ticket).Pairwise (· > ·) := by
  induction journal generalizing c with
  | nil => simp at hmem
  | cons e later ih =>
    rcases List.mem_cons.mp hmem with rfl | hlater
    · exact h.1.2
    · exact ih h.2 hlater

/-- At any moment between two operations, the nodes that ran are those of the drained generations in
order, and every deferred node is in one place. When everybody has resigned and the realm is dropped,
all the others run, again in order, so that each has run exactly once. -/
theorem Realm.run_in_order (threshold : UInt64) (acts : List Realm.Act)
    (sparse : Event.Sparse ((Realm.fresh threshold).run acts).2) :
    let (r, journal) := (Realm.fresh threshold).run acts
    let c := Chronicle.of journal
    c.ran = c.inOrder c.ended ∧ c.deferred.map Node.ticket = List.range r.issued ∧
    c.deferred.length = r.localPending + r.ring.pending + r.ring.reclaimed ∧
    (∀ seat nodes, .flushed seat nodes ∈ journal → (nodes.map Node.ticket).Pairwise (· > ·)) ∧
    (r.isDeserted = true →
      let whole := Chronicle.of (journal ++ r.close)
      whole.ran = whole.inOrder (whole.generation + 1) ∧ whole.ran.Perm whole.deferred) := by
  have hvalid := (Realm.valid_fresh threshold).run acts sparse
  rw [List.nil_append] at hvalid
  generalize (Realm.fresh threshold).run acts = run at hvalid ⊢
  obtain ⟨r, journal⟩ := run
  dsimp only at hvalid ⊢
  obtain ⟨hallowed, hsound, hkeeps⟩ := hvalid
  have horder := hkeeps.order
  simp only [List.filterMap_nil, List.length_nil, List.append_nil, Nat.add_zero] at horder
  refine ⟨horder, hkeeps.tickets, ?_, fun seat nodes => hallowed.flushed, ?_⟩
  · have hperm := hkeeps.handed.trans
      ((Realm.Keeps.perm_remainder hkeeps hsound.balanced.room).append_left _)
    have hlocal := Realm.localPending_eq hkeeps.batches
    have hpending := EpochRing.length_remainder hkeeps.sizes
    have hreclaimed := hkeeps.reclaimed
    have hlength := hperm.length_eq
    simp only [List.length_append] at hlength
    omega
  · intro hd
    obtain ⟨hroster, hended⟩ := hsound.deserted hd
    have hrest := Realm.Keeps.remainder_eq hkeeps hended
    have hran : (Chronicle.of journal).ran ++ r.ring.remainder
        = (Chronicle.of journal).inOrder ((Chronicle.of journal).generation + 1) := by
      rw [horder, hrest, hended, Chronicle.inOrder_succ]
    have hhanded := hkeeps.handed
    rw [Realm.held_of_deserted hd, List.nil_append] at hhanded
    rw [Realm.close, Chronicle.of_append, Chronicle.after_runs]
    refine ⟨hran, ?_⟩
    change ((Chronicle.of journal).ran ++ r.ring.remainder).Perm (Chronicle.of journal).deferred
    rw [hran]
    exact hhanded.symm

/-- A node that is drained registers another member, which defers a second node; that one is left for
the drop of the realm. -/
theorem Realm.run_in_order_nested :
    let acts : List Realm.Act := [.register, .move 0 .acquire, .defer 0 (.nested 1 2 false),
      .move 0 .requestAdvance, .move 0 .release, .move 0 .resign]
    let (r, journal) := (Realm.fresh 8).run acts
    let whole := Chronicle.of (journal ++ r.close)
    Event.Sparse journal ∧ r.isDeserted = true ∧ r.ring.pending = 1 ∧
      whole.ran = whole.inOrder (whole.generation + 1) ∧ whole.ran.Perm whole.deferred := by
  have hsparse : Event.Sparse ((Realm.fresh 8).run [.register, .move 0 .acquire,
      .defer 0 (.nested 1 2 false), .move 0 .requestAdvance, .move 0 .release, .move 0 .resign]).2 :=
    Event.sparse_of_length (by decide +kernel)
  have hdeserted : ((Realm.fresh 8).run [.register, .move 0 .acquire,
      .defer 0 (.nested 1 2 false), .move 0 .requestAdvance, .move 0 .release,
      .move 0 .resign]).1.isDeserted = true := by decide +kernel
  exact ⟨hsparse, hdeserted, by decide +kernel,
    (Realm.run_in_order 8 _ hsparse).2.2.2.2 hdeserted⟩

end EpochTable
