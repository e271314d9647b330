import EpochTable.Proofs.Recounting
import EpochTable.Script.Nodes

namespace EpochTable

variable {r : Realm} {ring ring' : EpochRing} {seat s : Seat} {d j k : Nat} {nodes : List Node}
  {rest : List Task} {past : List Event}

/-- The job does nothing to the realm in which it runs. -/
def Job.IsDetached (job : Job) : Prop := job.script = .done

/-- The place so many places further on. -/
def Seat.after (seat : Seat) (k : Nat) : Seat := Seat.of (seat.val + k)

/-- So many places in a row, from a seat on. -/
def Seat.span (seat : Seat) (d : Nat) : List Seat := (List.range d).map seat.after

/-- What happens while one collector is drained, if its jobs are detached. -/
def EpochRing.drainEvents (ring : EpochRing) (s : Seat) : List Event :=
  .drainBegan s :: ((ring.collector s).nodes.map .ran
    ++ [.drainEnded s (ring.collector s).nodes.length])

/-- After so many drains from a seat on the next collector has more than a back link, and none of those
before has. -/
structure EpochRing.DrainsFrom (ring : EpochRing) (seat : Seat) (d : Nat) : Prop where
  linked : ∀ k, 0 < k → k < d → (ring.collector (seat.after k)).word = Collector.backLink
  held : d < ringSize → (ring.collector (seat.after d)).word ≠ Collector.backLink

/-- The counts of a ring after so many drains in a row. -/
structure EpochRing.Counts (ring : EpochRing) (seat : Seat) (d : Nat) (ring' : EpochRing) : Prop where
  current : ring'.current = ring.current
  entered : ring'.entered = ring.entered
  tail : ring'.tail = ring.tail.after d
  reclaimed : ring'.reclaimed
    = ring.reclaimed + ((seat.span d).map fun s => (ring.collector s).nodes.length).sum
  threshold : ring'.threshold = ring.threshold

/-- A ring after so many drains in a row: the collectors drained are empty and idle, and then the next
one has lost its back link. -/
structure EpochRing.Drained (ring : EpochRing) (seat : Seat) (d : Nat) (ring' : EpochRing) : Prop
    extends ring.Counts seat d ring' where
  collector : ∀ s, ring'.collector s =
    let c := if s ∈ seat.span d then Collector.fresh false else ring.collector s
    if s = seat.after d then (c.release Collector.backLink).1 else c

/-- A ring in which so many drains are over and the next one is about to begin. -/
structure EpochRing.Draining (ring : EpochRing) (seat : Seat) (d : Nat) (ring' : EpochRing) : Prop
    extends ring.Counts seat d ring' where
  nodes : (ring'.collector (seat.after d)).nodes = (ring.collector (seat.after d)).nodes
  others : ∀ s, s ≠ seat.after d →
    ring'.collector s = if s ∈ seat.span d then Collector.fresh false else ring.collector s

theorem Seat.after_zero (seat : Seat) : seat.after 0 = seat := by
  have hlt := seat.isLt
  simp only [ringSize] at hlt
  apply Fin.ext
  rw [Seat.after, Seat.val_of]
  omega

theorem Seat.next_after (seat : Seat) (k : Nat) : (seat.after k).next = seat.after (k + 1) :=
  Seat.next_of _

theorem Seat.after_ringSize (seat : Seat) : seat.after ringSize = seat := by
  rw [Seat.after, Seat.of_add_ringSize]
  exact seat.after_zero

theorem Seat.after_inj (hj : j < ringSize) (hk : k < ringSize) :
    seat.after j = seat.after k ↔ j = k := by
  rw [Seat.after, Seat.after, Seat.of_inj (t := seat.val) (by omega) (by omega) (by omega) (by omega)]
  omega

theorem Seat.mem_span : s ∈ seat.span d ↔ ∃ k < d, seat.after k = s := by
  simp [Seat.span]

theorem Seat.span_succ (seat : Seat) (d : Nat) : seat.span (d + 1) = seat.span d ++ [seat.after d] := by
  rw [Seat.span, Seat.span, List.range_succ, List.map_append, List.map_singleton]

theorem Seat.after_notMem_span (seat : Seat) (hd : d < ringSize) : seat.after d ∉ seat.span d := by
  rw [Seat.mem_span]
  rintro ⟨k, hk, hsame⟩
  rw [Seat.after_inj (by omega) hd] at hsame
  omega

/-- A full turn comes back to a collector that was drained. -/
theorem Seat.after_mem_span (seat : Seat) (hd : d = ringSize) : seat.after d ∈ seat.span d := by
  rw [hd, Seat.after_ringSize, Seat.mem_span]
  exact ⟨0, by decide, seat.after_zero⟩

/-- One drain of a collector that runs all its nodes. -/
def EpochRing.drainOnce (ring : EpochRing) (s : Seat) : EpochRing × Bool :=
  (ring.unload s).1.finishDrain s (ring.collector s).nodes.length

theorem EpochRing.collector_drainOnce (ring : EpochRing) (s t : Seat) :
    (ring.drainOnce s).1.collector t =
      if s = t then Collector.fresh false
      else if s.next = t then ((ring.collector t).release Collector.backLink).1
      else ring.collector t := by
  rw [EpochRing.drainOnce, EpochRing.collector_finishDrain, EpochRing.collector_unload]
  by_cases hs : s = t
  · rw [if_pos hs, if_pos hs, if_pos hs]
    rfl
  · rw [if_neg hs, if_neg hs, if_neg hs]

/-- It goes on exactly if the next collector had nothing but the back link. -/
theorem EpochRing.drainOnce_last (ring : EpochRing) (s : Seat) :
    (ring.drainOnce s).2 = true ↔ (ring.collector s.next).word = Collector.backLink := by
  rw [EpochRing.drainOnce, EpochRing.finishDrain_last, EpochRing.word_finishDrain,
    if_neg s.next_ne.symm, if_pos rfl, EpochRing.word_unload, UInt64.sub_eq_iff_eq_add,
    UInt64.zero_add]

theorem EpochRing.Counts.start (ring : EpochRing) (seat : Seat) : ring.Counts seat 0 ring :=
  ⟨rfl, rfl, ring.tail.after_zero.symm, rfl, rfl⟩

theorem EpochRing.Counts.drainOnce (h : ring.Counts seat d ring')
    (hnodes : (ring'.collector (seat.after d)).nodes = (ring.collector (seat.after d)).nodes) :
    ring.Counts seat (d + 1) (ring'.drainOnce (seat.after d)).1 := by
  have hmaster : (ring'.drainOnce (seat.after d)).1.master = ring'.master.drained :=
    EpochRing.master_finishDrain _ _ _
  refine ⟨?_, ?_, ?_, ?_, h.threshold⟩
  · rw [EpochRing.current, hmaster, MasterWord.current_drained]
    exact h.current
  · rw [EpochRing.entered, hmaster, MasterWord.entered_drained]
    exact h.entered
  · rw [EpochRing.tail, hmaster, MasterWord.tail_drained]
    exact (congrArg Seat.next h.tail).trans (Seat.next_after _ _)
  · have hadd : (ring'.drainOnce (seat.after d)).1.reclaimed
        = ring'.reclaimed + (ring'.collector (seat.after d)).nodes.length := rfl
    rw [hadd, h.reclaimed, hnodes, Seat.span_succ, List.map_append, List.sum_append,
      List.map_singleton, List.sum_singleton, Nat.add_assoc]

theorem EpochRing.Draining.start (ring : EpochRing) (seat : Seat) : ring.Draining seat 0 ring :=
  ⟨.start ring seat, rfl, fun _ _ => rfl⟩

theorem EpochRing.Draining.drainOnce (h : ring.Draining seat d ring') :
    ring.Drained seat (d + 1) (ring'.drainOnce (seat.after d)).1 := by
  refine ⟨h.toCounts.drainOnce h.nodes, fun s => ?_⟩
  have hspan : s ∈ seat.span (d + 1) ↔ s ∈ seat.span d ∨ s = seat.after d := by
    rw [Seat.span_succ, List.mem_append, List.mem_singleton]
  rw [EpochRing.collector_drainOnce, Seat.next_after]
  by_cases hthis : s = seat.after d
  · subst hthis
    have hother : seat.after d ≠ seat.after (d + 1) :=
      Seat.next_after seat d ▸ (seat.after d).next_ne.symm
    simp only [if_true, hspan.mpr (.inr rfl), hother, if_false]
  · rw [if_neg (Ne.symm hthis), h.others s hthis]
    simp only [hspan, hthis, or_false, eq_comm (a := seat.after (d + 1))]

theorem EpochRing.Drained.draining (h : ring.Drained seat d ring') (hd : d < ringSize) :
    ring.Draining seat d ring' := by
  refine ⟨h.toCounts, ?_, fun s hs => ?_⟩
  · simp [h.collector, seat.after_notMem_span hd, Collector.release]
  · simp [h.collector, hs]

/-- Where the next collector is as it was at the beginning, and where it is one of those drained. -/
theorem EpochRing.Draining.word_next (h : ring.Draining seat d ring') (hd : d < ringSize) :
    (ring'.collector (seat.after (d + 1))).word = if d + 1 < ringSize
      then (ring.collector (seat.after (d + 1))).word else Collector.idleWord := by
  have hother : seat.after (d + 1) ≠ seat.after d :=
    Seat.next_after seat d ▸ (seat.after d).next_ne
  rw [h.others _ hother]
  by_cases hlast : d + 1 < ringSize
  · have hout : seat.after (d + 1) ∉ seat.span d := fun hmem => by
      refine seat.after_notMem_span hlast ?_
      rw [Seat.span_succ]
      exact List.mem_append_left _ hmem
    rw [if_neg hout, if_pos hlast]
  · have hmem := seat.after_mem_span (show d + 1 = ringSize by omega)
    rw [Seat.span_succ, List.mem_append, List.mem_singleton] at hmem
    rw [if_pos (hmem.resolve_right hother), if_neg hlast]
    rfl

/-- A detached job takes two tasks, and they only tell that it has run. -/
theorem Activity.steps_run (h : ∀ node ∈ nodes, node.job.IsDetached) :
    Activity.steps (2 * nodes.length) ⟨r, nodes.map .run ++ rest, past⟩
      = ⟨r, rest, past ++ nodes.map .ran⟩ := by
  induction nodes generalizing past with
  | nil => simp [Activity.steps]
  | cons node nodes ih =>
    obtain ⟨hnode, hnodes⟩ := List.forall_mem_cons.mp h
    have hscript : node.job.script = .done := hnode
    have htwo : Activity.steps 2 ⟨r, .run node :: (nodes.map .run ++ rest), past⟩
        = ⟨r, nodes.map .run ++ rest, past ++ [.ran node]⟩ := by
      simp [Activity.steps, Activity.step, Realm.perform, Realm.proceed, Activity.still, hscript]
    rw [List.length_cons, Nat.mul_succ, Nat.add_comm, Activity.steps_add, List.map_cons,
      List.cons_append, htwo, ih hnodes, List.map_cons, List.append_assoc, List.singleton_append]

theorem Activity.step_cons (r : Realm) (task : Task) (rest : List Task) (past : List Event) :
    Activity.steps 1 ⟨r, task :: rest, past⟩
      = ⟨(r.perform task).realm, (r.perform task).agenda ++ rest,
          past ++ (r.perform task).journal⟩ := rfl

theorem Activity.steps_drain (s : Seat)
    (h : ∀ node ∈ (r.ring.collector s).nodes, node.job.IsDetached) :
    ∃ n, Activity.steps n ⟨r, .drain s :: rest, past⟩
      = ⟨{ r with ring := (r.ring.drainOnce s).1 },
          (if (r.ring.drainOnce s).2 then [.drain s.next] else []) ++ rest,
          past ++ r.ring.drainEvents s⟩ := by
  generalize hnodes : (r.ring.collector s).nodes = nodes at h
  refine ⟨1 + (2 * nodes.length + 1), ?_⟩
  have hdrain : r.perform (.drain s) = ⟨{ r with ring := (r.ring.unload s).1 },
      nodes.map .run ++ [.finish s nodes.length], [.drainBegan s]⟩ := by
    rw [← hnodes]
    rfl
  have hfinish : Realm.perform { r with ring := (r.ring.unload s).1 } (.finish s nodes.length)
      = ⟨{ r with ring := (r.ring.drainOnce s).1 },
          if (r.ring.drainOnce s).2 then [.drain s.next] else [],
          [.drainEnded s nodes.length]⟩ := by
    rw [← hnodes]
    rfl
  rw [Activity.steps_add, Activity.step_cons, hdrain, List.append_assoc, Activity.steps_add,
    Activity.steps_run h, List.singleton_append, Activity.step_cons, hfinish, EpochRing.drainEvents,
    hnodes]
  simp only [List.append_assoc, List.cons_append, List.nil_append]

/-- From the middle of the turn on. The induction is on the collectors that have not been drained. -/
theorem EpochRing.Draining.ends (r : Realm) (h : r.ring.Draining seat d ring') (hd : d < ringSize)
    (detached : ∀ s, ∀ node ∈ (r.ring.collector s).nodes, node.job.IsDetached)
    (linked : ∀ k, 0 < k → k < d + 1 → (r.ring.collector (seat.after k)).word = Collector.backLink) :
    ∃ e last, d < e ∧ e ≤ ringSize ∧ r.ring.DrainsFrom seat e ∧ r.ring.Drained seat e last ∧
      ∀ rest past, ∃ n, Activity.steps n
          ⟨{ r with ring := ring' }, .drain (seat.after d) :: rest,
            past ++ (seat.span d).flatMap r.ring.drainEvents⟩
        = ⟨{ r with ring := last }, rest, past ++ (seat.span e).flatMap r.ring.drainEvents⟩ := by
  generalize hleft : ringSize - d = left
  induction left generalizing d ring' with
  | zero => omega
  | succ left ih =>
    have hdrained := h.drainOnce
    have hnodes := h.nodes
    have hevents : (seat.span d).flatMap r.ring.drainEvents ++ ring'.drainEvents (seat.after d)
        = (seat.span (d + 1)).flatMap r.ring.drainEvents := by
      rw [Seat.span_succ, List.flatMap_append, List.flatMap_singleton, EpochRing.drainEvents, hnodes,
        EpochRing.drainEvents]
    have hfirst : ∀ rest past, ∃ n, Activity.steps n
          ⟨{ r with ring := ring' }, .drain (seat.after d) :: rest,
            past ++ (seat.span d).flatMap r.ring.drainEvents⟩
        = ⟨{ r with ring := (ring'.drainOnce (seat.after d)).1 },
            (if (ring'.drainOnce (seat.after d)).2 then [.drain (seat.after (d + 1))] else []) ++ rest,
            past ++ (seat.span (d + 1)).flatMap r.ring.drainEvents⟩ := by
      intro rest past
      rw [← hevents, ← List.append_assoc, ← Seat.next_after]
      exact Activity.steps_drain (r := { r with ring := ring' }) _ (hnodes ▸ detached _)
    have hgoes := ring'.drainOnce_last (seat.after d)
    rw [Seat.next_after, h.word_next hd] at hgoes
    by_cases hlast : (ring'.drainOnce (seat.after d)).2 = true
    · have hword := hgoes.mp hlast
      have hroom : d + 1 < ringSize := by
        by_contra hfull
        rw [if_neg hfull] at hword
        exact absurd hword (by decide)
      rw [if_pos hroom] at hword
      have hlinked : ∀ k, 0 < k → k < d + 1 + 1 →
          (r.ring.collector (seat.after k)).word = Collector.backLink := by
        intro k hpos hk
        by_cases hkd : k = d + 1
        · rw [hkd]
          exact hword
        · exact linked k hpos (by omega)
      obtain ⟨e, last, he, hsize, hfrom, hend, hsteps⟩ :=
        ih (hdrained.draining hroom) hroom hlinked (by omega)
      refine ⟨e, last, by omega, hsize, hfrom, hend, fun rest past => ?_⟩
      obtain ⟨m, hm⟩ := hfirst rest past
      obtain ⟨n, hn⟩ := hsteps rest past
      refine ⟨m + n, ?_⟩
      rw [Activity.steps_add, hm, if_pos hlast]
      exact hn
    · refine ⟨d + 1, _, Nat.lt_succ_self d, hd, ⟨linked, fun hroom hword => ?_⟩, hdrained,
        fun rest past => ?_⟩
      · refine hlast (hgoes.mpr ?_)
        rw [if_pos hroom]
        exact hword
      · obtain ⟨m, hm⟩ := hfirst rest past
        refine ⟨m, ?_⟩
        rw [hm, if_neg hlast, List.nil_append]

theorem Activity.settle_of_steps {a : Activity} {n : Nat} (h : (a.steps n).agenda = []) :
    a.settle = a.steps n := by
  have hsteps : a.steps (n + a.budget) = a.steps n := by
    rw [Activity.steps_add, Activity.steps_idle h]
  rw [← hsteps]
  exact Activity.settle_eq (Nat.le_add_left _ _)

/-- Whatever the words and the lists of a ring are and wherever the drain starts: if the jobs do nothing
to the realm, one collector is drained, and then each next one that has only a back link, at most all
sixteen. Every node of theirs runs once and nothing else does, they are left empty and idle, the tail has
moved by their number and the nodes are counted; then the next collector has lost its back link, and all
else is as it was. -/
theorem Activity.drain_ends (r : Realm) (seat : Seat)
    (detached : ∀ s, ∀ node ∈ (r.ring.collector s).nodes, node.job.IsDetached) :
    ∃ d ring', 1 ≤ d ∧ d ≤ ringSize ∧ r.ring.DrainsFrom seat d ∧ r.ring.Drained seat d ring' ∧
      let events := (seat.span d).flatMap r.ring.drainEvents
      (∀ rest past, ∃ n, Activity.steps n ⟨r, .drain seat :: rest, past⟩
        = ⟨{ r with ring := ring' }, rest, past ++ events⟩) ∧
      Activity.settle ⟨r, [.drain seat], []⟩ = ⟨{ r with ring := ring' }, [], events⟩ := by
  have hstart := (EpochRing.Draining.start r.ring seat).ends r (by decide) detached (by omega)
  rw [seat.after_zero] at hstart
  obtain ⟨d, ring', hpos, hsize, hfrom, hdrained, hsteps⟩ := hstart
  have hends : ∀ rest past, ∃ n, Activity.steps n ⟨r, .drain seat :: rest, past⟩
      = ⟨{ r with ring := ring' }, rest, past ++ (seat.span d).flatMap r.ring.drainEvents⟩ := by
    intro rest past
    have h := hsteps rest past
    rwa [Seat.span, List.range_zero, List.map_nil, List.flatMap_nil, List.append_nil] at h
  refine ⟨d, ring', hpos, hsize, hfrom, hdrained, hends, ?_⟩
  obtain ⟨n, hn⟩ := hends [] []
  rw [Activity.settle_of_steps (congrArg Activity.agenda hn), hn, List.nil_append]

/-- Sixteen collectors with nothing but their back links, a state that only unbalanced departures lead to.
A drain that starts at the fourth one goes all the way round and stops where it began, which leaves that
collector with the reference of being current alone. -/
theorem Activity.drain_ends_full_turn :
    let ring : EpochRing :=
      ⟨⟨1794⟩, Vector.replicate ringSize ⟨Collector.backLink, [⟨0, .note 1⟩, ⟨1, .discard 4⟩], 2⟩, 8, 0⟩
    (∀ s, ∀ node ∈ (ring.collector s).nodes, node.job.IsDetached) ∧
      ∃ ring', ring.Drained 3 16 ring' ∧ ring'.reclaimed = 32 ∧ ring'.tail = ring.tail ∧
        ring'.collector 3 = ⟨Collector.currentRef, [], 0⟩ ∧
        ring.carryOut [.drain 3]
          = ⟨.bare ring', [], ((3 : Seat).span 16).flatMap ring.drainEvents⟩ := by
  intro ring
  have hcollector : ∀ s, ring.collector s = ⟨Collector.backLink, [⟨0, .note 1⟩, ⟨1, .discard 4⟩], 2⟩ :=
    fun s => Vector.getElem_replicate s.isLt
  have hdetached : ∀ s, ∀ node ∈ (ring.collector s).nodes, node.job.IsDetached := by
    intro s
    simp [hcollector, Job.IsDetached, Job.script]
  obtain ⟨d, ring', _, hsize, hfrom, hdrained, _, hsettle⟩ :=
    Activity.drain_ends (.bare ring) 3 hdetached
  have hfull : d = 16 := by
    by_contra hne
    exact hfrom.held (by simp only [ringSize] at hsize ⊢; omega) (congrArg Collector.word (hcollector _))
  subst hfull
  refine ⟨hdetached, ring', hdrained, ?_, ?_, ?_, hsettle⟩
  · rw [hdrained.reclaimed]
    decide +kernel
  · rw [hdrained.tail]
    decide +kernel
  · rw [hdrained.collector]
    decide +kernel

end EpochTable
