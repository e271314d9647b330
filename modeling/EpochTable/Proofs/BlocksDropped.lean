import EpochTable.Proofs.AdvanceAnswered
import EpochTable.Proofs.OldestCollector
import EpochTable.Proofs.Reclamation

namespace EpochTable

variable {r : Realm} {c : Chronicle} {s : Store} {node : Node} {i g : Nat} {past journal : List Event}

/-- The node was handed over when the ring was full, and the ring has not advanced since. -/
def Event.Stranded (node : Node) (journal : List Event) : Prop :=
  ∃ before seat nodes after, journal = before ++ .flushed seat nodes :: .refused seat :: after ∧
    node ∈ nodes ∧ ∀ s, .advanced s ∉ after

theorem Event.not_stranded (h : ∀ seat, .refused seat ∉ journal) : ¬ Event.Stranded node journal := by
  rintro ⟨before, seat, nodes, after, rfl, _⟩
  exact h seat (by simp)

/-- The nodes handed over in the current generation by those that asked for an advance are the stranded
ones. -/
theorem Event.Answered.stranded_iff (h : Event.Answered node journal) : Event.Stranded node journal ↔
    node ∈ (Chronicle.of journal).flushed (Chronicle.of journal).generation := by
  have hsame : ∀ before seat nodes after, journal = before ++ .flushed seat nodes :: after →
      ((Chronicle.of journal).generation = (Chronicle.of before).generation ↔
        ∀ s, .advanced s ∉ after) := by
    rintro before seat nodes after rfl
    rw [Chronicle.of_append, Chronicle.after_cons, ← Chronicle.generation_after]
    rfl
  constructor
  · rintro ⟨before, seat, nodes, after, hjournal, hnode, hnone⟩
    rw [(hsame before seat nodes _ hjournal).mpr (by simpa using hnone), hjournal]
    exact Chronicle.mem_flushed hnode
  · intro hflushed
    rcases Chronicle.exists_flushed hflushed with hempty | ⟨before, seat, nodes, after, hj, hnode, hg⟩
    · cases hempty
    · have hnone := (hsame before seat nodes after hj).mp hg.symm
      obtain ⟨rest, rfl | rfl⟩ := h before seat nodes after hj hnode
      · exact absurd List.mem_cons_self (hnone seat)
      · exact ⟨before, seat, nodes, rest, hj, hnode, fun s hs => hnone s (List.mem_cons_of_mem _ hs)⟩

/-- Nobody is counted any more: a node for which an advance was asked has run, unless it is stranded. -/
theorem Realm.Valid.ran_iff (h : r.Valid journal []) (pledged : r.Pledged node journal)
    (hout : ∀ i seat, ¬ r.CountedIn i seat) (hdeferred : .deferred i node ∈ journal) :
    (.ran node ∈ journal ↔ ¬ Event.Stranded node journal) ∧
      (Event.Stranded node journal → node ∈ (r.ring.collector r.ring.current).nodes) := by
  obtain ⟨_, hsound, hkeeps⟩ := h
  have hran : .ran node ∈ journal ↔ node ∈ (Chronicle.of journal).ran := by
    rw [Chronicle.of, Chronicle.mem_ran_after]
    simp [Chronicle.empty]
  have hstranded : Event.Stranded node journal ↔ node ∈ (r.ring.collector r.ring.current).nodes := by
    rw [pledged.answered.stranded_iff, Realm.Keeps.nodes_current hkeeps hsound.balanced,
      List.mem_reverse]
  have hperm := hsound.perm_deferred hkeeps hout
  have hnodup : (Chronicle.of journal).deferred.Nodup := by
    refine List.Nodup.of_map Node.ticket ?_
    rw [hkeeps.tickets]
    exact List.nodup_range
  have hdisjoint := List.disjoint_of_nodup_append (hperm.nodup_iff.mp hnodup)
  rw [hran, hstranded]
  refine ⟨⟨fun hnode => hdisjoint hnode, fun hnot => ?_⟩, id⟩
  have hmem := hperm.mem_iff.mp (Chronicle.mem_deferred hdeferred)
  exact (List.mem_append.mp hmem).resolve_right hnot

theorem Realm.Valid.ticket_lt_of_flushed (h : r.Valid past []) {seat : Seat} {nodes : List Node}
    (hflushed : .flushed seat nodes ∈ past) (hnode : node ∈ nodes) : node.ticket < r.issued := by
  obtain ⟨before, after, rfl⟩ := List.append_of_mem hflushed
  have hordinary := Chronicle.ordinary_empty.after h.allowed
  have hmem := List.mem_map_of_mem (f := Node.ticket)
    (hordinary.flushed _ node (Chronicle.mem_flushed hnode))
  change node.ticket ∈ (Chronicle.of _).deferred.map Node.ticket at hmem
  rwa [h.keeps.tickets, List.mem_range] at hmem

/-- Whatever is retired is pledged from then on. -/
theorem Realm.Valid.pledged_retire (h : r.Valid past []) {jobs : List Job}
    (hnode : .deferred i node ∈ (r.apply (.retire i jobs)).2) :
    (r.apply (.retire i jobs)).1.Pledged node (past ++ (r.apply (.retire i jobs)).2) := by
  cases hm : r.pinned? i with
  | none =>
    have hstill : r.begin (.retire i jobs) = .still r := by
      rw [Realm.begin, hm]
      rfl
    rw [Realm.apply, hstill, Activity.settle, Activity.steps_idle rfl] at hnode
    cases hnode
  | some m =>
    rw [Realm.events_retire hm] at hnode
    obtain ⟨_, hnumber, he⟩ := List.mem_map.mp hnode
    cases he
    have hjobs : jobs ≠ [] := by
      rintro rfl
      cases hnumber
    obtain ⟨hissued, hlt⟩ := Node.ticket_of_mem_number hnumber
    rw [Realm.apply_retire hm hjobs]
    refine ⟨hlt, ?_, ?_⟩
    · have hasks : ∀ j, Member.Asks node (r.member? j) := by
        intro j m' hm' hmem
        have hold := Realm.Keeps.ticket_lt h.keeps hm' hmem
        omega
      refine Realm.forall_setMember (r := { r with issued := r.issued + jobs.length }) hasks ?_ i
      exact Member.asks_of_promote (Member.promote_deferAll _ _)
    · have hanswered : Event.Answered node past := by
        rintro before seat nodes after rfl hmem
        have hold := h.ticket_lt_of_flushed (List.mem_append_right _ List.mem_cons_self) hmem
        omega
      exact hanswered.append (by simp)

theorem Realm.Pledged.run (h : r.Pledged node past) (acts : List Realm.Act) :
    (r.run acts).1.Pledged node (past ++ (r.run acts).2) := by
  induction acts generalizing r past with
  | nil => exact h.append (by simp [Realm.run])
  | cons act acts ih =>
    rw [Realm.run_cons, ← List.append_assoc]
    exact ih (h.apply act)

theorem Store.pledged_run (h : s.realm.Pledged node past) (acts : List Store.Act) :
    (s.run acts).1.realm.Pledged node (past ++ (s.run acts).2.2) := by
  obtain ⟨own, hrealm, hevents⟩ := s.realm_run acts
  rw [hrealm, hevents]
  exact h.run own

/-- Once nobody is counted any more, whatever has been retired has run, in a realm as in a store, unless
it was handed over when the ring was full and the ring has not advanced since: the refused request is
not made again, and what is stranded stays in the current collector. A call that replaces the block of
the store retires the old one. -/
theorem Store.retired_dropped_iff (i : Nat) (node : Node) :
    (∀ (threshold : UInt64) (before : List Realm.Act) (jobs : List Job) (after : List Realm.Act),
      let earlier := (Realm.fresh threshold).run before
      let now := earlier.1.apply (.retire i jobs)
      let later := now.1.run after
      let journal := earlier.2 ++ now.2 ++ later.2
      Event.Sparse journal → (∀ j seat, ¬ later.1.CountedIn j seat) →
        .deferred i node ∈ now.2 →
          (.ran node ∈ journal ↔ ¬ Event.Stranded node journal) ∧
          (Event.Stranded node journal →
            node ∈ (later.1.ring.collector later.1.ring.current).nodes)) ∧
    (∀ (settings : Settings) (hash : UInt64 → UInt64) (memory : Memory) (s₀ : Store),
      Store.make settings hash memory = .ok s₀ →
      ∀ (before : List Store.Act) (call : Call) (after : List Store.Act),
        let s := (s₀.run before).1
        let earlier := (s₀.run before).2.2
        let s' := (s.apply (.call i call)).1
        let now := (s.apply (.call i call)).2.2
        let r := (s'.run after).1.realm
        let journal := earlier ++ now ++ (s'.run after).2.2
        Event.Sparse journal → (∀ j seat, ¬ r.CountedIn j seat) →
          (s'.table.block.cellCount ≠ s.table.block.cellCount →
            ∃ ticket, .deferred i ⟨ticket, .discard s.table.block.cellCount⟩ ∈ now) ∧
          (.deferred i node ∈ now →
            (.ran node ∈ journal ↔ ¬ Event.Stranded node journal) ∧
            (Event.Stranded node journal → node ∈ (r.ring.collector r.ring.current).nodes))) := by
  constructor
  · intro threshold before jobs after earlier now later journal sparse hout hnode
    have hpast := (Realm.valid_fresh threshold).run before sparse.left.left
    rw [List.nil_append] at hpast
    have hvalid := (hpast.apply (.retire i jobs) sparse.left).run after sparse
    have hpledged := (hpast.pledged_retire hnode).run after
    exact hvalid.ran_iff hpledged hout (List.mem_append_left _ (List.mem_append_right _ hnode))
  · intro settings hash memory s₀ hmake before call after s earlier s' now r journal sparse hout
    refine ⟨Store.defers_discard s i call, fun hnode => ?_⟩
    have hpast := Store.valid_run (Store.valid_make hmake) before sparse.left.left
    rw [List.nil_append] at hpast
    have hvalid := Store.valid_run (Store.valid_apply hpast (.call i call) sparse.left) after sparse
    have hpledged : s'.realm.Pledged node (earlier ++ now) := by
      rcases s.call_cases i call with ⟨_, hevents⟩ | ⟨_, done, _, _, _, hrealm, hevents⟩
      · simp [now, hevents] at hnode
      · simp only [now, s', hrealm, hevents] at hnode ⊢
        exact hpast.pledged_retire hnode
    exact hvalid.ran_iff (Store.pledged_run hpledged after) hout
      (List.mem_append_left _ (List.mem_append_right _ hnode))

/-- The ring has room, so the block of one cell is dropped as soon as both members have let go. -/
theorem Store.retired_dropped_iff_room :
    let before : List Store.Act := [.realm .register, .realm .register, .realm (.move 0 .acquire),
      .realm (.move 1 .acquire), .call 0 (.insert ⟨1, 10⟩), .call 0 (.insert ⟨2, 20⟩),
      .call 0 (.insert ⟨3, 30⟩)]
    let after : List Store.Act := [.realm (.move 0 .release), .realm (.move 1 .release)]
    ∃ s₀, Store.make ⟨1, 128, 64, .standard, 128⟩ id (fun _ => true) = .ok s₀ ∧
      let s := (s₀.run before).1
      let s' := (s.apply (.call 0 (.insert ⟨4, 40⟩))).1
      let now := (s.apply (.call 0 (.insert ⟨4, 40⟩))).2.2
      let journal := (s₀.run before).2.2 ++ now ++ (s'.run after).2.2
      s'.table.block.cellCount ≠ s.table.block.cellCount ∧ Event.Sparse journal ∧
      (∀ j seat, ¬ (s'.run after).1.realm.CountedIn j seat) ∧
      .deferred 0 ⟨0, .discard 1⟩ ∈ now ∧ .ran ⟨0, .discard 1⟩ ∈ journal := by
  intro before after
  refine ⟨_, rfl, ?_⟩
  intro s s' now journal
  have hsparse : Event.Sparse journal := Event.sparse_of_length (by decide +kernel)
  have hout : ∀ j seat, ¬ (s'.run after).1.realm.CountedIn j seat :=
    Realm.isQuiet_iff.mp (by decide +kernel)
  have hnow : .deferred 0 ⟨0, .discard 1⟩ ∈ now := by decide +kernel
  have hroom : ∀ seat, .refused seat ∉ journal := by decide +kernel
  obtain ⟨_, hdropped⟩ := (Store.retired_dropped_iff 0 ⟨0, .discard 1⟩).2 ⟨1, 128, 64, .standard, 128⟩
    id (fun _ => true) _ rfl before (.insert ⟨4, 40⟩) after hsparse hout
  exact ⟨by decide +kernel, hsparse, hout, hnow, (hdropped hnow).1.mpr (Event.not_stranded hroom)⟩

/-- The ring is full because the first member is still counted where it began. The second one replaces
the block and leaves, and its advance is refused. Then the first one leaves too, and nobody is counted
any more, but the old block is still there. -/
theorem Store.retired_block_kept_full :
    let before : List Store.Act := [.realm .register, .realm .register, .realm (.move 0 .acquire)]
      ++ (List.replicate 15 [Store.Act.realm (.move 1 .acquire), .realm (.move 1 .requestAdvance),
        .realm (.move 1 .release)]).flatten
      ++ [.realm (.move 1 .acquire), .call 1 (.insert ⟨1, 10⟩), .call 1 (.insert ⟨2, 20⟩),
        .call 1 (.insert ⟨3, 30⟩)]
    let after : List Store.Act := [.realm (.move 1 .release), .realm (.move 0 .release)]
    ∃ s₀, Store.make ⟨1, 128, 64, .standard, 128⟩ id (fun _ => true) = .ok s₀ ∧
      let s := (s₀.run before).1
      let s' := (s.apply (.call 1 (.insert ⟨4, 40⟩))).1
      let now := (s.apply (.call 1 (.insert ⟨4, 40⟩))).2.2
      let r := (s'.run after).1.realm
      let journal := (s₀.run before).2.2 ++ now ++ (s'.run after).2.2
      Event.Sparse journal ∧ (∀ j seat, ¬ r.CountedIn j seat) ∧
      .deferred 1 ⟨0, .discard 1⟩ ∈ now ∧ .ran ⟨0, .discard 1⟩ ∉ journal ∧
      r.ring.tail = r.ring.current ∧ r.ring.pending = 1 ∧ r.ring.reclaimed = 0 := by
  intro before after
  refine ⟨_, rfl, ?_⟩
  intro s s' now r journal
  exact ⟨Event.sparse_of_length (by decide +kernel), Realm.isQuiet_iff.mp (by decide +kernel),
    by decide +kernel, by decide +kernel, by decide +kernel, by decide +kernel, by decide +kernel⟩

end EpochTable
