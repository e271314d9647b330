import EpochTable.Proofs.ActsSound

namespace EpochTable

variable {r r' : Realm} {c d : Chronicle} {i : Nat} {task : Task} {rest new : List Task}

theorem Realm.Sound.phase_rest (h : r.Sound c (task :: rest)) {j : Nat}
    (ha : task.awaits j = false) : Phase r c j (rest.filter (·.awaits j)) := by
  have hp := h.phases j
  rwa [List.filter_cons_of_neg (by simp [ha])] at hp

theorem Realm.Sound.draining_rest (h : r.Sound c (task :: rest)) (hd : task.drained? = none) :
    rest.filterMap Task.drained? = if c.Vacant then [Seat.of c.ended] else [] := by
  have hdrains := h.draining
  rwa [List.filterMap_cons_none hd] at hdrains

/-- Only the oldest collector is drained, and only by one task. -/
theorem Realm.Sound.only_drain {s : Seat} (h : r.Sound c (task :: rest))
    (hd : task.drained? = some s) :
    s = Seat.of c.ended ∧ c.Vacant ∧ rest.filterMap Task.drained? = [] := by
  have hdraining := h.draining
  rw [List.filterMap_cons_some hd] at hdraining
  have hv : c.Vacant := by
    by_contra hv
    simp [hv] at hdraining
  rw [if_pos hv, List.cons.injEq] at hdraining
  exact ⟨hdraining.1, hv, hdraining.2⟩

theorem Realm.Sound.tail (h : r.Sound c (task :: rest)) (ha : ∀ j, task.awaits j = false)
    (hd : task.drained? = none) : r.Sound c rest :=
  ⟨h.balanced, fun j => h.phase_rest (ha j), h.draining_rest hd, h.orderly.2⟩

theorem Orderly.drain_if (h : Orderly rest) (s : Seat) (last : Bool) :
    Orderly ((if last then [.drain s] else []) ++ rest) := by
  split
  · exact ⟨trivial, h⟩
  · exact h

theorem Realm.Sound.of_tasks (new : List Task) (phases : ∀ j, Phase r c j (rest.filter (·.awaits j)))
    (balanced : r'.ring.Balanced d) (hm : r'.members = r.members) (hr : d.roster = c.roster)
    (hnew : ∀ j, new.filter (·.awaits j) = [])
    (draining : new.filterMap Task.drained? ++ rest.filterMap Task.drained?
      = if d.Vacant then [Seat.of d.ended] else [])
    (orderly : Orderly (new ++ rest)) : r'.Sound d (new ++ rest) := by
  refine ⟨balanced, ?_, ?_, orderly⟩
  · intro j
    rw [List.filter_append, hnew j, List.nil_append]
    refine (phases j).congr ?_ ?_ ?_
    · rw [Realm.member?, hm, Realm.member?]
    · exact Nat.le_of_eq (congrArg List.length hm.symm)
    · intro g
      rw [hr]
  · rw [List.filterMap_append]
    exact draining

/-- Whoever asked for an advance is still counted. -/
theorem Realm.Sound.exists_counted {s : Seat} (h : r.Sound c (.advance s :: rest)) :
    ∃ i g, (i, g) ∈ c.roster := by
  obtain ⟨i, seat, hleave⟩ := h.orderly.1
  have hmem : Task.leave i seat ∈ (Task.advance s :: rest).filter (·.awaits i) := by
    simp [Task.awaits, hleave]
  exact ⟨i, (h.phases i).counted_of_leave hmem⟩

/-- The reference of being current is not the last one, because somebody is still counted. -/
theorem Realm.Sound.advance_not_last {s : Seat} {ring : EpochRing} {last : Bool}
    (h : r.Sound c (.advance s :: rest)) (few : c.roster.length < 2 ^ 56)
    (ha : r.ring.advance s = some (ring, last)) : last = false := by
  obtain ⟨i, g, hp⟩ := h.exists_counted
  have hbalanced := h.balanced.advance ha
  have hcurrent : s = Seat.of c.generation :=
    (EpochRing.advance_eq_some ha).1.symm.trans h.balanced.current
  by_contra hlast
  have hword := (EpochRing.advance_last ha).mp (by simpa using hlast)
  rw [hcurrent] at hword hbalanced
  have hzero := (hbalanced.word_eq_zero few h.balanced.ended_le h.balanced.room).mp hword
  have hlt := ((h.balanced.vacant_advanced hp _).mp hzero.2).1
  exact absurd hzero.1 (Nat.ne_of_gt hlt)

theorem Realm.Sound.advance {s : Seat} (h : r.Sound c (.advance s :: rest))
    (few : c.roster.length < 2 ^ 56) : (r.perform (.advance s)).Sound c rest := by
  have htail := h.tail (fun _ => rfl) rfl
  simp only [Realm.perform]
  split
  next =>
    split
    · exact htail
    · exact htail
  next ring last ha =>
    obtain ⟨i, g, hp⟩ := h.exists_counted
    have hvacant := h.balanced.vacant_advanced hp s
    have hfalse := h.advance_not_last few ha
    subst hfalse
    refine Realm.Sound.of_tasks [] htail.phases (h.balanced.advance ha) rfl rfl ?_ ?_ htail.orderly
    · simp
    · rw [List.filterMap_nil, List.nil_append, htail.draining]
      change _ = if (c.record (.advanced s)).Vacant then [Seat.of c.ended] else []
      simp only [hvacant]

theorem Realm.Sound.leave {s : Seat} (h : r.Sound c (.leave i s :: rest))
    (few : c.roster.length < 2 ^ 56) : (r.perform (.leave i s)).Sound c rest := by
  have hphase := h.phases i
  rw [List.filter_cons_of_pos (by simp [Task.awaits])] at hphase
  obtain ⟨g, rfl, hp⟩ := hphase.mem_roster
  have hbalanced := h.balanced.leave hp
  have hwithin := h.balanced.within _ hp
  have hvacant := Chronicle.vacant_left h.balanced.once hp (Seat.of g)
  have hfew : (c.record (.left i (Seat.of g))).roster.length < 2 ^ 56 :=
    Nat.lt_of_le_of_lt (List.length_filter_le _ _) few
  have hdraining := h.draining_rest rfl
  have hlast := (EpochRing.release_last r.ring (Seat.of g) Collector.memberRef).trans
    (hbalanced.word_eq_zero hfew hwithin.1 (Nat.lt_of_le_of_lt hwithin.2 h.balanced.room))
  change _ ↔ g = c.ended ∧ _ at hlast
  simp only [Realm.perform]
  refine Realm.Sound.of_member (r := r) (c := c) _ i ?_ hbalanced (fun _ _ => rfl) (Nat.le_refl _)
    ?_ ?_ ?_ ?_ ?_
  · exact fun j hj => h.phase_rest (by simp [Task.awaits, Ne.symm hj])
  · exact fun j hj _ => Chronicle.mem_roster_left hj (Seat.of g)
  · intro j _
    split <;> simp [Task.awaits]
  · have hafter : Phase { r with ring := (r.ring.release (Seat.of g) Collector.memberRef).1 }
        (c.record (.left i (Seat.of g))) i (rest.filter (·.awaits i)) := hphase.after_leave rfl
    split <;> simpa [Task.awaits] using hafter
  · change _ = if (c.record (.left i (Seat.of g))).Vacant then [Seat.of c.ended] else []
    rw [hdraining]
    -- Already vacant, vacant from now on, or not vacant yet: only the second starts a drain.
    by_cases hv : c.Vacant
    · have hne : g ≠ c.ended := Chronicle.crowd_eq_zero.mp hv.2 _ hp
      have hv' : (c.record (.left i (Seat.of g))).Vacant := hvacant.mpr ⟨hv.1, by simp [hne, hv.2]⟩
      have hnot : ¬ (r.ring.release (Seat.of g) Collector.memberRef).2 = true :=
        fun hl => hne (hlast.mp hl).1
      simp [hv, hv', hnot]
    · by_cases hv' : (c.record (.left i (Seat.of g))).Vacant
      · have he : g = c.ended := by
          by_contra hne
          have hcrowd := hvacant.mp hv'
          rw [if_neg hne] at hcrowd
          exact hv hcrowd
        rw [if_pos (hlast.mpr ⟨he, hv'⟩), if_pos hv', if_neg hv, he]
        rfl
      · have hnot : ¬ (r.ring.release (Seat.of g) Collector.memberRef).2 = true :=
          fun hl => hv' (hlast.mp hl).2
        simp [hv, hv', hnot]
  · exact Orderly.drain_if h.orderly.2 _ _

theorem Realm.Sound.rejoin (h : r.Sound c (.rejoin i :: rest)) :
    (r.perform (.rejoin i)).Sound c rest := by
  have hphase := h.phases i
  rw [List.filter_cons_of_pos (by simp [Task.awaits])] at hphase
  have hothers : ∀ j, j ≠ i → Phase r c j (rest.filter (·.awaits j)) := fun j hj =>
    h.phase_rest (by simp [Task.awaits, Ne.symm hj])
  have hdraining := h.draining_rest rfl
  generalize htasks : Task.rejoin i :: rest.filter (·.awaits i) = tasks at hphase
  cases hphase with
  | absent | idle | pinned | leaving | renewing => simp at htasks
  | returning m hm hrenewing hout =>
    have hi : rest.filter (·.awaits i) = [] := by simpa using htasks
    simp only [Realm.perform, hm, Realm.withMember]
    refine Realm.Sound.join hothers hi h.balanced hm hout hdraining h.orderly.2 ?_ _ fun _ => rfl
    rw [hrenewing.1]
    exact Nat.one_ne_zero

theorem EpochRing.word_unload (r : EpochRing) (s t : Seat) :
    ((r.unload s).1.collector t).word = (r.collector t).word := by
  rw [EpochRing.collector_unload]
  split <;> rfl

theorem Realm.Sound.drain {s : Seat} (h : r.Sound c (.drain s :: rest)) :
    (r.perform (.drain s)).Sound c rest := by
  have hdraining := h.draining
  have horderly : ∀ nodes : List Node,
      Orderly (nodes.map .run ++ [.finish s (r.ring.unload s).2.length] ++ rest) := by
    intro nodes
    induction nodes with
    | nil => exact ⟨trivial, h.orderly.2⟩
    | cons node nodes ih =>
      refine ⟨⟨s, (r.ring.unload s).2.length, ?_⟩, ih⟩
      simp
  have hbalanced : (r.ring.unload s).1.Balanced (c.record (.drainBegan s)) :=
    h.balanced.congr rfl (r.ring.word_unload s) rfl rfl rfl
  refine Realm.Sound.of_tasks (r := r) (c := c) _ (fun j => h.phase_rest rfl) hbalanced rfl rfl
    ?_ ?_ (horderly _)
  · intro j
    simp [Realm.perform, Task.awaits, List.filter_eq_nil_iff]
  · have hruns : ((r.ring.unload s).2.map Task.run).filterMap Task.drained? = [] := by
      simp [List.filterMap_eq_nil_iff, Task.drained?]
    rw [List.filterMap_cons_some (f := Task.drained?) (b := s) rfl] at hdraining
    simp only [Realm.perform, List.filterMap_append, hruns]
    exact hdraining

theorem Realm.Sound.finish {s : Seat} {n : Nat} (h : r.Sound c (.finish s n :: rest))
    (few : c.roster.length < 2 ^ 56) : (r.perform (.finish s n)).Sound c rest := by
  obtain ⟨rfl, hv, hnone⟩ := h.only_drain rfl
  have hbalanced := h.balanced.finishDrain hv n
  have hlast : (r.ring.finishDrain (Seat.of c.ended) n).2 = true ↔
      (c.record (.drainEnded (Seat.of c.ended) n)).Vacant := by
    rw [EpochRing.finishDrain_last]
    simp only [Seat.next_of]
    refine (hbalanced.word_eq_zero few (Nat.le_refl _) ?_).trans (and_iff_right rfl)
    exact Nat.lt_add_of_pos_right (by decide)
  refine Realm.Sound.of_tasks (r := r) (c := c) _ (fun j => h.phase_rest rfl) hbalanced rfl rfl
    ?_ ?_ (Orderly.drain_if h.orderly.2 _ _)
  · intro j
    simp only [Realm.perform]
    split <;> simp [Task.awaits]
  · rw [hnone, List.append_nil]
    simp only [Realm.perform]
    split
    next hl =>
      refine Eq.trans ?_ (if_pos (hlast.mp hl)).symm
      rw [Seat.next_of]
      rfl
    next hl => exact (if_neg fun hv' => hl (hlast.mpr hv')).symm

theorem Activity.sound_followedBy {a : Activity} :
    (a.followedBy new).Sound c rest ↔ a.Sound c (new ++ rest) := by
  simp [Activity.Sound, Activity.followedBy]

/-- What a running job does first: nothing any more, or an act for which nothing else is planned, and
then the rest of its script. -/
theorem Realm.Sound.proceed_cases {own : List Nat} {script : Script}
    (h : r.Sound c (.proceed own script :: rest)) : r.proceed own script = .still r ∨
      ∃ a own' next, r.proceed own script = a.followedBy [.proceed own' next] ∧
        r.Sound c (.proceed own' next :: rest) ∧ (a = .still r ∨ ∃ act, a = r.begin act ∧
          ∀ i, act.member? = some i → (.proceed own' next :: rest).filter (·.awaits i) = []) := by
  have hown : ∀ i ∈ own, rest.filter (·.awaits i) = [] := h.orderly.1
  have htail := h.tail (fun _ => rfl) rfl
  have hgo : ∀ own' next, (∀ i ∈ own', rest.filter (·.awaits i) = []) →
      r.Sound c (.proceed own' next :: rest) := by
    intro own' next hown'
    exact Realm.Sound.of_tasks [.proceed own' next] htail.phases h.balanced rfl rfl
      (fun _ => rfl) htail.draining ⟨hown', htail.orderly⟩
  have hbegin : ∀ k (act : Nat → Realm.Act) next, (∀ i j, (act i).member? = some j → j = i) →
      r.beginOwn own k act = .still r ∨ ∃ a, r.beginOwn own k act = r.begin a ∧
        ∀ i, a.member? = some i → (.proceed own next :: rest).filter (·.awaits i) = [] := by
    intro k act next hact
    refine Realm.of_beginOwn (p := fun b => b = .still r ∨ ∃ a, b = r.begin a ∧
      ∀ i, a.member? = some i → (.proceed own next :: rest).filter (·.awaits i) = [])
      (Or.inl rfl) fun i hi => ?_
    refine Or.inr ⟨act i, rfl, fun j hj => ?_⟩
    rw [hact i j hj]
    exact hown i (List.mem_of_getElem? hi)
  cases script with
  | done => exact Or.inl rfl
  | register next =>
    refine Or.inr ⟨_, _, next, rfl, hgo _ next ?_, Or.inr ⟨.register, rfl, nofun⟩⟩
    intro i hi
    rcases List.mem_append.mp hi with hi | hi
    · exact hown i hi
    · rw [List.mem_singleton.mp hi]
      exact htail.not_awaited (Nat.le_refl _)
  | move k move next =>
    exact Or.inr ⟨_, own, next, rfl, hgo own next hown,
      hbegin k (.move · move) next fun i j hj => (Option.some.inj hj).symm⟩
  | defer k job next =>
    exact Or.inr ⟨_, own, next, rfl, hgo own next hown,
      hbegin k (.defer · job) next fun i j hj => (Option.some.inj hj).symm⟩

theorem Realm.Sound.proceed {own : List Nat} {script : Script}
    (h : r.Sound c (.proceed own script :: rest)) : (r.proceed own script).Sound c rest := by
  rcases h.proceed_cases with he | ⟨a, own', next, he, hsound, ha⟩
  · rw [he]
    exact h.tail (fun _ => rfl) rfl
  · rw [he]
    apply Activity.sound_followedBy.mpr
    rcases ha with rfl | ⟨act, rfl, hact⟩
    · exact hsound
    · exact hsound.begin act hact

theorem Realm.Sound.perform (h : r.Sound c (task :: rest)) (few : c.roster.length < 2 ^ 56) :
    (r.perform task).Sound c rest := by
  cases task with
  | advance s => exact h.advance few
  | leave i s => exact h.leave few
  | rejoin i => exact h.rejoin
  | drain s => exact h.drain
  | run node =>
    have htail := h.tail (fun _ => rfl) rfl
    have hbalanced : r.ring.Balanced (c.record (.ran node)) :=
      h.balanced.congr rfl (fun _ => rfl) rfl rfl rfl
    exact Realm.Sound.of_tasks [.proceed [] node.job.script] htail.phases hbalanced rfl rfl
      (fun _ => rfl) htail.draining ⟨nofun, htail.orderly⟩
  | proceed own script => exact h.proceed
  | finish s n => exact h.finish few

theorem EpochRing.balanced_fresh (threshold : UInt64) :
    (EpochRing.fresh threshold).Balanced .empty := by
  have hcurrent : (⟨0⟩ : MasterWord).current = Seat.of 0 := by decide
  have htail : (⟨0⟩ : MasterWord).tail = Seat.of 0 := by decide
  refine ⟨hcurrent, htail, Nat.le_refl _, by decide, nofun, List.nodup_nil, ?_⟩
  intro g _ hg
  have hseat := Seat.of_inj (Nat.zero_le g) hg (Nat.le_refl 0) (by decide)
  have hzero : Seat.of 0 = 0 := rfl
  simp only [EpochRing.collector, EpochRing.fresh, Fin.getElem_fin, Vector.getElem_ofFn, Fin.eta]
  by_cases h : g = 0
  · subst h
    simp [Collector.fresh, Chronicle.wordOf, Chronicle.empty, Chronicle.crowd, Collector.currentRef,
      hzero, EpochRing.entered, MasterWord.entered]
  · have hne : Seat.of g ≠ 0 := fun he => h (hseat.mp (he.trans hzero.symm))
    simp [hne, h, Collector.fresh, Chronicle.wordOf, Chronicle.empty, Chronicle.crowd,
      Collector.idleWord, Collector.currentRef, Collector.backLink]

theorem Realm.sound_fresh (threshold : UInt64) : (Realm.fresh threshold).Sound .empty [] :=
  ⟨EpochRing.balanced_fresh threshold, fun _ => .absent rfl nofun, rfl, trivial⟩

end EpochTable
