import EpochTable.Proofs.RealmHistory

namespace EpochTable

variable {r : Realm} {c : Chronicle} {past new : List Event} {a : Activity} {act : Realm.Act}
  {agenda : List Task}

/-- The current collector is ahead of the oldest one, or is that one, by less than a round. -/
def Chronicle.Spaced (c : Chronicle) : Prop :=
  c.ended ≤ c.generation ∧ c.generation < c.ended + ringSize

def Event.AlwaysSpaced (journal : List Event) : Prop :=
  ∀ past, past <+: journal → (Chronicle.of past).Spaced

/-- The two ends of the ring do not both move. -/
def Event.OneEnded (events : List Event) : Prop :=
  (∀ seat, .advanced seat ∉ events) ∨ ∀ seat executed, .drainEnded seat executed ∉ events

theorem Chronicle.le_ended_after (c : Chronicle) (journal : List Event) :
    c.ended ≤ (c.after journal).ended := by
  induction journal generalizing c with
  | nil => exact Nat.le_refl _
  | cons e later ih =>
    refine Nat.le_trans ?_ (ih (c.record e))
    cases e with
    | drainEnded seat executed => exact Nat.le_succ _
    | _ => exact Nat.le_refl _

theorem Chronicle.ended_after (c : Chronicle) {journal : List Event}
    (h : ∀ seat executed, .drainEnded seat executed ∉ journal) :
    (c.after journal).ended = c.ended := by
  induction journal generalizing c with
  | nil => rfl
  | cons e later ih =>
    have hlater := ih (c.record e) fun seat executed hmem =>
      h seat executed (List.mem_cons_of_mem _ hmem)
    refine hlater.trans ?_
    cases e with
    | drainEnded seat executed => exact absurd List.mem_cons_self (h seat executed)
    | _ => rfl

/-- While one end rests the other one moves on, so the distance between them is no smaller and no
larger than before or after. -/
theorem Chronicle.Spaced.between (h : c.Spaced) (h' : (c.after new).Spaced)
    (hone : Event.OneEnded new) {first : List Event} (hfirst : first <+: new) :
    (c.after first).Spaced := by
  obtain ⟨later, rfl⟩ := hfirst
  have hgeneration := c.le_generation_after first
  have hgeneration' := (c.after first).le_generation_after later
  have hended := c.le_ended_after first
  have hended' := (c.after first).le_ended_after later
  rw [← Chronicle.after_append] at hgeneration' hended'
  unfold Chronicle.Spaced at h h' ⊢
  rcases hone with hnone | hnone
  · have hstill := (c.generation_after _).mpr hnone
    omega
  · have hstill := c.ended_after hnone
    omega

theorem Event.AlwaysSpaced.append (h : Event.AlwaysSpaced past)
    (hspaced : (Chronicle.of (past ++ new)).Spaced) (hone : Event.OneEnded new) :
    Event.AlwaysSpaced (past ++ new) := by
  intro first hfirst
  rcases List.prefix_or_prefix_of_prefix hfirst (List.prefix_append past new) with
    hpast | ⟨middle, rfl⟩
  · exact h first hpast
  · rw [Chronicle.of_append] at hspaced ⊢
    exact (h past List.prefix_rfl).between hspaced hone
      ((List.prefix_append_right_inj past).mp hfirst)

theorem Realm.Valid.spaced (h : r.Valid past agenda) : (Chronicle.of past).Spaced :=
  ⟨h.sound.balanced.ended_le, h.sound.balanced.room⟩

/-- What an act does at once ends no drain. -/
theorem Realm.drainEnded_not_mem_begin (r : Realm) (act : Realm.Act) (seat : Seat) (executed : Nat) :
    .drainEnded seat executed ∉ (r.begin act).journal :=
  r.isOpening_begin act _

theorem Realm.drainEnded_not_mem_proceed (r : Realm) (own : List Nat) (script : Script) (seat : Seat)
    (executed : Nat) : .drainEnded seat executed ∉ (r.proceed own script).journal :=
  r.isOpening_proceed own script _

theorem Realm.oneEnded_perform (r : Realm) (task : Task) :
    Event.OneEnded (r.perform task).journal := by
  cases task with
  | advance seat =>
    refine .inr fun _ _ => ?_
    simp only [Realm.perform]
    split
    · split <;> simp
    · simp
  | rejoin i =>
    refine .inr fun _ _ => ?_
    simp only [Realm.perform, Realm.withMember]
    split <;> simp [Activity.still, Realm.join]
  | proceed own script => exact .inr (r.drainEnded_not_mem_proceed own script)
  | finish seat executed => exact .inl (by simp [Realm.perform])
  | leave i seat => exact .inr (by simp [Realm.perform])
  | drain seat => exact .inr (by simp [Realm.perform])
  | run node => exact .inr (by simp [Realm.perform])

theorem Activity.Valid.spaced_step (h : a.Valid past)
    (few : (Chronicle.of (past ++ a.journal)).roster.length < 2 ^ 56)
    (hs : Event.AlwaysSpaced (past ++ a.journal)) : Event.AlwaysSpaced (past ++ a.step.journal) := by
  have hspaced := (h.step few).spaced
  unfold Activity.step at hspaced ⊢
  split at hspaced
  next => exact hs
  next task rest _ =>
    rw [← List.append_assoc] at hspaced ⊢
    exact hs.append hspaced (a.realm.oneEnded_perform task)

theorem Realm.Valid.spaced_apply (h : r.Valid past []) (act : Realm.Act)
    (sparse : Event.Sparse (past ++ (r.apply act).2)) (hs : Event.AlwaysSpaced past) :
    Event.AlwaysSpaced (past ++ (r.apply act).2) := by
  have hvalid := h.begin act
  have hbegin := hs.append hvalid.spaced (.inr (r.drainEnded_not_mem_begin act))
  exact (hvalid.steps_induct (p := fun a => Event.AlwaysSpaced (past ++ a.journal)) hbegin
    (fun _ hb few => hb.spaced_step few) sparse).2

/-- No operation lets the current collector move onto the oldest one. -/
theorem Realm.Valid.spaced_run (h : r.Valid past []) (acts : List Realm.Act)
    (sparse : Event.Sparse (past ++ (r.run acts).2)) (hs : Event.AlwaysSpaced past) :
    Event.AlwaysSpaced (past ++ (r.run acts).2) :=
  (h.run_induct (p := fun _ journal => Event.AlwaysSpaced journal) hs
    (fun _ _ act hr sparse => hr.spaced_apply act sparse) acts sparse).2

theorem Event.alwaysSpaced_nil : Event.AlwaysSpaced [] := by
  intro past hpast
  rw [List.prefix_nil.mp hpast]
  exact ⟨Nat.le_refl _, by decide⟩

end EpochTable
