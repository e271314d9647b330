import EpochTable.Proofs.HeldEntries

namespace EpochTable

variable {s s' : Store} {w w' : Ideal} {hash : UInt64 → UInt64} {act : Store.Act}

def Ideal.start : Ideal := ⟨∅, []⟩

def Call.lets : Call → CallResult → List (Option UInt64)
  | .hold q, .held (some _) => [some q.key]
  | _, _ => []

/-- An act with its answer, as a dictionary sees it. -/
inductive Ideal.Step (w : Ideal) : Store.Act → Store.Answer → Ideal → Prop where
  | realm (act : Realm.Act) : Step w (.realm act) .nothing w
  | memory (memory : Memory) : Step w (.setMemory memory) .nothing w
  | unpinned (i : Nat) (call : Call) : Step w (.call i call) .invalid w
  | waits (i : Nat) (call : Call) : Step w (.call i call) .waits w
  | answered (i : Nat) (call : Call) (result : CallResult) (d : Dict)
      (h : w.dict.Answers call result d) :
      Step w (.call i call) (.result result) ⟨d, w.held ++ call.lets result⟩
  | updated (i : Nat) (value key : UInt64) (h : w.held? i = some key) :
      Step w (.updateHeld i value) .nothing ⟨w.dict.insert key value, w.held.set i none⟩
  | released (i : Nat) (key : UInt64) (h : w.held? i = some key) :
      Step w (.releaseHeld i) .nothing ⟨w.dict, w.held.set i none⟩
  | updateEnded (i : Nat) (value : UInt64) (h : w.held? i = none) :
      Step w (.updateHeld i value) .invalid w
  | releaseEnded (i : Nat) (h : w.held? i = none) : Step w (.releaseHeld i) .invalid w

inductive Ideal.Run : Ideal → List Store.Act → List Store.Answer → Ideal → Prop where
  | nil (w : Ideal) : Run w [] [] w
  | cons {w w' w'' : Ideal} {act : Store.Act} {answer : Store.Answer} {acts : List Store.Act}
      {answers : List Store.Answer} (step : w.Step act answer w') (run : Run w' acts answers w'') :
      Run w (act :: acts) (answer :: answers) w''

/-- Only keys under which things are stored are looked up. -/
def Store.Act.Honest (hash : UInt64 → UInt64) : Store.Act → Prop
  | .call _ c => c.Honest hash
  | _ => True

/-- A call is refused without a pin, waits for exactly the cells it needs, and fails only where it has
to grow. -/
structure Store.CallsRight (s : Store) (d : Dict) (i : Nat) (call : Call) (answer : Store.Answer) :
    Prop where
  invalid : answer = .invalid ↔ s.realm.pinned? i = none
  waits : answer = .waits ↔
    (s.realm.pinned? i).isSome = true ∧ ∃ j, s.table.Needs d j call ∧ s.Holds j
  fails : ∀ fault, answer = .result (.fault fault) → s.table.MustGrow d call

theorem Store.Simulates.call (h : s.Simulates hash w) (i : Nat) {call : Call}
    (hq : call.Honest hash) :
    (∃ w', w.Step (.call i call) (s.apply (.call i call)).2.1 w' ∧
      (s.apply (.call i call)).1.Simulates hash w') ∧
    s.CallsRight w.dict i call (s.apply (.call i call)).2.1 := by
  have hcalled := h.table.called (h.hash ▸ hq)
  unfold Store.apply
  simp only
  cases hpin : s.realm.pinned? i with
  | none =>
    refine ⟨⟨w, .unpinned i call, h⟩, iff_of_true rfl hpin, ?_, fun _ he => by cases he⟩
    exact iff_of_false (fun he => by cases he) fun hp => by simp [hpin] at hp
  | some seat =>
    simp only [Option.isNone_some, Bool.false_eq_true, if_false]
    generalize s.table.call call = called at hcalled
    cases hcalled with
    | waits _ j needs locked =>
      refine ⟨⟨w, .waits i call, h⟩, ?_, ?_, fun _ he => by cases he⟩
      · exact iff_of_false (fun he => by cases he) (by simp [hpin])
      · exact iff_of_true rfl ⟨by simp [hpin], j, needs, h.locked j locked⟩
    | done _ fin d' free answers lets represents respects refuses =>
      have hlets : call.lets fin.result = [] := by
        cases call <;> cases hres : fin.result <;> simp_all [Call.lets, CallResult.hold?]
      refine ⟨⟨_, .answered i call fin.result d' answers, ?_⟩, ?_, ?_, ?_⟩
      · rw [hlets]
        simpa [lets] using h.respects _ represents respects
      · exact iff_of_false (fun he => by cases he) (by simp [hpin])
      · refine iff_of_false (fun he => by cases he) ?_
        rintro ⟨_, j, needs, hheld⟩
        rw [← h.locked_iff, free j needs] at hheld
        cases hheld
      · intro fault he
        exact refuses fault (Store.Answer.result.inj he)
    | held q hold t' inside free cell table represents value guards =>
      refine ⟨⟨_, .answered i _ _ w.dict (.held q hold value), ?_⟩, ?_, ?_, fun _ he => by cases he⟩
      · exact h.take _ free table represents guards
      · exact iff_of_false (fun he => by cases he) (by simp [hpin])
      · refine iff_of_false (fun he => by cases he) ?_
        rintro ⟨_, j, rfl, hheld⟩
        rw [← h.locked_iff, ← cell, free] at hheld
        cases hheld

theorem Store.Simulates.apply (h : s.Simulates hash w) (ha : act.Honest hash) :
    ∃ w', w.Step act (s.apply act).2.1 w' ∧ (s.apply act).1.Simulates hash w' := by
  cases act with
  | realm act => exact ⟨w, .realm act, ⟨h.hash, h.table, h.size, h.guards, h.apart, h.locked⟩⟩
  | call i call => exact (h.call i ha).1
  | updateHeld i value =>
    simp only [Store.apply]
    cases hi : s.hold? i with
    | none => exact ⟨w, .updateEnded i value (h.ended hi), h⟩
    | some hold =>
      obtain ⟨key, hkey, hg⟩ := h.guarded hi
      obtain ⟨c, hc, hdef, ht⟩ := h.table.updateHeld hg value
      exact ⟨_, .updated i value key hkey, h.finish hi hc hdef ht⟩
  | releaseHeld i =>
    simp only [Store.apply]
    cases hi : s.hold? i with
    | none => exact ⟨w, .releaseEnded i (h.ended hi), h⟩
    | some hold =>
      obtain ⟨key, hkey, hg⟩ := h.guarded hi
      obtain ⟨c, hc, hdef, ht⟩ := h.table.releaseHeld hg
      exact ⟨_, .released i key hkey, h.finish hi hc hdef ht⟩
  | setMemory memory =>
    refine ⟨w, .memory memory, h.respects s.realm ?_ ⟨rfl, fun _ _ => ⟨rfl, rfl⟩, fun _ hi => hi⟩⟩
    exact ⟨h.table.holds, h.table.nonempty, h.table.limit, h.table.idle⟩

theorem Store.Simulates.run {acts : List Store.Act} (h : s.Simulates hash w)
    (ha : ∀ act ∈ acts, act.Honest hash) :
    ∃ w', w.Run acts (s.run acts).2.1 w' ∧ (s.run acts).1.Simulates hash w' := by
  induction acts generalizing s w with
  | nil => exact ⟨w, .nil w, h⟩
  | cons act acts ih =>
    obtain ⟨hact, hacts⟩ := List.forall_mem_cons.mp ha
    obtain ⟨w₁, hstep, h₁⟩ := h.apply hact
    obtain ⟨w₂, hrun, h₂⟩ := ih h₁ hacts
    exact ⟨w₂, .cons hstep hrun, h₂⟩

theorem Settings.firstCells_pos (settings : Settings) : 0 < settings.firstCells := by
  rw [Settings.firstCells, Nat.lt_min]
  refine ⟨?_, by decide⟩
  unfold powerAbove
  split
  · decide
  · rw [Nat.shiftLeft_eq]
    exact Nat.mul_pos Nat.one_pos (Nat.two_pow_pos _)

theorem Store.simulates_make {settings : Settings} {memory : Memory}
    (h : Store.make settings hash memory = .ok s) : s.Simulates hash Ideal.start := by
  unfold Store.make Table.make at h
  simp only at h
  split at h
  next => cases h
  next =>
    cases hblock : Block.allocate .words memory settings.firstCells
      (settings.shelvesFor settings.firstCells) with
    | error fault => simp [hblock, Except.map] at h
    | ok block =>
      simp only [hblock, Except.map, Except.ok.injEq] at h
      subst h
      cases Block.eq_empty_of_allocate hblock
      have hfilling := Block.filling_empty settings.firstCells
        (settings.shelvesFor settings.firstCells) hash
      have hlimit : settings.firstCells < cellLimit :=
        Nat.lt_of_le_of_lt (Nat.min_le_right _ _) (by decide)
      refine ⟨rfl, ⟨hfilling.holds, ?_, ?_, rfl⟩, rfl, fun _ => .none, ?_, fun i hi => ?_⟩
      · exact Nat.lt_of_lt_of_eq settings.firstCells_pos hfilling.size.symm
      · exact hfilling.size.trans_lt hlimit
      · intro i j hold hold' hi
        cases hi
      · rw [hfilling.unlocked i] at hi
        cases hi

/-- At every point of a run the next answer is one that a dictionary with the answers so far would
give, and a call waits only if it needs a cell that a held entry keeps. -/
theorem Store.refines_dictionary {settings : Settings} {memory : Memory} {s₀ : Store}
    (hmake : Store.make settings hash memory = .ok s₀) (before : List Store.Act) (act : Store.Act)
    (honest : ∀ a ∈ before ++ [act], Store.Act.Honest hash a) :
    ∃ w w', Ideal.start.Run before (s₀.run before).2.1 w ∧
      w.Step act ((s₀.run before).1.apply act).2.1 w' ∧
      ∀ i call, act = .call i call →
        (s₀.run before).1.CallsRight w.dict i call ((s₀.run before).1.apply act).2.1 := by
  obtain ⟨w, hrun, h⟩ := (Store.simulates_make hmake).run fun a ha =>
    honest a (List.mem_append_left _ ha)
  have hact := honest act (List.mem_append_right _ List.mem_cons_self)
  obtain ⟨w', hstep, _⟩ := h.apply hact
  refine ⟨w, w', hrun, hstep, ?_⟩
  rintro i call rfl
  exact (h.call i hact).2

/-- The fourth entry makes a table of one cell grow; an entry held before that is written later. -/
theorem Store.refines_dictionary_growing :
    let before : List Store.Act := [.realm .register, .realm (.move 0 .acquire),
      .call 0 (.insert ⟨1, 10⟩), .call 0 (.insert ⟨2, 20⟩), .call 0 (.hold (.of 2)),
      .call 0 (.remove (.of 1)), .updateHeld 0 25, .call 0 (.insert ⟨3, 30⟩),
      .call 0 (.insert ⟨4, 40⟩), .call 0 .cellCount]
    let act : Store.Act := .call 0 (.find (.of 2))
    ∃ s₀, Store.make ⟨1, 128, 64, .standard, 128⟩ id (fun _ => true) = .ok s₀ ∧
      (∀ a ∈ before ++ [act], Store.Act.Honest id a) ∧
      (s₀.run before).2.1.drop 5 = [.waits, .nothing, .result (.flag true), .result (.flag true),
        .result (.number 4)] ∧
      ((s₀.run before).1.apply act).2.1 = .result (.value (some 25)) ∧
      ∃ w w', Ideal.start.Run before (s₀.run before).2.1 w ∧
        w.Step act ((s₀.run before).1.apply act).2.1 w' := by
  intro before act
  have honest : ∀ a ∈ before ++ [act], Store.Act.Honest id a := by
    simp [before, act, Store.Act.Honest, Call.Honest, Call.query?, Query.Honest, Query.of]
  refine ⟨_, rfl, honest, by decide +kernel, by decide +kernel, ?_⟩
  obtain ⟨w, w', hrun, hstep, _⟩ := @Store.refines_dictionary id ⟨1, 128, 64, .standard, 128⟩
    (fun _ => true) _ rfl before act honest
  exact ⟨w, w', hrun, hstep⟩

end EpochTable
