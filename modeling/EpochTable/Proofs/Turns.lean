import EpochTable.Proofs.Chronicle

namespace EpochTable

variable {seat : Seat} {nodes : List Node} {past new journal : List Event} {e : Event}

/-- How far a member has come that hands a batch over and leaves. -/
inductive Stage where
  | calm
  /-- A reference to the collector has just been given up, and it may have been the last one. -/
  | released (seat : Seat)
  | handed (seat : Seat) (nodes : List Node)
  | answered (nodes : List Node)

def Stage.batch : Stage → List Node
  | .calm | .released _ => []
  | .handed _ nodes | .answered nodes => nodes

/-- Nobody is about to leave. -/
def Stage.Rests : Stage → Prop
  | .calm | .released _ => True
  | .handed _ _ | .answered _ => False

def Stage.after (t : Stage) : Event → Stage
  | .flushed seat nodes => .handed seat nodes
  | .advanced _ | .overtaken _ | .refused _ => .answered t.batch
  | .left _ seat => .released seat
  | .drainEnded seat _ => .released seat.next
  | .joined _ _ | .deferred _ _ | .drainBegan _ | .ran _ => .calm

def Event.stage (journal : List Event) : Stage := journal.foldl Stage.after .calm

def Event.drainingAfter (draining : Option Seat) : Event → Option Seat
  | .drainBegan seat => some seat
  | .drainEnded _ _ => none
  | _ => draining

/-- The collector that is being drained. -/
def Event.draining? (journal : List Event) : Option Seat := journal.foldl drainingAfter none

def Event.begun? : Event → Option Seat
  | .drainBegan seat => some seat
  | _ => none

/-- What came before the event, and for a batch also what comes after it. -/
def Event.InTurn (before after : List Event) : Event → Prop
  | .flushed seat nodes => draining? before ≠ some seat ∧
      ∃ i s answer later, after = answer ++ .left i s :: later ∧
        (answer = [] ∨ answer = [.advanced seat] ∨ answer = [.refused seat]) ∧
        ∀ node ∈ nodes, .deferred i node ∈ before
  | .advanced seat | .refused seat => ∃ nodes, before.getLast? = some (.flushed seat nodes)
  | .overtaken _ => False
  | .drainBegan seat => draining? before = none ∧ seat = Seat.of (Chronicle.of before).ended ∧
      ((∃ i, before.getLast? = some (.left i seat)) ∨
        ∃ s executed, before.getLast? = some (.drainEnded s executed) ∧ seat = s.next)
  | .ran _ => draining? before = some (Seat.of (Chronicle.of before).ended)
  | .drainEnded seat _ => draining? before = some seat
  | .joined _ _ | .left _ _ | .deferred _ _ => True

/-- Whether the event may come next. -/
def Event.Follows (past : List Event) : Event → Prop
  | .joined _ _ | .deferred _ _ => (stage past).Rests
  | .left i _ => ∀ node ∈ (stage past).batch, .deferred i node ∈ past
  | .flushed seat _ => (stage past).Rests ∧ draining? past ≠ some seat
  | .advanced seat | .refused seat => ∃ nodes, stage past = .handed seat nodes
  | .overtaken _ => False
  | .drainBegan seat => stage past = .released seat ∧ draining? past = none ∧
      seat = Seat.of (Chronicle.of past).ended
  | .ran _ => (stage past).Rests ∧ draining? past = some (Seat.of (Chronicle.of past).ended)
  | .drainEnded seat _ => (stage past).Rests ∧ draining? past = some seat ∧
      seat = Seat.of (Chronicle.of past).ended

def Event.AllFollow (past : List Event) : List Event → Prop
  | [] => True
  | e :: later => e.Follows past ∧ AllFollow (past ++ [e]) later

@[simp] theorem Event.stage_concat (past : List Event) (e : Event) :
    stage (past ++ [e]) = (stage past).after e := by
  simp [stage]

@[simp] theorem Event.draining?_concat (past : List Event) (e : Event) :
    draining? (past ++ [e]) = drainingAfter (draining? past) e := by
  simp [draining?]

theorem Event.allFollow_append {first later : List Event} :
    AllFollow past (first ++ later) ↔ AllFollow past first ∧ AllFollow (past ++ first) later := by
  induction first generalizing past with
  | nil => simp [AllFollow]
  | cons e first ih => simp [AllFollow, ih, and_assoc]

theorem Event.follows_of_eq {before after : List Event} (h : AllFollow [] journal)
    (heq : journal = before ++ e :: after) :
    e.Follows before ∧ AllFollow (before ++ [e]) after := by
  rw [heq] at h
  exact (allFollow_append.mp h).2

theorem Event.getLast?_of_handed (h : stage past = .handed seat nodes) :
    past.getLast? = some (.flushed seat nodes) := by
  induction past using List.reverseRecOn with
  | nil => cases h
  | append_singleton past e =>
    rw [stage_concat] at h
    cases e <;> simp_all [Stage.after]

theorem Event.getLast?_of_released (h : stage past = .released seat) :
    (∃ i, past.getLast? = some (.left i seat)) ∨
      ∃ s executed, past.getLast? = some (.drainEnded s executed) ∧ seat = s.next := by
  induction past using List.reverseRecOn with
  | nil => cases h
  | append_singleton past e =>
    rw [stage_concat] at h
    cases e <;> simp_all [Stage.after]

/-- After the answer the member leaves. -/
theorem Event.Follows.of_answered (h : e.Follows past) (hs : stage past = .answered nodes) :
    ∃ i s, e = .left i s ∧ ∀ node ∈ nodes, .deferred i node ∈ past := by
  cases e with
  | left i s =>
    rw [Follows, hs] at h
    exact ⟨i, s, rfl, h⟩
  | _ => simp [Follows, hs, Stage.Rests] at h

theorem Event.Follows.of_handed (h : e.Follows past) (hs : stage past = .handed seat nodes) :
    (∃ i s, e = .left i s ∧ ∀ node ∈ nodes, .deferred i node ∈ past) ∨
      e = .advanced seat ∨ e = .refused seat := by
  cases e with
  | left i s =>
    rw [Follows, hs] at h
    exact .inl ⟨i, s, rfl, h⟩
  | advanced s =>
    obtain ⟨_, h⟩ := h
    cases hs.symm.trans h
    exact .inr (.inl rfl)
  | refused s =>
    obtain ⟨_, h⟩ := h
    cases hs.symm.trans h
    exact .inr (.inr rfl)
  | _ => simp [Follows, hs, Stage.Rests] at h

theorem Event.exists_left_of_answered {after : List Event} (h : AllFollow past after)
    (hs : stage past = .answered nodes) (hrest : (stage (past ++ after)).Rests) :
    ∃ i s later, after = .left i s :: later ∧ ∀ node ∈ nodes, .deferred i node ∈ past := by
  cases after with
  | nil =>
    rw [List.append_nil, hs] at hrest
    exact hrest.elim
  | cons e later =>
    obtain ⟨i, s, rfl, howned⟩ := h.1.of_answered hs
    exact ⟨i, s, later, rfl, howned⟩

theorem Event.exists_left_of_handed {after : List Event} (h : AllFollow past after)
    (hs : stage past = .handed seat nodes) (hrest : (stage (past ++ after)).Rests) :
    ∃ i s answer later, after = answer ++ .left i s :: later ∧
      (answer = [] ∨ answer = [.advanced seat] ∨ answer = [.refused seat]) ∧
      ∀ node ∈ nodes, .deferred i node ∈ past := by
  cases after with
  | nil =>
    rw [List.append_nil, hs] at hrest
    exact hrest.elim
  | cons e after =>
    rcases h.1.of_handed hs with ⟨i, s, rfl, howned⟩ | hreply
    · exact ⟨i, s, [], after, rfl, .inl rfl, howned⟩
    · have hanswered : stage (past ++ [e]) = .answered nodes := by
        rw [stage_concat, hs]
        rcases hreply with rfl | rfl <;> rfl
      rw [List.append_cons] at hrest
      obtain ⟨i, s, later, rfl, howned⟩ := exists_left_of_answered h.2 hanswered hrest
      refine ⟨i, s, [e], later, rfl, .inr (by simpa using hreply), fun node hnode => ?_⟩
      have hmem := howned node hnode
      rcases hreply with rfl | rfl <;> simpa using hmem

/-- In a whole history everything happens in turn. -/
theorem Event.inTurn_of_follows {before after : List Event} (h : AllFollow [] journal)
    (hrest : (stage journal).Rests) (heq : journal = before ++ e :: after) :
    e.InTurn before after := by
  obtain ⟨he, hlater⟩ := follows_of_eq h heq
  rw [heq, List.append_cons] at hrest
  cases e with
  | flushed seat nodes =>
    obtain ⟨i, s, answer, later, hafter, hanswer, howned⟩ :=
      exists_left_of_handed hlater (stage_concat before _) hrest
    refine ⟨he.2, i, s, answer, later, hafter, hanswer, fun node hnode => ?_⟩
    simpa using howned node hnode
  | advanced seat => exact he.imp fun _ => getLast?_of_handed
  | refused seat => exact he.imp fun _ => getLast?_of_handed
  | overtaken seat => exact he.elim
  | drainBegan seat => exact ⟨he.2.1, he.2.2, getLast?_of_released he.1⟩
  | ran node => exact he.2
  | drainEnded seat executed => exact he.2.1
  | _ => trivial

/-- Every collector up to the oldest one has been drained once, in the order of the ring. -/
theorem Event.begun_of_follows (h : AllFollow [] journal) :
    journal.filterMap begun? = (List.range (Chronicle.of journal).ended).map Seat.of
      ++ (draining? journal).toList ∧
    ∀ seat ∈ draining? journal, seat = Seat.of (Chronicle.of journal).ended := by
  induction journal using List.reverseRecOn with
  | nil => simp [draining?, Chronicle.of, Chronicle.empty]
  | append_singleton past e ih =>
    obtain ⟨hpast, he, _⟩ := allFollow_append.mp h
    obtain ⟨hbegun, hdraining⟩ := ih hpast
    rw [List.nil_append] at he
    rw [List.filterMap_append, hbegun, draining?_concat, Chronicle.of_append]
    cases e with
    | drainBegan seat =>
      obtain ⟨_, hnone, hseat⟩ := he
      rw [hnone]
      simpa [begun?, drainingAfter, Chronicle.record] using hseat
    | drainEnded seat executed =>
      obtain ⟨_, hsome, rfl⟩ := he
      rw [hsome]
      simp [begun?, drainingAfter, Chronicle.record, List.range_succ]
    | _ => simpa [begun?, drainingAfter, Chronicle.record] using hdraining

/-- What needs no turn, since it neither hands over nor drains. -/
def Event.Quiet : Event → Prop
  | .joined _ _ | .deferred _ _ => True
  | _ => False

theorem Event.Quiet.follows (h : e.Quiet) (hrest : (stage past).Rests) : e.Follows past ∧
    (stage (past ++ [e])).Rests ∧ draining? (past ++ [e]) = draining? past := by
  rw [stage_concat, draining?_concat]
  cases e with
  | joined | deferred => exact ⟨hrest, trivial, rfl⟩
  | _ => exact h.elim

theorem Event.allFollow_of_quiet (hrest : (stage past).Rests) (hnew : ∀ e ∈ new, e.Quiet) :
    AllFollow past new ∧ (stage (past ++ new)).Rests ∧ draining? (past ++ new) = draining? past := by
  induction new generalizing past with
  | nil => simpa [AllFollow] using hrest
  | cons e later ih =>
    obtain ⟨he, hlater⟩ := List.forall_mem_cons.mp hnew
    obtain ⟨hfollow, hrest', hdraining⟩ := he.follows hrest
    obtain ⟨hall, hrests, hsame⟩ := ih hrest' hlater
    rw [List.append_cons]
    exact ⟨⟨hfollow, hall⟩, hrests, hsame.trans hdraining⟩

end EpochTable
