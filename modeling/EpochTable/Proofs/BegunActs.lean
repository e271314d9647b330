import EpochTable.Proofs.ActsSound

namespace EpochTable

variable {r : Realm} {act : Realm.Act}

/-- The member, if there still is one, has handed its batch over. -/
def Member.Emptied (member : Option Member) : Prop := ∀ m, member = some m → m.batch = .empty

theorem Member.emptied_none : Member.Emptied none := nofun

theorem Member.emptied_some {m : Member} (h : m.batch = .empty) : Member.Emptied (some m) := by
  intro u hu
  cases Option.some.inj hu
  exact h

inductive Realm.Begun (r : Realm) (act : Realm.Act) : Activity → Prop
  | still : r.Begun act (.still r)
  | registered : r.Begun act (.still r.register)
  /-- A request to advance is never taken back. -/
  | adjusted (i : Nat) (m u : Member) (member : r.member? i = some m) (batch : u.batch = m.batch)
    (promote : m.promote = true → u.promote = true) :
    r.Begun act (.still (r.setMember i (some u)))
  | joined (i : Nat) (m : Member) (member : r.member? i = some m) :
    r.Begun act (r.join i { m with depth := 1 } .acquired)
  | departed (i : Nat) (m : Member) (seat : Seat) (w : Option Member) (later : List Task)
    (member : r.member? i = some m) (emptied : Member.Emptied w)
    (returns : later = [] ∨ later = [.rejoin i]) :
    r.Begun act (((r.setMember i w).depart i m seat).followedBy later)
  | dropped (i : Nat) (m : Member) (acts : act.member? = some i) (member : r.member? i = some m)
    (uncounted : m.standing.seat? = none) :
    r.Begun act ⟨r.setMember i none, m.batch.nodes.map .run, []⟩
  | deferred (i : Nat) (m u : Member) (jobs : List Job) (acts : act.member? = some i)
    (pinned : r.pinned? i = some m) (batch : u.batch = m.batch)
    (promote : m.promote = true → u.promote = true) : r.Begun act (r.deferAll i u jobs)

theorem Realm.begun_departed {i : Nat} {m : Member} (member : r.member? i = some m)
    {w : Option Member} (emptied : Member.Emptied w) (seat : Seat) :
    r.Begun act ((r.setMember i w).depart i m seat) := by
  rw [← Activity.followedBy_nil (Realm.depart _ _ _ _)]
  exact .departed i m seat w [] member emptied (.inl rfl)

theorem Realm.begun_begin (r : Realm) (act : Realm.Act) : r.Begun act (r.begin act) := by
  have hwith : ∀ (member : Option Member) (f : Member → Activity),
      (∀ m, member = some m → r.Begun act (f m)) → r.Begun act (r.withMember member f) :=
    fun _ _ => Realm.of_withMember .still
  cases act with
  | register => exact .registered
  | move i move =>
    cases move with
    | acquire =>
      refine hwith _ _ fun m hm => ?_
      unfold Realm.acquire
      split
      · exact .joined i m hm
      · exact .adjusted i m _ hm rfl id
    | release =>
      refine hwith _ _ fun m hm => ?_
      have hm := Realm.member?_of_pinned? hm
      unfold Realm.release
      split
      · exact .adjusted i m _ hm rfl id
      · split
        · exact .adjusted i m _ hm rfl id
        · exact Realm.begun_departed hm (Member.emptied_some rfl) _
    | quiesce =>
      refine hwith _ _ fun m hm => ?_
      have hm := Realm.member?_of_pinned? hm
      unfold Realm.quiesce
      split
      · exact .still
      · split
        · exact .still
        · split
          next => exact .adjusted i m _ hm rfl id
          next seat _ _ => exact .departed i m seat _ _ hm (Member.emptied_some rfl) (.inr rfl)
    | requestAdvance =>
      exact hwith _ _ fun m hm => .adjusted i m _ (Realm.member?_of_pinned? hm) rfl fun _ => rfl
    | resign =>
      refine hwith _ _ fun m hm => ?_
      unfold Realm.resign
      split
      next hnone => exact .dropped i m rfl hm hnone
      next => exact Realm.begun_departed hm Member.emptied_none _
  | defer i job => exact hwith _ _ fun m hm => .deferred i m m [job] rfl hm rfl id
  | retire i jobs =>
    refine hwith _ _ fun m hm => ?_
    unfold Realm.retire
    split
    · exact .still
    · exact .deferred i m m.requestAdvance jobs rfl hm rfl fun _ => rfl

/-- What a running job does first, an act of one of its members at most. -/
theorem Realm.of_proceed {p : Activity → Prop} (still : p (.still r))
    (begin : ∀ act, p (r.begin act))
    (followed : ∀ a own next, p a → p (a.followedBy [.proceed own next]))
    (own : List Nat) (script : Script) : p (r.proceed own script) := by
  have hown : ∀ (k : Nat) (act : Nat → Realm.Act), p (r.beginOwn own k act) :=
    fun k act => Realm.of_beginOwn still fun _ _ => begin _
  cases script with
  | done => exact still
  | register next => exact followed _ _ _ (begin .register)
  | move k move next => exact followed _ _ _ (hown k _)
  | defer k job next => exact followed _ _ _ (hown k _)

/-- The events that are not those of a task. -/
def Event.IsOpening : Event → Prop
  | .joined _ _ => True
  | .deferred _ _ => True
  | .flushed _ _ => True
  | _ => False

theorem Realm.isOpening_begin (r : Realm) (act : Realm.Act) :
    ∀ event ∈ (r.begin act).journal, event.IsOpening := by
  have hbegun := r.begun_begin act
  generalize r.begin act = a at hbegun ⊢
  cases hbegun with
  | joined i m _ => exact List.forall_mem_singleton.mpr trivial
  | departed i m seat w later _ _ _ =>
    simp only [Realm.depart, Activity.followedBy]
    rcases (r.setMember i w).handOver_cases m.batch m.promote with ⟨_, he⟩ | ⟨_, _, he⟩ <;> rw [he]
    · exact List.forall_mem_nil _
    · exact List.forall_mem_singleton.mpr trivial
  | deferred i m u jobs _ _ _ _ =>
    intro event hevent
    obtain ⟨node, _, rfl⟩ := List.mem_map.mp hevent
    trivial
  | _ => exact List.forall_mem_nil _

theorem Realm.isOpening_proceed (r : Realm) (own : List Nat) (script : Script) :
    ∀ event ∈ (r.proceed own script).journal, event.IsOpening :=
  Realm.of_proceed (p := fun a => ∀ event ∈ a.journal, event.IsOpening) nofun r.isOpening_begin
    (fun _ _ _ => id) own script

end EpochTable
