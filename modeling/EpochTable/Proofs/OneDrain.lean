import EpochTable.Proofs.BegunActs
import EpochTable.Proofs.NodesKept
import EpochTable.Proofs.WordFlags

namespace EpochTable

variable {r r' : Realm} {t g n i : Nat} {s seat : Seat} {m u : Member} {act : Realm.Act} {task : Task}
  {rest agenda : List Task}

/-- A member that is not counted has no pins and nothing to hand over. -/
structure Member.Housed (m : Member) : Prop where
  uncounted : m.standing.seat? = none → m.depth = 0 ∧ m.batch.nodes = []
  empty : m.batch.nodes = [] → m.batch = .empty

def Realm.Housed (r : Realm) : Prop := ∀ i m, r.member? i = some m → m.Housed

def Realm.Avoids (r : Realm) (seat : Seat) (i : Nat) : Prop :=
  ∀ m, r.member? i = some m → m.standing.seat? ≠ some seat

/-- What the member `i` of `r` may have become: where it was counted it still is, or it is counted
nowhere, or in the collector that was current. -/
structure Member.Tended (r : Realm) (i : Nat) (u : Member) : Prop where
  housed : u.Housed
  avoids : ∀ seat, seat ≠ r.ring.current → r.Avoids seat i → u.standing.seat? ≠ some seat

def Realm.Tends (r r' : Realm) : Prop := ∀ i u, r'.member? i = some u → u.Tended r i

/-- Where an act may have planned the task. -/
def Task.ArisesFrom (r : Realm) (act : Realm.Act) : Task → Prop
  | .advance _ => True
  | .rejoin _ => True
  | .leave i seat => act.member? = some i ∧ ∃ m, r.member? i = some m ∧ m.standing.seat? = some seat
  | _ => False

def Task.IsPlain : Task → Prop
  | .advance _ => True
  | .rejoin _ => True
  | .leave _ _ => True
  | _ => False

/-- The task does not concern the collector at `seat`, nor do the members it knows. -/
def Task.Away (r : Realm) (seat : Seat) : Task → Prop
  | .leave _ s => s ≠ seat
  | .proceed own _ => ∀ i ∈ own, r.Avoids seat i
  | .drain _ => False
  | .finish _ _ => False
  | _ => True

/-- What an act may do at once, and plan. -/
structure Activity.Begins (a : Activity) (r : Realm) (act : Realm.Act) : Prop where
  ring : ∀ {t g}, r.ring.Flagged t g → a.realm.ring.Flagged t g
  tends : r.Tends a.realm
  tasks : ∀ task ∈ a.agenda, task.ArisesFrom r act

/-- One collector is drained at a time: the oldest one, which is not current. What happens meanwhile
does not concern it. -/
inductive Realm.Course (r : Realm) (t g : Nat) : List Task → Prop
  | calm {post : List Task} (plain : ∀ task ∈ post, task.IsPlain) : r.Course t g post
  | due {post : List Task} (old : t < g) (plain : ∀ task ∈ post, task.IsPlain) :
    r.Course t g (.drain (Seat.of t) :: post)
  | draining {inner post : List Task} (n : Nat) (old : t < g)
    (away : ∀ task ∈ inner, task.Away r (Seat.of t)) (plain : ∀ task ∈ post, task.IsPlain) :
    r.Course t g (inner ++ .finish (Seat.of t) n :: post)

structure Realm.Steady (r : Realm) (t g : Nat) (agenda : List Task) : Prop where
  flagged : r.ring.Flagged t g
  housed : r.Housed
  course : r.Course t g agenda

def Activity.Steady (a : Activity) : Prop := ∃ t g, a.realm.Steady t g a.agenda

theorem Realm.Housed.tends (h : r.Housed) : r.Tends r :=
  fun i u hu => ⟨h i u hu, fun _ _ ha => ha u hu⟩

theorem Realm.Tends.housed (h : r.Tends r') : r'.Housed := fun i u hu => (h i u hu).housed

theorem Realm.Tends.avoids (h : r.Tends r') (hs : seat ≠ r.ring.current) (ha : r.Avoids seat i) :
    r'.Avoids seat i := fun u hu => (h i u hu).avoids seat hs ha

theorem Realm.Housed.tends_setMember (h : r.Housed) {w : Option Member}
    (hw : ∀ u, w = some u → u.Tended r i) : r.Tends (r.setMember i w) :=
  Realm.forall_setMember_at (p := fun j w => ∀ u, w = some u → u.Tended r j) h.tends hw

theorem Realm.Housed.tends_register (h : r.Housed) : r.Tends r.register := by
  refine Realm.forall_register_at (p := fun j w => ∀ u, w = some u → u.Tended r j) h.tends ?_
  rintro j u ⟨⟩
  exact ⟨⟨fun _ => ⟨rfl, rfl⟩, fun _ => rfl⟩, fun _ _ _ => nofun⟩

theorem Member.Housed.tended_same (h : u.Housed) (hm : r.member? i = some m)
    (hs : u.standing.seat? = m.standing.seat?) : u.Tended r i :=
  ⟨h, fun _ _ ha => hs ▸ ha m hm⟩

theorem Member.Housed.tended_out (h : u.Housed) (hs : u.standing.seat? = none) : u.Tended r i :=
  ⟨h, fun _ _ _ => by simp [hs]⟩

theorem Member.Housed.tended_in (h : u.Housed) (hs : u.standing.seat? = some r.ring.current) :
    u.Tended r i :=
  ⟨h, fun _ hne _ he => hne (Option.some.inj (he.symm.trans hs))⟩

theorem Member.Housed.emptied (h : m.Housed) : m.emptied.Housed :=
  ⟨fun hs => ⟨(h.uncounted hs).1, rfl⟩, fun _ => rfl⟩

theorem Member.empty_deferAll (nodes : List Node) (h : m.batch.nodes = [] → m.batch = .empty) :
    (nodes.foldl Member.defer m).batch.nodes = [] → (nodes.foldl Member.defer m).batch = .empty := by
  induction nodes generalizing m with
  | nil => exact h
  | cons node rest ih => exact ih nofun

theorem Activity.Begins.still (h : r.Housed) (act : Realm.Act) : (Activity.still r).Begins r act :=
  ⟨id, h.tends, nofun⟩

theorem Activity.Begins.adjusted (h : r.Housed) (act : Realm.Act) (hu : u.Tended r i) :
    (Activity.still (r.setMember i (some u))).Begins r act := by
  refine ⟨id, h.tends_setMember ?_, nofun⟩
  rintro _ ⟨⟩
  exact hu

theorem Activity.Begins.joined (h : r.Housed) (act : Realm.Act) (hm : r.member? i = some m)
    {standing : Seat → Standing} (hs : ∀ seat, (standing seat).seat? = some seat)
    (hu : u.batch = m.batch) : (r.join i u standing).Begins r act := by
  have hhoused : Member.Housed { u with standing := standing r.ring.current } := by
    refine ⟨fun hnone => ?_, fun hnodes => ?_⟩
    · exact absurd ((hs _).symm.trans hnone) nofun
    · exact hu ▸ (h i m hm).empty (hu ▸ hnodes)
  refine ⟨fun hring => hring.enter, h.tends_setMember ?_, nofun⟩
  rintro _ ⟨⟩
  exact hhoused.tended_in (hs _)

theorem Activity.Begins.departed (h : r.Housed) (hact : act.member? = some i)
    (hm : r.member? i = some m) (hs : m.standing.seat? = some seat) {w : Option Member}
    (hw : ∀ u, w = some u → u.Tended r i) {later : List Task}
    (hlater : later = [] ∨ later = [.rejoin i]) :
    (((r.setMember i w).depart i m seat).followedBy later).Begins r act := by
  have htends := h.tends_setMember hw
  have htasks : ∀ task ∈ Task.leave i seat :: later, task.ArisesFrom r act := by
    intro task htask
    rcases List.mem_cons.mp htask with rfl | htask
    · exact ⟨hact, m, hm, hs⟩
    · rcases hlater with rfl | rfl
      · cases htask
      · rw [List.mem_singleton.mp htask]
        trivial
  simp only [Realm.depart]
  rcases (r.setMember i w).handOver_cases m.batch m.promote with ⟨_, he⟩ | ⟨tasks, ht, he⟩
  · rw [he]
    exact ⟨id, htends, htasks⟩
  · rw [he]
    refine ⟨fun hring => hring.flush _, htends, ?_⟩
    rcases ht with rfl | rfl
    · exact htasks
    · exact List.forall_mem_cons.mpr ⟨trivial, htasks⟩

theorem Realm.Housed.begins_acquire (h : r.Housed) (hm : r.member? i = some m) :
    (r.acquire i m).Begins r act := by
  have hhoused := h i m hm
  unfold Realm.acquire
  split
  next => exact .joined h act hm (u := { m with depth := 1 }) (fun _ => rfl) rfl
  next hd =>
    have hu : Member.Housed { m with depth := m.depth + 1 } :=
      ⟨fun hs => absurd (hhoused.uncounted hs).1 hd, hhoused.empty⟩
    exact .adjusted h act (hu.tended_same hm rfl)

/-- A pin keeps its member counted. -/
theorem Realm.Housed.seat_ne_none (h : r.Housed) (hp : r.pinned? i = some m) :
    m.standing.seat? ≠ none := fun hs =>
  Realm.depth_of_pinned? hp ((h i m (Realm.member?_of_pinned? hp)).uncounted hs).1

theorem Realm.Housed.begins_release (h : r.Housed) (hact : act.member? = some i)
    (hp : r.pinned? i = some m) : (r.release i m).Begins r act := by
  have hm := Realm.member?_of_pinned? hp
  have hcounted := h.seat_ne_none hp
  unfold Realm.release
  split
  next =>
    have hu : Member.Housed { m with depth := m.depth - 1 } :=
      ⟨fun hs => absurd hs hcounted, (h i m hm).empty⟩
    exact .adjusted h act (hu.tended_same hm rfl)
  next =>
    split
    next hs => exact absurd hs hcounted
    next seat hs =>
      rw [← Activity.followedBy_nil (Realm.depart _ _ _ _)]
      refine .departed h hact hm hs ?_ (.inl rfl)
      rintro _ ⟨⟩
      exact Member.Housed.tended_out ⟨fun _ => ⟨rfl, rfl⟩, fun _ => rfl⟩ rfl

theorem Realm.Housed.begins_quiesce (h : r.Housed) (hact : act.member? = some i)
    (hp : r.pinned? i = some m) : (r.quiesce i m).Begins r act := by
  have hm := Realm.member?_of_pinned? hp
  have hhoused := h i m hm
  unfold Realm.quiesce
  split
  next => exact .still h act
  next =>
    split
    next => exact .still h act
    next seat hs =>
      split
      next =>
        have hu : Member.Housed { m with standing := .quiescent seat } :=
          ⟨fun hnone => absurd hnone (Option.some_ne_none seat), hhoused.empty⟩
        exact .adjusted h act (hu.tended_same hm hs.symm)
      next =>
        refine .departed h hact hm hs ?_ (.inr rfl)
        rintro _ ⟨⟩
        exact hhoused.emptied.tended_same hm rfl

theorem Realm.Housed.begins_requestAdvance (h : r.Housed) (hp : r.pinned? i = some m) :
    (Activity.still (r.setMember i (some m.requestAdvance))).Begins r act := by
  have hm := Realm.member?_of_pinned? hp
  have hu : m.requestAdvance.Housed := ⟨(h i m hm).uncounted, (h i m hm).empty⟩
  exact .adjusted h act (hu.tended_same hm rfl)

theorem Realm.Housed.begins_resign (h : r.Housed) (hact : act.member? = some i)
    (hm : r.member? i = some m) : (r.resign i m).Begins r act := by
  unfold Realm.resign
  split
  next hs =>
    refine ⟨id, h.tends_setMember nofun, ?_⟩
    rw [((h i m hm).uncounted hs).2]
    exact nofun
  next seat hs =>
    rw [← Activity.followedBy_nil (Realm.depart _ _ _ _)]
    refine .departed h hact hm hs ?_ (.inl rfl)
    exact nofun

/-- Nodes are taken over by somebody who has a pin and is not changed otherwise. -/
theorem Realm.Housed.begins_deferAll (h : r.Housed) (hp : r.pinned? i = some m)
    (hstanding : u.standing = m.standing) (hbatch : u.batch = m.batch) (jobs : List Job) :
    (r.deferAll i u jobs).Begins r act := by
  have hm := Realm.member?_of_pinned? hp
  have hseat : ((Node.number r.issued jobs).foldl Member.defer u).standing.seat?
      = m.standing.seat? := by rw [Member.seat_deferAll, hstanding]
  have hhoused : ((Node.number r.issued jobs).foldl Member.defer u).Housed :=
    ⟨fun hnone => absurd (hseat ▸ hnone) (h.seat_ne_none hp),
      Member.empty_deferAll _ (hbatch ▸ (h i m hm).empty)⟩
  refine ⟨id, h.tends_setMember ?_, nofun⟩
  rintro _ ⟨⟩
  exact hhoused.tended_same hm hseat

theorem Realm.Housed.begins_retire (h : r.Housed) (hp : r.pinned? i = some m) (jobs : List Job) :
    (r.retire i m jobs).Begins r act := by
  unfold Realm.retire
  split
  next => exact .still h act
  next => exact h.begins_deferAll hp (u := m.requestAdvance) rfl rfl jobs

theorem Realm.Housed.begins_register (h : r.Housed) :
    (Activity.still r.register).Begins r act := ⟨id, h.tends_register, nofun⟩

/-- Every act begins so. -/
theorem Realm.Housed.begin (h : r.Housed) (act : Realm.Act) : (r.begin act).Begins r act := by
  have hwith : ∀ (member : Option Member) (f : Member → Activity),
      (∀ m, member = some m → (f m).Begins r act) → (r.withMember member f).Begins r act :=
    fun _ _ => Realm.of_withMember (p := fun a => a.Begins r act) (.still h act)
  cases act with
  | register => exact h.begins_register
  | move i move =>
    cases move with
    | acquire => exact hwith _ _ fun m hm => h.begins_acquire hm
    | release => exact hwith _ _ fun m hp => h.begins_release rfl hp
    | quiesce => exact hwith _ _ fun m hp => h.begins_quiesce rfl hp
    | requestAdvance => exact hwith _ _ fun m hp => h.begins_requestAdvance hp
    | resign => exact hwith _ _ fun m hm => h.begins_resign rfl hm
  | defer i job => exact hwith _ _ fun m hp => h.begins_deferAll hp rfl rfl [job]
  | retire i jobs => exact hwith _ _ fun m hp => h.begins_retire hp jobs

theorem Task.ArisesFrom.isPlain (h : task.ArisesFrom r act) : task.IsPlain := by
  cases task <;> trivial

theorem Task.ArisesFrom.away (h : task.ArisesFrom r act)
    (hact : ∀ i, act.member? = some i → r.Avoids seat i) (r' : Realm) : task.Away r' seat := by
  cases task with
  | leave i s =>
    obtain ⟨hi, m, hm, hs⟩ := h
    exact fun he => hact i hi m hm (he ▸ hs)
  | _ => trivial

theorem Task.Away.mono (h : task.Away r seat) (htends : r.Tends r')
    (hseat : seat ≠ r.ring.current) : task.Away r' seat := by
  cases task with
  | proceed own script => exact fun i hi => htends.avoids hseat (h i hi)
  | _ => exact h

/-- What comes next, and what is left then. -/
theorem Realm.Course.next (h : r.Course t g (task :: rest)) :
    (task.IsPlain ∧ ∀ task ∈ rest, task.IsPlain) ∨
    (t < g ∧ task = .drain (Seat.of t) ∧ ∀ task ∈ rest, task.IsPlain) ∨
    (t < g ∧ (∃ n, task = .finish (Seat.of t) n) ∧ ∀ task ∈ rest, task.IsPlain) ∨
    (t < g ∧ task.Away r (Seat.of t) ∧ ∃ inner n post, rest = inner ++ .finish (Seat.of t) n :: post ∧
      (∀ task ∈ inner, task.Away r (Seat.of t)) ∧ ∀ task ∈ post, task.IsPlain) := by
  generalize hagenda : task :: rest = agenda at h
  cases h with
  | calm plain =>
    subst hagenda
    exact .inl (List.forall_mem_cons.mp plain)
  | due old plain =>
    obtain ⟨rfl, rfl⟩ := List.cons.inj hagenda
    exact .inr (.inl ⟨old, rfl, plain⟩)
  | @draining inner post n old away plain =>
    cases inner with
    | nil =>
      obtain ⟨rfl, rfl⟩ := List.cons.inj hagenda
      exact .inr (.inr (.inl ⟨old, ⟨n, rfl⟩, plain⟩))
    | cons first inner =>
      obtain ⟨rfl, rfl⟩ := List.cons.inj hagenda
      have ⟨hfirst, hinner⟩ := List.forall_mem_cons.mp away
      exact .inr (.inr (.inr ⟨old, hfirst, inner, n, post, rfl, hinner, plain⟩))

/-- A running job may go on with any script. -/
theorem Realm.Course.resume {own : List Nat} {script next : Script}
    (h : r.Course t g (.proceed own script :: rest)) : r.Course t g (.proceed own next :: rest) := by
  rcases h.next with ⟨hplain, _⟩ | ⟨_, hdrain, _⟩ | ⟨_, ⟨_, hfinish⟩, _⟩ |
    ⟨old, haway, inner, n, post, rfl, hinner, hpost⟩
  · cases hplain
  · cases hdrain
  · cases hfinish
  · rw [← List.cons_append]
    refine .draining n old (List.forall_mem_cons.mpr ⟨?_, hinner⟩) hpost
    exact haway

theorem Realm.Steady.tends (h : r.Steady t g agenda) (htends : r.Tends r')
    (hring : r'.ring.Flagged t g) : r'.Steady t g agenda := by
  refine ⟨hring, htends.housed, ?_⟩
  cases h.course with
  | calm plain => exact .calm plain
  | due old plain => exact .due old plain
  | draining n old away plain =>
    exact .draining n old (fun task htask =>
      (away task htask).mono htends (h.flagged.current_ne old)) plain

/-- What a task does to the realm when it drains nothing itself. A collector that has lost its last
reference is the oldest one. -/
structure Activity.Tends (a : Activity) (r : Realm) (t g : Nat) (task : Task) : Prop where
  flagged : ∃ g', g ≤ g' ∧ a.realm.ring.Flagged t g' ∧ (a.agenda = [] ∨
    a.agenda = [.drain (Seat.of t)] ∧ t < g' ∧ ¬ (t < g ∧ task.Away r (Seat.of t)))
  tends : r.Tends a.realm

theorem Realm.Housed.join (h : r.Housed) (hm : r.member? i = some m) :
    r.Tends (r.join i m .quiescent).realm :=
  (Activity.Begins.joined h .register hm (u := m) (fun _ => rfl) rfl).tends

theorem Realm.Steady.plain (h : r.Steady t g agenda) (hplain : task.IsPlain) :
    (r.perform task).Tends r t g task := by
  have htends := h.housed.tends
  cases task with
  | advance s =>
    simp only [Realm.perform]
    split
    next => exact ⟨⟨g, Nat.le_refl _, h.flagged, .inl rfl⟩, htends⟩
    next ring' last ha =>
      have hflagged := h.flagged.advance ha
      refine ⟨⟨g + 1, Nat.le_succ _, hflagged, ?_⟩, htends⟩
      split
      next hlast =>
        subst hlast
        obtain ⟨hs, hold⟩ := hflagged.of_word_eq_zero ((EpochRing.advance_last ha).mp rfl)
        refine .inr ⟨by rw [hs], hold, fun hh => ?_⟩
        exact h.flagged.current_ne hh.1 (hs ▸ (EpochRing.advance_eq_some ha).1.symm)
      next => exact .inl rfl
  | leave i s =>
    have hflagged := h.flagged.release s
    refine ⟨⟨g, Nat.le_refl _, hflagged, ?_⟩, htends⟩
    simp only [Realm.perform]
    split
    next hlast =>
      obtain ⟨hs, hold⟩ := hflagged.of_word_eq_zero ((EpochRing.release_last _ _ _).mp hlast)
      exact .inr ⟨by rw [hs], hold, fun hh => hh.2 hs⟩
    next => exact .inl rfl
  | rejoin i =>
    refine Realm.of_withMember (p := fun a => a.Tends r t g (.rejoin i)) ?_ fun m hm => ?_
    · exact ⟨⟨g, Nat.le_refl _, h.flagged, .inl rfl⟩, htends⟩
    · exact ⟨⟨g, Nat.le_refl _, h.flagged.enter, .inl rfl⟩, h.housed.join hm⟩
  | _ => cases hplain

/-- What happens while the oldest collector is drained. -/
structure Activity.KeepsAway (a : Activity) (r : Realm) (t g : Nat) : Prop where
  flagged : a.realm.ring.Flagged t g
  tends : r.Tends a.realm
  away : ∀ task ∈ a.agenda, task.Away a.realm (Seat.of t)

theorem Activity.KeepsAway.followedBy {a : Activity} (h : a.KeepsAway r t g) {own : List Nat}
    (hown : ∀ i ∈ own, a.realm.Avoids (Seat.of t) i) (next : Script) :
    (a.followedBy [.proceed own next]).KeepsAway r t g := by
  refine ⟨h.flagged, h.tends, fun task htask => ?_⟩
  rcases List.mem_append.mp htask with htask | htask
  · exact h.away task htask
  · rw [List.mem_singleton.mp htask]
    exact hown

theorem Realm.Steady.still (h : r.Steady t g agenda) : (Activity.still r).KeepsAway r t g :=
  ⟨h.flagged, h.housed.tends, nofun⟩

theorem Realm.Steady.begin_away (h : r.Steady t g agenda)
    (hact : ∀ i, act.member? = some i → r.Avoids (Seat.of t) i) :
    (r.begin act).KeepsAway r t g := by
  have hbegins := h.housed.begin act
  exact ⟨hbegins.ring h.flagged, hbegins.tends, fun task htask =>
    (hbegins.tasks task htask).away hact _⟩

/-- The members that a job has registered itself are not counted in the collector that is drained. -/
theorem Realm.Steady.proceed (h : r.Steady t g agenda) (old : t < g) {own : List Nat}
    (hown : ∀ i ∈ own, r.Avoids (Seat.of t) i) (script : Script) :
    (r.proceed own script).KeepsAway r t g := by
  have hseat := h.flagged.current_ne old
  have hbegin : ∀ (k : Nat) (act : Nat → Realm.Act), (∀ i, (act i).member? = some i) →
      (r.beginOwn own k act).KeepsAway r t g := by
    intro k act hact
    refine Realm.of_beginOwn (p := fun a => a.KeepsAway r t g) h.still fun i hi => ?_
    refine h.begin_away fun j hj => ?_
    cases Option.some.inj ((hact i).symm.trans hj)
    exact hown i (List.mem_of_getElem? hi)
  cases script with
  | done => exact h.still
  | register next =>
    have hregister : (r.begin .register).KeepsAway r t g := h.begin_away nofun
    refine hregister.followedBy (fun i hi => ?_) next
    rcases List.mem_append.mp hi with hi | hi
    · exact h.housed.tends_register.avoids hseat (hown i hi)
    · rw [List.mem_singleton.mp hi]
      intro m hm
      have hfresh : r.register.member? r.members.length = some .fresh := by
        simp [Realm.member?, Realm.register]
      cases Option.some.inj (hfresh.symm.trans hm)
      exact (Option.some_ne_none _).symm
  | move k move next =>
    have hmove := hbegin k (.move · move) fun _ => rfl
    exact hmove.followedBy (fun i hi => hmove.tends.avoids hseat (hown i hi)) next
  | defer k job next =>
    have hdefer := hbegin k (.defer · job) fun _ => rfl
    exact hdefer.followedBy (fun i hi => hdefer.tends.avoids hseat (hown i hi)) next

theorem Realm.Steady.away (h : r.Steady t g agenda) (old : t < g)
    (haway : task.Away r (Seat.of t)) : ∃ g', g ≤ g' ∧ (r.perform task).KeepsAway r t g' := by
  have hplain : task.IsPlain → ∃ g', g ≤ g' ∧ (r.perform task).KeepsAway r t g' := by
    intro hplain
    obtain ⟨⟨g', hle, hflagged, hagenda⟩, htends⟩ := h.plain hplain
    refine ⟨g', hle, hflagged, htends, ?_⟩
    rcases hagenda with hnil | ⟨_, _, hnot⟩
    · rw [hnil]
      exact nofun
    · exact absurd ⟨old, haway⟩ hnot
  cases task with
  | run node =>
    refine ⟨g, Nat.le_refl _, h.flagged, h.housed.tends, ?_⟩
    exact List.forall_mem_singleton.mpr nofun
  | proceed own script => exact ⟨g, Nat.le_refl _, h.proceed old haway script⟩
  | drain s => cases haway
  | finish s n => cases haway
  | _ => exact hplain trivial

/-- Every task keeps the low bytes right and drains nothing but the oldest collector. -/
theorem Realm.Steady.perform (h : r.Steady t g (task :: rest)) :
    ∃ t' g', (r.perform task).realm.Steady t' g' ((r.perform task).agenda ++ rest) := by
  -- One case for each of what may come next; only the end of a drain moves the tail.
  rcases h.course.next with ⟨hplain, hrest⟩ | ⟨old, rfl, hrest⟩ | ⟨old, ⟨n, rfl⟩, hrest⟩ |
    ⟨old, haway, inner, n, post, rfl, hinner, hpost⟩
  · obtain ⟨⟨g', _, hflagged, hagenda⟩, htends⟩ := h.plain hplain
    refine ⟨t, g', hflagged, htends.housed, ?_⟩
    rcases hagenda with hnil | ⟨hdrain, old, _⟩
    · rw [hnil]
      exact .calm hrest
    · rw [hdrain]
      exact .due old hrest
  · refine ⟨t, g, h.flagged.unload _, h.housed, ?_⟩
    have hagenda : (r.perform (.drain (Seat.of t))).agenda ++ rest
        = (r.ring.unload (Seat.of t)).2.map .run
          ++ .finish (Seat.of t) (r.ring.unload (Seat.of t)).2.length :: rest :=
      List.append_assoc _ _ _
    rw [hagenda]
    refine .draining _ old (fun task htask => ?_) hrest
    obtain ⟨node, _, rfl⟩ := List.mem_map.mp htask
    trivial
  · have hflagged := h.flagged.finishDrain old n
    refine ⟨t + 1, g, hflagged, h.housed, ?_⟩
    simp only [Realm.perform]
    split
    next hlast =>
      obtain ⟨hs, hnext⟩ := hflagged.of_word_eq_zero ((EpochRing.finishDrain_last _ _ _).mp hlast)
      rw [hs]
      exact .due hnext hrest
    next => exact .calm hrest
  · obtain ⟨g', hle, hkeeps⟩ := h.away old haway
    refine ⟨t, g', hkeeps.flagged, hkeeps.tends.housed, ?_⟩
    rw [← List.append_assoc]
    refine .draining n (Nat.lt_of_lt_of_le old hle) (fun task htask => ?_) hpost
    rcases List.mem_append.mp htask with htask | htask
    · exact hkeeps.away task htask
    · exact (hinner task htask).mono hkeeps.tends (h.flagged.current_ne old)

theorem Activity.Steady.step {a : Activity} (h : a.Steady) : a.step.Steady := by
  obtain ⟨t, g, h⟩ := h
  unfold Activity.step
  split
  next => exact ⟨t, g, h⟩
  next task rest hagenda =>
    rw [hagenda] at h
    exact h.perform

theorem Activity.Steady.steps {a : Activity} (h : a.Steady) (n : Nat) : (a.steps n).Steady := by
  induction n generalizing a with
  | zero => exact h
  | succ n ih =>
    unfold Activity.steps
    split
    next => exact h
    next => exact ih h.step

theorem Activity.Steady.begin (h : (Activity.still r).Steady) (act : Realm.Act) :
    (r.begin act).Steady := by
  obtain ⟨t, g, h⟩ := h
  have hbegins := h.housed.begin act
  exact ⟨t, g, hbegins.ring h.flagged, hbegins.tends.housed,
    .calm fun task htask => (hbegins.tasks task htask).isPlain⟩

theorem Activity.Steady.settle {a : Activity} (h : a.Steady) :
    (Activity.still a.settle.realm).Steady := by
  obtain ⟨t, g, h⟩ := h.steps a.budget
  exact ⟨t, g, h.flagged, h.housed, .calm nofun⟩

/-- In every run, whatever the members do and however many they are. -/
theorem Activity.Steady.run (h : (Activity.still r).Steady) (acts : List Realm.Act) :
    (Activity.still (r.run acts).1).Steady := by
  induction acts generalizing r with
  | nil => exact h
  | cons act acts ih => exact ih (h.begin act).settle

theorem Realm.steady_fresh (threshold : UInt64) :
    (Activity.still (Realm.fresh threshold)).Steady :=
  ⟨0, 0, EpochRing.flagged_fresh threshold, nofun, .calm nofun⟩

/-- A drain that ends is not one of the current collector. -/
theorem Activity.Steady.finish_ne_current {a : Activity} (h : a.Steady)
    (hagenda : a.agenda = .finish seat n :: rest) : seat ≠ a.realm.ring.current := by
  obtain ⟨t, g, h⟩ := h
  have hcourse := h.course
  rw [hagenda] at hcourse
  rcases hcourse.next with
    ⟨hplain, _⟩ | ⟨_, hdrain, _⟩ | ⟨old, ⟨k, hfinish⟩, _⟩ | ⟨_, haway, _⟩
  · cases hplain
  · cases hdrain
  · cases hfinish
    exact h.flagged.current_ne old
  · cases haway

theorem Activity.Steady.odd_current {a : Activity} (h : a.Steady) :
    (a.realm.ring.collector a.realm.ring.current).word.toNat % 2 = 1 := by
  obtain ⟨t, g, h⟩ := h
  exact h.flagged.odd_current

end EpochTable
