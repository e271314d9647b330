import EpochTable.Proofs.BegunActs
import EpochTable.Proofs.NodesKept

namespace EpochTable

variable {r : Realm} {c : Chronicle} {i : Nat} {m u : Member} {task : Task} {rest new : List Task}
  {pending : List Node} {finishing : List Nat}

theorem Activity.keeps_followedBy {a : Activity} : (a.followedBy new).Keeps c pending finishing ↔
    a.Keeps c (new.filterMap Task.node? ++ pending) (new.filterMap Task.executed? ++ finishing) := by
  simp [Activity.Keeps, Activity.followedBy]

/-- A drain that took its nodes is one of the oldest collector, which is not current any more. -/
theorem Realm.Sound.finishing_le {agenda : List Task} (h : r.Sound c agenda) :
    c.ended + (agenda.filterMap Task.executed?).length ≤ c.generation := by
  have hle : ∀ tasks : List Task,
      (tasks.filterMap Task.executed?).length ≤ (tasks.filterMap Task.drained?).length := by
    intro tasks
    induction tasks with
    | nil => exact Nat.le_refl _
    | cons task tasks ih =>
      cases task <;>
        simp only [List.filterMap_cons, Task.executed?, Task.drained?, List.length_cons] <;> omega
  have hagenda := hle agenda
  have hended := h.balanced.ended_le
  rw [h.draining] at hagenda
  split at hagenda
  next hv =>
    have hlt := hv.1
    simp only [List.length_singleton] at hagenda
    omega
  next =>
    simp only [List.length_nil] at hagenda
    omega

theorem Member.Emptied.held {w : Option Member} (h : Member.Emptied w) : Member.held w = [] := by
  cases w with
  | none => rfl
  | some m => exact congrArg Batch.nodes (h m rfl)

theorem Member.Emptied.tidy {w : Option Member} (h : Member.Emptied w) : Member.Tidy w := by
  intro m hm
  rw [h m hm]
  exact Batch.tidy_empty

theorem Realm.Keeps.depart (h : r.Keeps c pending finishing) (hm : r.member? i = some m)
    {w : Option Member} (hw : Member.Emptied w) (balanced : r.ring.Balanced c)
    (hlo : c.ended + finishing.length ≤ c.generation) (s : Seat) :
    ((r.setMember i w).depart i m s).Keeps c pending finishing := by
  apply Activity.keeps_followedBy.mpr
  rcases (r.setMember i w).handOver_cases m.batch m.promote with ⟨hb, he⟩ | ⟨tasks, ht, he⟩
  · rw [he]
    have hnodes : m.batch.nodes = [] := List.isEmpty_iff.mp hb
    exact h.setMember hm (hw.held.trans hnodes.symm) hw.tidy
  · rw [he]
    have hflush := h.flush hm hw.held hw.tidy balanced.current hlo balanced.room
    rcases ht with rfl | rfl
    · exact hflush
    · exact hflush

theorem Node.number_append (first : Nat) (jobs more : List Job) :
    Node.number first (jobs ++ more)
      = Node.number first jobs ++ Node.number (first + jobs.length) more := by
  induction jobs generalizing first with
  | nil => rfl
  | cons job rest ih =>
    simp only [List.cons_append, Node.number, ih, List.length_cons]
    rw [Nat.add_assoc, Nat.add_comm 1]

theorem Node.ticket_number (first : Nat) (jobs : List Job) :
    (Node.number first jobs).map Node.ticket = List.range' first jobs.length := by
  induction jobs generalizing first with
  | nil => rfl
  | cons job rest ih => simp [Node.number, ih, List.range'_succ]

theorem Member.nodes_deferAll (m : Member) (nodes : List Node) :
    (nodes.foldl Member.defer m).batch.nodes = nodes.reverse ++ m.batch.nodes := by
  induction nodes generalizing m with
  | nil => rfl
  | cons node rest ih =>
    rw [List.foldl_cons, ih]
    simp [Member.defer, Batch.push]

theorem Member.promote_deferAll (m : Member) (nodes : List Node) :
    (nodes.foldl Member.defer m).promote = m.promote := by
  induction nodes generalizing m with
  | nil => rfl
  | cons node rest ih => exact ih _

theorem Member.size_deferAll (m : Member) (nodes : List Node) :
    (nodes.foldl Member.defer m).batch.size = m.batch.size + nodes.length := by
  induction nodes generalizing m with
  | nil => rfl
  | cons node rest ih =>
    rw [List.foldl_cons, ih]
    simp only [Member.defer, Batch.push, List.length_cons]
    omega

theorem Realm.mem_held (hm : r.member? i = some m) {node : Node} (hnode : node ∈ m.batch.nodes) :
    node ∈ r.held :=
  List.mem_flatMap.mpr ⟨some m, List.mem_of_getElem? (Option.join_eq_some_iff.mp hm), hnode⟩

theorem Realm.Keeps.mem_deferred (h : r.Keeps c pending finishing) (hm : r.member? i = some m)
    {node : Node} (hnode : node ∈ m.batch.nodes) : node ∈ c.deferred :=
  h.handed.mem_iff.mpr (List.mem_append_left _ (Realm.mem_held hm hnode))

theorem Realm.Keeps.ticket_lt (h : r.Keeps c pending finishing) (hm : r.member? i = some m)
    {node : Node} (hnode : node ∈ m.batch.nodes) : node.ticket < r.issued := by
  have hmem := List.mem_map_of_mem (f := Node.ticket) (h.mem_deferred hm hnode)
  rwa [h.tickets, List.mem_range] at hmem

theorem Realm.Keeps.deferAll (h : r.Keeps c pending finishing) (hm : r.member? i = some m)
    (hu : u.batch = m.batch) (jobs : List Job) : (r.deferAll i u jobs).Keeps c pending finishing := by
  let nodes := Node.number r.issued jobs
  let after : Realm := { r with issued := r.issued + jobs.length }
  have hbatch := h.batches i m hm
  have hnodes := u.nodes_deferAll nodes
  have hsize := u.size_deferAll nodes
  rw [hu] at hnodes hsize
  have hperm := Realm.held_setMember (r := after) hm (some (nodes.foldl Member.defer u))
  have hheld : Member.held (some (nodes.foldl Member.defer u)) = nodes.reverse ++ m.batch.nodes :=
    hnodes
  rw [hheld] at hperm
  have hgrown : (after.setMember i (some (nodes.foldl Member.defer u))).held.Perm
      (nodes ++ r.held) := by
    apply (List.perm_append_left_iff m.batch.nodes).mp
    refine hperm.trans ?_
    rw [← List.append_assoc m.batch.nodes]
    refine List.Perm.append_right _ ?_
    exact List.perm_append_comm.trans (List.Perm.append_left _ (List.reverse_perm _))
  have htidy : Member.Tidy (some (nodes.foldl Member.defer u)) := by
    intro m' hm'
    cases Option.some.inj hm'
    refine ⟨?_, ?_⟩
    · rw [hsize, hnodes, hbatch.size]
      simp only [List.length_append, List.length_reverse]
      omega
    · rw [hnodes, List.map_append, List.map_reverse, Node.ticket_number, List.pairwise_append]
      refine ⟨List.pairwise_reverse.mpr (List.pairwise_lt_range' _), hbatch.latest_first, ?_⟩
      intro k hk k' hk'
      obtain ⟨node, hnode, rfl⟩ := List.mem_map.mp hk'
      have hold := h.ticket_lt hm hnode
      rw [List.mem_reverse, List.mem_range'_1] at hk
      omega
  change (after.setMember i (some (nodes.foldl Member.defer u))).Keeps
    (c.after (nodes.map (.deferred i))) pending finishing
  rw [Chronicle.after_deferred]
  refine ⟨h.unborn, h.nodes, h.sizes, h.order, h.due, h.executed, h.reclaimed, ?_, ?_, ?_⟩
  · refine (h.handed.append_right nodes).trans ?_
    refine List.perm_append_comm.trans ?_
    rw [← List.append_assoc]
    exact hgrown.symm.append_right _
  · change (c.deferred ++ nodes).map Node.ticket = List.range (r.issued + jobs.length)
    have hsplit := List.range'_append_1 (s := 0) (m := r.issued) (n := jobs.length)
    rw [Nat.zero_add] at hsplit
    rw [List.map_append, h.tickets, Node.ticket_number, List.range_eq_range', List.range_eq_range']
    exact hsplit
  · exact Realm.forall_setMember (r := after) h.batches htidy i

/-- Nothing is lost when a membership ends, either: a member that is counted nowhere has handed
everything over. -/
theorem Realm.Keeps.begin (h : r.Keeps c pending finishing) (act : Realm.Act)
    (balanced : r.ring.Balanced c) (hlo : c.ended + finishing.length ≤ c.generation)
    (hact : ∀ i, act.member? = some i → Phase r c i []) :
    (r.begin act).Keeps c pending finishing := by
  have hbegun := r.begun_begin act
  generalize r.begin act = a at hbegun ⊢
  cases hbegun with
  | still => exact h
  | registered => exact h.register
  | adjusted i m u hm hu _ => exact h.setMember_some hm hu
  | joined i m hm => exact h.join (u := { m with depth := 1 }) hm rfl _
  | departed i m seat w later hm hw hlater =>
    have hdepart := h.depart hm hw balanced hlo seat
    apply Activity.keeps_followedBy.mpr
    rcases hlater with rfl | rfl <;> exact hdepart
  | dropped i m hi hm hnone =>
    obtain rfl := (hact i hi).eq_fresh_of_seat hm hnone
    exact h.setMember hm rfl Member.emptied_none.tidy
  | deferred i m u jobs _ hm hu _ => exact h.deferAll (Realm.member?_of_pinned? hm) hu jobs

theorem Realm.Keeps.advance {s : Seat} (h : r.Keeps c pending finishing) :
    (r.perform (.advance s)).Keeps c pending finishing := by
  simp only [Realm.perform]
  split
  next =>
    split
    · exact h
    · exact h
  next ring last ha =>
    have hdrain : ∀ tasks : List Task, tasks = (if last then [.drain s] else []) →
        tasks.filterMap Task.node? = [] ∧ tasks.filterMap Task.executed? = [] := by
      rintro _ rfl
      cases last <;> exact ⟨rfl, rfl⟩
    have hkept : ∀ t : Seat, (ring.collector t).nodes = (r.ring.collector t).nodes ∧
        (ring.collector t).size = (r.ring.collector t).size := by
      intro t
      rw [EpochRing.collector_advance ha]
      split <;> exact ⟨rfl, rfl⟩
    have hnew : (c.record (.advanced s)).inOrder (c.generation + 1 + 1)
        = c.inOrder (c.generation + 1) := by
      have hnone : (c.record (.advanced s)).flushed (c.generation + 1) = [] :=
        h.unborn _ (Nat.lt_succ_self _)
      rw [Chronicle.inOrder_succ, hnone, List.reverse_nil, List.append_nil]
      rfl
    simp only [Activity.Keeps, (hdrain _ rfl).1, (hdrain _ rfl).2, List.nil_append]
    refine ⟨?_, ?_, ?_, h.order, h.due, h.executed, ?_, ?_, h.tickets, h.batches⟩
    · exact fun g hg => h.unborn g (Nat.lt_of_succ_lt hg)
    · exact fun g hg hg' => (hkept _).1.trans (h.nodes g hg hg')
    · exact fun t => (hkept t).2.trans ((h.sizes t).trans (congrArg _ (hkept t).1.symm))
    · obtain ⟨_, _, _, hring⟩ := EpochRing.advance_eq_some ha
      rw [hring]
      exact h.reclaimed
    · refine h.handed.trans ?_
      change (r.held ++ _).Perm (r.held ++ (c.record (.advanced s)).inOrder (c.generation + 1 + 1))
      rw [hnew]

end EpochTable
