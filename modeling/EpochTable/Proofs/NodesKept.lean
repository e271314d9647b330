import EpochTable.Proofs.Lists
import EpochTable.Proofs.TasksSound

namespace EpochTable

variable {r r' : Realm} {c d : Chronicle} {i : Nat} {m u : Member} {pending : List Node}
  {finishing : List Nat}

def Task.node? : Task → Option Node
  | .run node => some node
  | _ => none

def Task.executed? : Task → Option Nat
  | .finish _ executed => some executed
  | _ => none

def Member.held (member : Option Member) : List Node :=
  (member.map fun m => m.batch.nodes).getD []

def Realm.held (r : Realm) : List Node := r.members.flatMap Member.held

theorem Realm.held_setMember (h : r.member? i = some m) (w : Option Member) :
    (m.batch.nodes ++ (r.setMember i w).held).Perm (Member.held w ++ r.held) :=
  flatMap_set_perm Member.held (Option.join_eq_some_iff.mp h) w

/-- The batch knows its length, and its nodes were deferred one after another, the last one of them
first. -/
structure Batch.Tidy (b : Batch Node) : Prop where
  size : b.size = b.nodes.length
  latest_first : (b.nodes.map Node.ticket).Pairwise (· > ·)

def Member.Tidy (member : Option Member) : Prop := ∀ m, member = some m → m.batch.Tidy

theorem Batch.tidy_empty : (Batch.empty : Batch Node).Tidy := ⟨rfl, List.Pairwise.nil⟩

theorem Realm.forall_setMember_at {p : Nat → Option Member → Prop} (h : ∀ j, p j (r.member? j))
    {w : Option Member} (hw : p i w) (j : Nat) : p j ((r.setMember i w).member? j) := by
  by_cases hj : j = i
  · subst hj
    by_cases hlt : j < r.members.length
    · rwa [Realm.member?_setMember hlt]
    · have hsame : (r.setMember j w).members = r.members :=
        List.set_eq_of_length_le (Nat.le_of_not_lt hlt)
      rw [Realm.member?, hsame]
      exact h j
  · rw [Realm.member?_setMember_ne hj]
    exact h j

theorem Realm.forall_setMember {p : Option Member → Prop} (h : ∀ i, p (r.member? i))
    {w : Option Member} (hw : p w) (i j : Nat) : p ((r.setMember i w).member? j) :=
  Realm.forall_setMember_at (p := fun _ => p) h hw j

theorem Realm.forall_register_at {p : Nat → Option Member → Prop} (h : ∀ j, p j (r.member? j))
    (hfresh : ∀ j, p j (some .fresh)) (j : Nat) : p j (r.register.member? j) := by
  have hlast := h j
  simp only [Realm.member?, Realm.register, List.getElem?_append, List.getElem?_singleton] at hlast ⊢
  split
  next => exact hlast
  next hlt =>
    split
    next => exact hfresh j
    next => rwa [List.getElem?_eq_none (Nat.le_of_not_lt hlt)] at hlast

theorem Realm.forall_register {p : Option Member → Prop} (h : ∀ i, p (r.member? i))
    (hfresh : p (some .fresh)) (j : Nat) : p (r.register.member? j) :=
  Realm.forall_register_at (p := fun _ => p) h (fun _ => hfresh) j

/-- `pending` are the nodes of the tasks, and `finishing` has an element for a drain that took its
nodes and has not ended. -/
structure Realm.Keeps (r : Realm) (c : Chronicle) (pending : List Node) (finishing : List Nat) :
    Prop where
  unborn : ∀ g, c.generation < g → c.flushed g = []
  nodes : ∀ g, c.ended ≤ g → g < c.ended + ringSize → (r.ring.collector (Seat.of g)).nodes
    = if g < c.ended + finishing.length then [] else (c.flushed g).reverse
  sizes : ∀ s : Seat, (r.ring.collector s).size = (r.ring.collector s).nodes.length
  order : c.ran ++ pending = c.inOrder (c.ended + finishing.length)
  due : ∀ node ∈ pending, node ∈ c.flushed c.ended
  executed : ∀ n ∈ finishing, n = (c.flushed c.ended).length
  reclaimed : r.ring.reclaimed = (c.inOrder c.ended).length
  handed : c.deferred.Perm (r.held ++ c.inOrder (c.generation + 1))
  tickets : c.deferred.map Node.ticket = List.range r.issued
  batches : ∀ i, Member.Tidy (r.member? i)

/-- What an activity has led to keeps all nodes, those of the tasks after its own included. -/
def Activity.Keeps (a : Activity) (c : Chronicle) (pending : List Node) (finishing : List Nat) :
    Prop :=
  a.realm.Keeps (c.after a.journal) (a.agenda.filterMap Task.node? ++ pending)
    (a.agenda.filterMap Task.executed? ++ finishing)

theorem Realm.Keeps.congr (h : r.Keeps c pending finishing)
    (hnodes : ∀ s : Seat, (r'.ring.collector s).nodes = (r.ring.collector s).nodes)
    (hsizes : ∀ s : Seat, (r'.ring.collector s).size = (r.ring.collector s).size)
    (hreclaimed : r'.ring.reclaimed = r.ring.reclaimed) (hheld : r'.held.Perm r.held)
    (hissued : r'.issued = r.issued)
    (hbatches : ∀ i, Member.Tidy (r'.member? i))
    (hg : d.generation = c.generation) (he : d.ended = c.ended) (hd : d.deferred = c.deferred)
    (hf : d.flushed = c.flushed) (hr : d.ran = c.ran) : r'.Keeps d pending finishing := by
  have hinOrder : d.inOrder = c.inOrder := by
    funext n
    rw [Chronicle.inOrder, hf, Chronicle.inOrder]
  refine ⟨?_, ?_, ?_, ?_, ?_, ?_, ?_, ?_, ?_, hbatches⟩
  · rw [hg, hf]
    exact h.unborn
  · intro g hlo hhi
    rw [he] at hlo hhi ⊢
    rw [hnodes, h.nodes g hlo hhi, hf]
  · intro s
    rw [hsizes, hnodes, h.sizes]
  · rw [hr, hinOrder, he]
    exact h.order
  · rw [hf, he]
    exact h.due
  · rw [hf, he]
    exact h.executed
  · rw [hreclaimed, hinOrder, he]
    exact h.reclaimed
  · rw [hd, hinOrder, hg]
    exact h.handed.trans (hheld.symm.append_right _)
  · rw [hd, hissued]
    exact h.tickets

theorem Realm.Keeps.setMember (h : r.Keeps c pending finishing) (hm : r.member? i = some m)
    {w : Option Member} (hheld : Member.held w = m.batch.nodes) (hw : Member.Tidy w) :
    (r.setMember i w).Keeps c pending finishing := by
  have hperm := Realm.held_setMember hm w
  rw [hheld, List.perm_append_left_iff] at hperm
  exact h.congr (fun _ => rfl) (fun _ => rfl) rfl hperm rfl (Realm.forall_setMember h.batches hw i)
    rfl rfl rfl rfl rfl

theorem Realm.Keeps.setMember_some (h : r.Keeps c pending finishing) (hm : r.member? i = some m)
    (hu : u.batch = m.batch) : (r.setMember i (some u)).Keeps c pending finishing := by
  refine h.setMember hm (congrArg Batch.nodes hu) ?_
  intro m' hm'
  cases Option.some.inj hm'
  rw [hu]
  exact h.batches i m hm

theorem Realm.Keeps.join (h : r.Keeps c pending finishing) (hm : r.member? i = some m)
    (hu : u.batch = m.batch) (standing : Seat → Standing) :
    (r.join i u standing).Keeps c pending finishing := by
  have hring : Realm.Keeps { r with ring := r.ring.enter.1 } (c.record (.joined i r.ring.enter.2))
      pending finishing :=
    h.congr (fun _ => rfl) (fun _ => rfl) rfl (.refl _) rfl h.batches rfl rfl rfl rfl rfl
  exact hring.setMember_some (m := m) hm (u := { u with standing := standing r.ring.enter.2 }) hu

theorem Realm.Keeps.register (h : r.Keeps c pending finishing) :
    r.register.Keeps c pending finishing := by
  have hheld : r.register.held = r.held := by
    simp [Realm.held, Realm.register, Member.held, Member.fresh, Batch.empty]
  refine h.congr (fun _ => rfl) (fun _ => rfl) rfl (hheld ▸ .refl _) rfl ?_ rfl rfl rfl rfl rfl
  refine Realm.forall_register h.batches fun m hm => ?_
  cases Option.some.inj hm
  exact Batch.tidy_empty

theorem Collector.nodes_push (k : Collector Node) (b : Batch Node) :
    (k.push b).1.nodes = b.nodes ++ k.nodes := by
  unfold Collector.push
  split
  next h =>
    have hb : b.nodes = [] := List.isEmpty_iff.mp h
    simp [hb]
  next => rfl

theorem Collector.size_push {k : Collector Node} {b : Batch Node} (hk : k.size = k.nodes.length)
    (hb : b.size = b.nodes.length) : (k.push b).1.size = (k.push b).1.nodes.length := by
  rw [Collector.nodes_push]
  unfold Collector.push
  split
  next h =>
    have hb' : b.nodes = [] := List.isEmpty_iff.mp h
    simp [hb', hk]
  next =>
    simp only [List.length_append]
    omega

theorem Chronicle.inOrder_flushed (c : Chronicle) (s : Seat) (nodes : List Node) {n : Nat}
    (hn : n ≤ c.generation) : (c.record (.flushed s nodes)).inOrder n = c.inOrder n := by
  apply Chronicle.inOrder_congr
  intro g hg
  have hne : g ≠ c.generation := by omega
  simp [Chronicle.record, hne]

theorem Chronicle.perm_inOrder_flushed (c : Chronicle) (s : Seat) (nodes : List Node) :
    ((c.record (.flushed s nodes)).inOrder (c.generation + 1)).Perm
      (nodes ++ c.inOrder (c.generation + 1)) := by
  have hnew : (c.record (.flushed s nodes)).inOrder (c.generation + 1)
      = c.inOrder c.generation ++ (nodes ++ (c.flushed c.generation).reverse) := by
    rw [Chronicle.inOrder_succ, c.inOrder_flushed _ _ (Nat.le_refl _)]
    simp [Chronicle.record]
  rw [hnew, Chronicle.inOrder_succ, ← List.append_assoc, ← List.append_assoc]
  exact List.perm_append_comm.append_right _

/-- A batch that is handed over lies in front of what its generation has handed over so far. -/
theorem Realm.Keeps.flush (h : r.Keeps c pending finishing) (hm : r.member? i = some m)
    {w : Option Member} (hempty : Member.held w = []) (hw : Member.Tidy w)
    (current : r.ring.current = Seat.of c.generation) (hlo : c.ended + finishing.length ≤ c.generation)
    (hhi : c.generation < c.ended + ringSize) :
    ({ r with ring := (r.ring.flush m.batch).1 }.setMember i w).Keeps
      (c.record (.flushed r.ring.current m.batch.nodes)) pending finishing := by
  have hbatch := h.batches i m hm
  have hflushed : ∀ s g, g ≠ c.generation →
      (c.record (.flushed s m.batch.nodes)).flushed g = c.flushed g :=
    fun s g hg => if_neg hg
  refine ⟨?_, ?_, ?_, ?_, ?_, ?_, ?_, ?_, h.tickets, ?_⟩
  · intro g hg
    rw [hflushed _ g (Nat.ne_of_gt hg)]
    exact h.unborn g hg
  · intro g hg hg'
    change c.ended ≤ g at hg
    change g < c.ended + ringSize at hg'
    change ((r.ring.flush m.batch).1.collector (Seat.of g)).nodes
      = if g < c.ended + finishing.length then [] else _
    simp only [EpochRing.collector_flush, current]
    -- Within a round, only the current generation has its nodes in the current collector.
    have hseat := Seat.of_inj (Nat.le_of_add_right_le hlo) hhi hg hg'
    by_cases he : c.generation = g
    · subst he
      have hnot : ¬ c.generation < c.ended + finishing.length := by omega
      rw [if_pos rfl, Collector.nodes_push, h.nodes _ hg hg', if_neg hnot, if_neg hnot]
      simp [Chronicle.record]
    · rw [if_neg fun hs => he (hseat.mp hs), h.nodes g hg hg', hflushed _ g (Ne.symm he)]
  · intro s
    change ((r.ring.flush m.batch).1.collector s).size = _
    simp only [EpochRing.collector_flush, Realm.setMember]
    split
    · exact Collector.size_push (h.sizes _) hbatch.size
    · exact h.sizes s
  · exact h.order.trans (c.inOrder_flushed _ _ hlo).symm
  · intro node hnode
    simp only [Chronicle.record]
    split
    · exact List.mem_append_left _ (h.due node hnode)
    · exact h.due node hnode
  · intro n hn
    have hlt : c.ended ≠ c.generation := by
      have := List.length_pos_of_mem hn
      omega
    change n = ((c.record (.flushed r.ring.current m.batch.nodes)).flushed c.ended).length
    rw [hflushed _ _ hlt]
    exact h.executed n hn
  · refine h.reclaimed.trans (congrArg List.length (c.inOrder_flushed _ _ ?_).symm)
    exact Nat.le_of_add_right_le hlo
  · have hheld := Realm.held_setMember hm w
    rw [hempty, List.nil_append] at hheld
    change c.deferred.Perm ((r.setMember i w).held ++
      (c.record (.flushed r.ring.current m.batch.nodes)).inOrder (c.generation + 1))
    have hnew := c.perm_inOrder_flushed r.ring.current m.batch.nodes
    refine (h.handed.trans (hheld.symm.append_right _)).trans ?_
    refine List.Perm.trans ?_ (hnew.symm.append_left _)
    rw [← List.append_assoc]
    exact List.perm_append_comm.append_right _
  · exact Realm.forall_setMember (r := { r with ring := (r.ring.flush m.batch).1 }) h.batches hw i

end EpochTable
