import EpochTable.Proofs.NodesMoved

namespace EpochTable

variable {r : Realm} {c : Chronicle} {i : Nat} {s : Seat} {n : Nat} {node : Node} {task : Task}
  {rest : List Task}

/-- What the tasks at hand have still to run is kept. -/
def Realm.KeepsFor (r : Realm) (c : Chronicle) (agenda : List Task) : Prop :=
  r.Keeps c (agenda.filterMap Task.node?) (agenda.filterMap Task.executed?)

theorem EpochRing.nodes_release (r : EpochRing) (s t : Seat) (amount : UInt64) :
    ((r.release s amount).1.collector t).nodes = (r.collector t).nodes ∧
      ((r.release s amount).1.collector t).size = (r.collector t).size := by
  rw [EpochRing.collector_release]
  split <;> exact ⟨rfl, rfl⟩

theorem Realm.KeepsFor.leave (h : r.KeepsFor c (.leave i s :: rest)) :
    (r.perform (.leave i s)).Keeps c (rest.filterMap Task.node?) (rest.filterMap Task.executed?) := by
  have hkept := fun t => r.ring.nodes_release s t Collector.memberRef
  have hnew : (r.perform (.leave i s)).realm.Keeps (c.record (.left i s))
      (rest.filterMap Task.node?) (rest.filterMap Task.executed?) :=
    Realm.Keeps.congr h (fun t => (hkept t).1) (fun t => (hkept t).2) rfl (.refl _) rfl h.batches
      rfl rfl rfl rfl rfl
  simp only [Activity.Keeps, Realm.perform] at hnew ⊢
  split
  · exact hnew
  · exact hnew

theorem Realm.KeepsFor.rejoin (h : r.KeepsFor c (.rejoin i :: rest)) :
    (r.perform (.rejoin i)).Keeps c (rest.filterMap Task.node?) (rest.filterMap Task.executed?) := by
  simp only [Realm.perform, Realm.withMember]
  split
  next => exact h
  next m hm => exact Realm.Keeps.join h hm rfl _

theorem Realm.Sound.nothing_taken (h : r.Sound c (.drain s :: rest)) :
    s = Seat.of c.ended ∧ c.Vacant ∧ rest.filterMap Task.executed? = [] ∧
      rest.filterMap Task.node? = [] := by
  obtain ⟨hs, hv, hdraining⟩ := h.only_drain rfl
  have hfinish : ∀ seat executed, Task.finish seat executed ∉ rest := by
    intro seat executed hmem
    have hnone := List.filterMap_eq_nil_iff.mp hdraining _ hmem
    simp [Task.drained?] at hnone
  refine ⟨hs, hv, ?_, ?_⟩
  · rw [List.filterMap_eq_nil_iff]
    intro task htask
    cases task with
    | finish seat executed => exact absurd htask (hfinish seat executed)
    | _ => rfl
  · rw [List.filterMap_eq_nil_iff]
    intro task htask
    cases task with
    | run node =>
      obtain ⟨seat, executed, hmem⟩ := h.orderly.2.exists_finish htask
      exact absurd hmem (hfinish seat executed)
    | _ => rfl

theorem EpochRing.nodes_unload (r : EpochRing) (s t : Seat) :
    ((r.unload s).1.collector t).nodes = (if s = t then [] else (r.collector t).nodes) ∧
      ((r.unload s).1.collector t).size = if s = t then 0 else (r.collector t).size := by
  rw [EpochRing.collector_unload]
  split <;> exact ⟨rfl, rfl⟩

theorem Task.node?_runs (nodes : List Node) (s : Seat) (n : Nat) :
    (nodes.map Task.run ++ [Task.finish s n]).filterMap Task.node? = nodes := by
  induction nodes with
  | nil => rfl
  | cons node nodes ih =>
    rw [List.map_cons, List.cons_append,
      List.filterMap_cons_some (f := Task.node?) (b := node) rfl, ih]

theorem Task.executed?_runs (nodes : List Node) (s : Seat) (n : Nat) :
    (nodes.map Task.run ++ [Task.finish s n]).filterMap Task.executed? = [n] := by
  induction nodes with
  | nil => rfl
  | cons node nodes ih =>
    rw [List.map_cons, List.cons_append, List.filterMap_cons_none rfl, ih]

/-- The nodes of the oldest generation are next in order. -/
theorem Realm.KeepsFor.drain (h : r.KeepsFor c (.drain s :: rest))
    (hs : r.Sound c (.drain s :: rest)) :
    (r.perform (.drain s)).Keeps c (rest.filterMap Task.node?) (rest.filterMap Task.executed?) := by
  obtain ⟨rfl, hv, hexecuted, hnode⟩ := hs.nothing_taken
  have hroom := hs.balanced.room
  have hlt := hv.1
  have hk : r.Keeps c [] [] := by
    have hh := h
    simp only [Realm.KeepsFor] at hh
    rwa [List.filterMap_cons_none rfl, List.filterMap_cons_none rfl, hexecuted, hnode] at hh
  have hoff := fun t => r.ring.nodes_unload (Seat.of c.ended) t
  have htaken : (r.ring.unload (Seat.of c.ended)).2 = (c.flushed c.ended).reverse := by
    have hn := hk.nodes c.ended (Nat.le_refl _) (by omega)
    rwa [List.length_nil, Nat.add_zero, if_neg (Nat.lt_irrefl _)] at hn
  simp only [Activity.Keeps, Realm.perform, hexecuted, hnode, List.append_nil, Task.node?_runs,
    Task.executed?_runs]
  refine ⟨hk.unborn, ?_, ?_, ?_, ?_, ?_, hk.reclaimed, hk.handed, hk.tickets, hk.batches⟩
  · intro g hg hg'
    have hseat := Seat.of_inj (Nat.le_refl c.ended) (by omega) hg hg'
    refine (hoff (Seat.of g)).1.trans ?_
    change c.ended ≤ g at hg
    change g < c.ended + ringSize at hg'
    have hn := hk.nodes g hg hg'
    simp only [List.length_nil, Nat.add_zero, Nat.not_lt_of_le hg, if_false] at hn
    change _ = if g < c.ended + 1 then [] else (c.flushed g).reverse
    by_cases he : c.ended = g
    · subst he
      simp
    · have hnot : ¬ g < c.ended + 1 := by omega
      rw [if_neg fun hh => he (hseat.mp hh), if_neg hnot, hn]
  · intro t
    have hsize := hk.sizes t
    change ((r.ring.unload (Seat.of c.ended)).1.collector t).size
      = ((r.ring.unload (Seat.of c.ended)).1.collector t).nodes.length
    rw [(hoff t).1, (hoff t).2]
    split
    · rfl
    · exact hsize
  · have horder := hk.order
    change c.ran ++ _ = c.inOrder (c.ended + 1)
    rw [htaken, Chronicle.inOrder_succ]
    exact congrArg (· ++ (c.flushed c.ended).reverse) ((List.append_nil _).symm.trans horder)
  · intro node hnode
    rw [htaken, List.mem_reverse] at hnode
    exact hnode
  · intro n hn
    rw [List.mem_singleton.mp hn, htaken, List.length_reverse]
    rfl

theorem Realm.KeepsFor.run (h : r.KeepsFor c (.run node :: rest)) :
    (r.perform (.run node)).Keeps c (rest.filterMap Task.node?) (rest.filterMap Task.executed?) := by
  have horder := h.order
  rw [List.filterMap_cons_some (f := Task.node?) (b := node) rfl] at horder
  refine ⟨h.unborn, h.nodes, h.sizes, ?_, ?_, h.executed, h.reclaimed, h.handed, h.tickets,
    h.batches⟩
  · change (c.ran ++ [node]) ++ rest.filterMap Task.node? = _
    rw [List.append_assoc]
    exact horder
  · exact fun later hlater => h.due later (List.mem_cons_of_mem _ hlater)

theorem EpochRing.nodes_finishDrain (r : EpochRing) (s t : Seat) (n : Nat) :
    ((r.finishDrain s n).1.collector t).nodes = (r.collector t).nodes ∧
      ((r.finishDrain s n).1.collector t).size = (r.collector t).size := by
  rw [EpochRing.collector_finishDrain]
  split
  next => exact ⟨rfl, rfl⟩
  next => split <;> exact ⟨rfl, rfl⟩

/-- When a drain ends, the collector it emptied is the one of a generation to come. -/
theorem Realm.KeepsFor.finish (h : r.KeepsFor c (.finish s n :: rest))
    (hs : r.Sound c (.finish s n :: rest)) :
    (r.perform (.finish s n)).Keeps c (rest.filterMap Task.node?)
      (rest.filterMap Task.executed?) := by
  have hdrain : r.Sound c (.drain s :: rest) := by
    refine ⟨hs.balanced, fun j => ?_, hs.draining, trivial, hs.orderly.2⟩
    rw [List.filter_cons_of_neg (by simp [Task.awaits])]
    exact hs.phase_rest rfl
  obtain ⟨rfl, hv, hexecuted, hnode⟩ := hdrain.nothing_taken
  have hroom := hs.balanced.room
  have hk : r.Keeps c [] [n] := by
    have hh := h
    simp only [Realm.KeepsFor] at hh
    rwa [List.filterMap_cons_none rfl, List.filterMap_cons_some (f := Task.executed?) (b := n) rfl,
      hexecuted, hnode] at hh
  have hkept := fun t => r.ring.nodes_finishDrain (Seat.of c.ended) t n
  have hnew : (r.perform (.finish (Seat.of c.ended) n)).realm.Keeps
      (c.record (.drainEnded (Seat.of c.ended) n)) [] [] := by
    refine ⟨hk.unborn, ?_, ?_, hk.order, List.forall_mem_nil _, List.forall_mem_nil _, ?_, hk.handed,
      hk.tickets, hk.batches⟩
    · intro g hg hg'
      change c.ended + 1 ≤ g at hg
      change g < c.ended + 1 + ringSize at hg'
      refine ((hkept (Seat.of g)).1.trans ?_).trans (if_neg (Nat.not_lt_of_le hg)).symm
      change _ = (c.flushed g).reverse
      -- The emptied collector comes round again for a generation that is not born yet.
      by_cases hlast : g = c.ended + ringSize
      · have hself := hk.nodes c.ended (Nat.le_refl _) (by omega)
        rw [if_pos (by simp)] at hself
        subst hlast
        simp only [Seat.of_add_ringSize]
        rw [hself, h.unborn _ hroom]
        rfl
      · have hn := hk.nodes g (by omega) (by omega)
        rwa [if_neg (by simp; omega)] at hn
    · exact fun t => (hkept t).2.trans ((hk.sizes t).trans (congrArg _ (hkept t).1.symm))
    · change r.ring.reclaimed + n = (c.inOrder (c.ended + 1)).length
      rw [Chronicle.inOrder_succ, List.length_append, List.length_reverse, hk.reclaimed,
        ← hk.executed n List.mem_cons_self]
  simp only [Activity.Keeps, hexecuted, hnode, Realm.perform, List.append_nil] at hnew ⊢
  split
  · exact hnew
  · exact hnew

theorem Realm.KeepsFor.perform (h : r.KeepsFor c (task :: rest)) (hs : r.Sound c (task :: rest)) :
    (r.perform task).Keeps c (rest.filterMap Task.node?) (rest.filterMap Task.executed?) := by
  cases task with
  | advance s => exact Realm.Keeps.advance h
  | leave i s => exact h.leave
  | rejoin i => exact h.rejoin
  | drain s => exact h.drain hs
  | run node => exact h.run
  | proceed own script =>
    simp only [Realm.perform]
    rcases hs.proceed_cases with he | ⟨a, own', next, he, hsound, ha⟩
    · rw [he]
      exact h
    · rw [he]
      apply Activity.keeps_followedBy.mpr
      rcases ha with rfl | ⟨act, rfl, hact⟩
      · exact h
      · exact Realm.Keeps.begin h act hsound.balanced hsound.finishing_le
          fun i hi => hsound.phase (hact i hi)
  | finish s n => exact h.finish hs

theorem Realm.keeps_fresh (threshold : UInt64) : (Realm.fresh threshold).Keeps .empty [] [] := by
  have hcollector : ∀ t : Seat, (Realm.fresh threshold).ring.collector t
      = Collector.fresh (t = 0) := by
    intro t
    simp [EpochRing.collector, Realm.fresh, EpochRing.fresh]
  refine ⟨fun _ _ => rfl, ?_, ?_, rfl, List.forall_mem_nil _, List.forall_mem_nil _, rfl, .refl _,
    rfl, ?_⟩
  · intro g _ _
    rw [hcollector]
    simp [Collector.fresh, Chronicle.empty]
  · intro t
    rw [hcollector]
    rfl
  · intro i
    have hnone : (Realm.fresh threshold).member? i = none := rfl
    rw [hnone]
    exact Member.emptied_none.tidy

end EpochTable
