import EpochTable.Reclaim.Activity
import Mathlib

namespace EpochTable

structure Chronicle where
  /-- The advances so far, which is the generation that is current. -/
  generation : Nat
  /-- The drains that have ended, which is the oldest generation not drained yet. -/
  ended : Nat
  /-- The counted members, each with the generation in which it entered. -/
  roster : List (Nat × Nat)
  /-- The nodes deferred, in order. -/
  deferred : List Node
  /-- The nodes handed over in each generation: batches in their order, the nodes of a batch in the
  order in which they were deferred. -/
  flushed : Nat → List Node
  /-- The nodes that ran, in order. -/
  ran : List Node

def Chronicle.empty : Chronicle := ⟨0, 0, [], [], fun _ => [], []⟩

def Chronicle.record (c : Chronicle) : Event → Chronicle
  | .joined i _ => { c with roster := (i, c.generation) :: c.roster }
  | .left i _ => { c with roster := c.roster.filter fun p => p.1 ≠ i }
  | .deferred _ node => { c with deferred := c.deferred ++ [node] }
  | .flushed _ nodes =>
    { c with flushed := fun g =>
        if g = c.generation then c.flushed g ++ nodes.reverse else c.flushed g }
  | .advanced _ => { c with generation := c.generation + 1 }
  | .ran node => { c with ran := c.ran ++ [node] }
  | .drainEnded _ _ => { c with ended := c.ended + 1 }
  | .overtaken _ | .refused _ | .drainBegan _ => c

def Chronicle.after (c : Chronicle) (events : List Event) : Chronicle := events.foldl record c

def Chronicle.of (journal : List Event) : Chronicle := empty.after journal

def Chronicle.counted (c : Chronicle) : List Nat := c.roster.map Prod.fst

/-- How many of the members that entered in a generation are still counted. -/
def Chronicle.crowd (c : Chronicle) (g : Nat) : Nat := c.roster.countP fun p => p.2 = g

/-- The nodes of the first `n` generations in the order in which they are to run: generation after
generation, and of each the last node first. -/
def Chronicle.inOrder (c : Chronicle) (n : Nat) : List Node :=
  (List.range n).flatMap fun g => (c.flushed g).reverse

/-- Never are so many members counted that a collector's word could not tell. -/
def Event.Sparse (journal : List Event) : Prop :=
  ∀ past, past <+: journal → (Chronicle.of past).counted.length < 2 ^ 56

@[simp] theorem Chronicle.after_nil (c : Chronicle) : c.after [] = c := rfl

@[simp] theorem Chronicle.after_cons (c : Chronicle) (e : Event) (events : List Event) :
    c.after (e :: events) = (c.record e).after events := rfl

theorem Chronicle.after_append (c : Chronicle) (first later : List Event) :
    c.after (first ++ later) = (c.after first).after later :=
  List.foldl_append

theorem Chronicle.of_append (first later : List Event) :
    Chronicle.of (first ++ later) = (Chronicle.of first).after later :=
  Chronicle.after_append _ _ _

theorem Chronicle.inOrder_succ (c : Chronicle) (n : Nat) :
    c.inOrder (n + 1) = c.inOrder n ++ (c.flushed n).reverse := by
  simp [inOrder, List.range_succ]

theorem Chronicle.inOrder_congr {c d : Chronicle} {n : Nat}
    (h : ∀ g, g < n → d.flushed g = c.flushed g) : d.inOrder n = c.inOrder n := by
  refine List.flatMap_congr fun g hg => ?_
  rw [h g (List.mem_range.mp hg)]

theorem Event.Sparse.of_prefix {first journal : List Event} (h : Event.Sparse journal)
    (hp : first <+: journal) : Event.Sparse first :=
  fun _ hh => h _ (hh.trans hp)

theorem Event.Sparse.left {first later : List Event} (h : Event.Sparse (first ++ later)) :
    Event.Sparse first :=
  h.of_prefix (List.prefix_append _ _)

theorem Event.Sparse.self {journal : List Event} (h : Event.Sparse journal) :
    (Chronicle.of journal).roster.length < 2 ^ 56 := by
  have hh := h journal List.prefix_rfl
  rwa [Chronicle.counted, List.length_map] at hh

theorem Chronicle.length_roster_after (c : Chronicle) (events : List Event) :
    (c.after events).roster.length ≤ c.roster.length + events.length := by
  induction events generalizing c with
  | nil => exact Nat.le_refl _
  | cons e later ih =>
    have hlater := ih (c.record e)
    have hone : (c.record e).roster.length ≤ c.roster.length + 1 := by
      cases e with
      | joined i seat => exact Nat.le_refl _
      | left i seat => exact Nat.le_succ_of_le (List.length_filter_le _ _)
      | _ => exact Nat.le_succ _
    rw [Chronicle.after_cons, List.length_cons]
    omega

/-- Too many members are never counted before that many events have happened. -/
theorem Event.sparse_of_length {journal : List Event} (h : journal.length < 2 ^ 56) :
    Event.Sparse journal := by
  intro past hp
  have hlength := Chronicle.empty.length_roster_after past
  have hempty : Chronicle.empty.roster.length = 0 := rfl
  have hpast := hp.length_le
  rw [Chronicle.counted, List.length_map, Chronicle.of]
  omega

variable {c : Chronicle} {journal : List Event} {node : Node} {i g : Nat}

theorem Chronicle.le_generation_after (c : Chronicle) (journal : List Event) :
    c.generation ≤ (c.after journal).generation := by
  induction journal generalizing c with
  | nil => exact Nat.le_refl _
  | cons e later ih =>
    refine Nat.le_trans ?_ (ih (c.record e))
    cases e with
    | advanced seat => exact Nat.le_succ _
    | _ => exact Nat.le_refl _

/-- The generation is still the same exactly if nothing has advanced. -/
theorem Chronicle.generation_after (c : Chronicle) (journal : List Event) :
    (c.after journal).generation = c.generation ↔ ∀ seat, .advanced seat ∉ journal := by
  induction journal generalizing c with
  | nil => simp
  | cons e later ih =>
    cases e with
    | advanced seat =>
      have hle := (c.record (.advanced seat)).le_generation_after later
      change c.generation + 1 ≤ _ at hle
      refine iff_of_false ?_ fun h => h seat List.mem_cons_self
      rw [Chronicle.after_cons]
      omega
    | _ => simpa [Chronicle.record] using ih _

theorem Chronicle.flushed_after (h : node ∈ c.flushed g) (journal : List Event) :
    node ∈ (c.after journal).flushed g := by
  induction journal generalizing c with
  | nil => exact h
  | cons e later ih =>
    apply ih
    cases e with
    | flushed seat nodes =>
      simp only [Chronicle.record]
      split
      · exact List.mem_append_left _ h
      · exact h
    | _ => exact h

theorem Chronicle.mem_flushed {before after : List Event} {seat : Seat} {nodes : List Node}
    (hnode : node ∈ nodes) : node ∈ (Chronicle.of (before ++ .flushed seat nodes :: after)).flushed
      (Chronicle.of before).generation := by
  rw [Chronicle.of_append, Chronicle.after_cons]
  refine Chronicle.flushed_after ?_ after
  simp [Chronicle.record, hnode]

/-- A node belongs to a generation because a batch with it was handed over while that was current. -/
theorem Chronicle.exists_flushed (h : node ∈ (c.after journal).flushed g) :
    node ∈ c.flushed g ∨ ∃ before seat nodes after, journal = before ++ .flushed seat nodes :: after ∧
      node ∈ nodes ∧ (c.after before).generation = g := by
  induction journal generalizing c with
  | nil => exact .inl h
  | cons e later ih =>
    rcases ih h with hrecord | ⟨before, seat, nodes, after, rfl, hnode, hg⟩
    · cases e with
      | flushed seat nodes =>
        simp only [Chronicle.record] at hrecord
        split at hrecord
        next heq =>
          rcases List.mem_append.mp hrecord with hold | hnew
          · exact .inl hold
          · exact .inr ⟨[], seat, nodes, later, rfl, List.mem_reverse.mp hnew, heq.symm⟩
        next => exact .inl hrecord
      | _ => exact .inl hrecord
    · exact .inr ⟨e :: before, seat, nodes, after, rfl, hnode, hg⟩

theorem Chronicle.mem_ran_after : node ∈ (c.after journal).ran ↔ node ∈ c.ran ∨ .ran node ∈ journal := by
  induction journal generalizing c with
  | nil => simp
  | cons e later ih =>
    rw [Chronicle.after_cons, ih]
    cases e <;> simp [Chronicle.record, or_assoc]

theorem Chronicle.deferred_mono (c : Chronicle) (e : Event) (h : node ∈ c.deferred) :
    node ∈ (c.record e).deferred := by
  cases e with
  | deferred i other => exact List.mem_append_left _ h
  | _ => exact h

theorem Chronicle.deferred_after (h : node ∈ c.deferred) (journal : List Event) :
    node ∈ (c.after journal).deferred := by
  induction journal generalizing c with
  | nil => exact h
  | cons e later ih => exact ih (c.deferred_mono e h)

theorem Chronicle.mem_deferred (h : .deferred i node ∈ journal) :
    node ∈ (Chronicle.of journal).deferred := by
  obtain ⟨before, after, rfl⟩ := List.append_of_mem h
  rw [Chronicle.of_append, Chronicle.after_cons]
  refine Chronicle.deferred_after ?_ after
  simp [Chronicle.record]

end EpochTable
