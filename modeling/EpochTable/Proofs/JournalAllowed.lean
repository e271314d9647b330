import EpochTable.Proofs.Chronicle

namespace EpochTable

variable {c : Chronicle} {journal first later : List Event} {i j g : Nat} {node : Node}

/-- A counted member defers a new node; what is handed over has been deferred before, in this order;
and what runs was handed over in the oldest generation, of which nobody is left. -/
def Event.Allowed (c : Chronicle) : Event → Prop
  | .deferred i node => i ∈ c.counted ∧ node ∉ c.deferred
  | .flushed _ nodes =>
    (∀ node ∈ nodes, node ∈ c.deferred) ∧ (nodes.map Node.ticket).Pairwise (· > ·)
  | .ran node => node ∈ c.flushed c.ended ∧ ∀ p ∈ c.roster, c.ended < p.2
  | _ => True

def Chronicle.Allows (c : Chronicle) : List Event → Prop
  | [] => True
  | e :: later => e.Allowed c ∧ (c.record e).Allows later

/-- A node runs only after every member has left that was counted when the node was deferred; the one
that deferred it was. -/
def Event.Guarded (journal : List Event) : Prop :=
  ∀ before i node middle after,
    journal = before ++ .deferred i node :: (middle ++ .ran node :: after) →
    i ∈ (Chronicle.of before).counted ∧
      ∀ j ∈ (Chronicle.of before).counted, ∃ seat, .left j seat ∈ middle

theorem Chronicle.allows_append :
    c.Allows (first ++ later) ↔ c.Allows first ∧ (c.after first).Allows later := by
  induction first generalizing c with
  | nil => simp [Chronicle.Allows]
  | cons e first ih => simp [Chronicle.Allows, ih, and_assoc]

/-- Facts that every allowed history keeps: what was handed over had been deferred, and nobody entered
in a generation to come. -/
structure Chronicle.Ordinary (c : Chronicle) : Prop where
  flushed : ∀ g, ∀ node ∈ c.flushed g, node ∈ c.deferred
  roster : ∀ p ∈ c.roster, p.2 ≤ c.generation

theorem Chronicle.ordinary_empty : Chronicle.empty.Ordinary :=
  ⟨fun _ => List.forall_mem_nil _, List.forall_mem_nil _⟩

theorem Chronicle.Ordinary.record (h : c.Ordinary) {e : Event} (ha : e.Allowed c) :
    (c.record e).Ordinary := by
  cases e with
  | joined i seat =>
    refine ⟨h.flushed, ?_⟩
    intro p hp
    rcases List.mem_cons.mp hp with rfl | hp
    · exact Nat.le_refl _
    · exact h.roster p hp
  | left i seat => exact ⟨h.flushed, fun p hp => h.roster p (List.mem_filter.mp hp).1⟩
  | deferred i other =>
    exact ⟨fun g node hnode => List.mem_append_left _ (h.flushed g node hnode), h.roster⟩
  | flushed seat nodes =>
    refine ⟨?_, h.roster⟩
    intro g node hnode
    simp only [Chronicle.record] at hnode
    split at hnode
    · rcases List.mem_append.mp hnode with hold | hnew
      · exact h.flushed g node hold
      · exact ha.1 node (List.mem_reverse.mp hnew)
    · exact h.flushed g node hnode
  | advanced seat => exact ⟨h.flushed, fun p hp => Nat.le_succ_of_le (h.roster p hp)⟩
  | _ => exact ⟨h.flushed, h.roster⟩

theorem Chronicle.Ordinary.after (h : c.Ordinary) (ha : c.Allows journal) :
    (c.after journal).Ordinary := by
  induction journal generalizing c with
  | nil => exact h
  | cons e later ih => exact ih (h.record ha.1) ha.2

/-- The node, deferred in generation `g`, can only be handed over in that one or a later one. -/
def Chronicle.Holds (c : Chronicle) (node : Node) (g : Nat) : Prop :=
  g ≤ c.generation ∧ ∀ f, node ∈ c.flushed f → g ≤ f

theorem Chronicle.Holds.record (h : c.Holds node g) (e : Event) : (c.record e).Holds node g := by
  cases e with
  | advanced seat => exact ⟨Nat.le_succ_of_le h.1, h.2⟩
  | flushed seat nodes =>
    refine ⟨h.1, ?_⟩
    intro f hf
    simp only [Chronicle.record] at hf
    split at hf
    next he =>
      rw [he]
      exact h.1
    next => exact h.2 f hf
  | _ => exact h

theorem Chronicle.Holds.after (h : c.Holds node g) (journal : List Event) :
    (c.after journal).Holds node g := by
  induction journal generalizing c with
  | nil => exact h
  | cons e later ih => exact ih (h.record e)

theorem Chronicle.mem_roster_after (h : (j, g) ∈ c.roster)
    (hstay : ∀ seat, .left j seat ∉ journal) : (j, g) ∈ (c.after journal).roster := by
  induction journal generalizing c with
  | nil => exact h
  | cons e later ih =>
    apply ih
    · cases e with
      | joined i seat => exact List.mem_cons_of_mem _ h
      | left i seat =>
        have hne : j ≠ i := fun he => hstay seat (he ▸ List.mem_cons_self)
        exact List.mem_filter.mpr ⟨h, by simpa using hne⟩
      | _ => exact h
    · exact fun seat hmem => hstay seat (List.mem_cons_of_mem _ hmem)

theorem Event.guarded_of_allows (h : Chronicle.empty.Allows journal) : Event.Guarded journal := by
  rintro before i node middle after rfl
  obtain ⟨hbefore, ⟨hi, hnew⟩, hrest⟩ := Chronicle.allows_append.mp h
  obtain ⟨_, ⟨hran, holdest⟩, _⟩ := Chronicle.allows_append.mp hrest
  have hordinary : (Chronicle.of before).Ordinary := Chronicle.ordinary_empty.after hbefore
  refine ⟨hi, ?_⟩
  intro j hj
  -- Whoever stayed entered no later than the node was handed over, but the node ran only after
  -- everybody of that generation and of all earlier ones had left.
  by_contra hnever
  obtain ⟨⟨k, entered⟩, hp, rfl⟩ := List.mem_map.mp hj
  have hentered := hordinary.roster _ hp
  have hholds : ((Chronicle.of before).record (.deferred i node)).Holds node
      (Chronicle.of before).generation :=
    ⟨Nat.le_refl _, fun f hf => absurd (hordinary.flushed f node hf) hnew⟩
  have hlate := (hholds.after middle).2 _ hran
  have hstays : (k, entered) ∈ (((Chronicle.of before).record (.deferred i node)).after middle).roster :=
    Chronicle.mem_roster_after hp fun seat hmem => hnever ⟨seat, hmem⟩
  have hyoung := holdest _ hstays
  simp only at hentered hyoung
  omega

end EpochTable
