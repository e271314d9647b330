import EpochTable.Proofs.TableSizes

namespace EpochTable

variable {t t' t'' : Table} {e : Entry} {update : Bool} {stored : Stored Bool} {retired later : List Job}

/-- Whenever the number of cells has changed, the block that had the old number was retired. -/
def Table.Retires (t t' : Table) (retired : List Job) : Prop :=
  t'.block.cellCount ≠ t.block.cellCount → .discard t.block.cellCount ∈ retired

theorem Table.Alike.retires (h : t.Alike t') (retired : List Job) : t.Retires t' retired :=
  fun hne => absurd h.cells hne

theorem Table.retires_grow {stored : Stored Unit} (h : t.grow = some stored) :
    t.Retires stored.table stored.retired := by
  unfold Table.grow at h
  split at h
  next => cases h
  next =>
    obtain ⟨replaced, hreplace, rfl⟩ := Option.map_eq_some_iff.mp h
    have hlocked : t.block.lockAll.cellCount = t.block.cellCount := Array.size_map ..
    have hunlocked : t.block.lockAll.forceUnlockAll.cellCount = t.block.cellCount :=
      (Array.size_map ..).trans hlocked
    unfold Table.replaceBlock at hreplace
    split at hreplace
    next => cases hreplace
    next =>
      simp only at hreplace
      split at hreplace
      next =>
        cases Option.some.inj hreplace
        exact fun hne => absurd hunlocked hne
      next =>
        cases Option.some.inj hreplace
        intro _
        exact hlocked ▸ List.mem_cons_self

/-- The tables that a storing call passes through: whenever an attempt finds no room, the block is
replaced and the next attempt starts from there. -/
inductive Table.Passes (e : Entry) (update : Bool) : Table → Table → List Job → Prop where
  | start (t : Table) : Passes e update t t []
  | grown {t full t' t'' : Table} {retired later : List Job}
      (attempt : t.attempt e update = .full full)
      (grow : full.grow = some ⟨.ok (), t', retired⟩) (rest : Passes e update t' t'' later) :
      Passes e update t t'' (retired ++ later)

/-- The attempt that ends a storing call: the entry is stored, or was there, or the growth that it needs
fails. -/
inductive Table.Settles (t : Table) (e : Entry) (update : Bool) : Stored Bool → Prop where
  | done (inserted : Bool) (t' : Table) (attempt : t.attempt e update = .done inserted t') :
      Settles t e update ⟨.ok inserted, t', []⟩
  | failed (fault : Fault) (full t' : Table) (retired : List Job)
      (attempt : t.attempt e update = .full full)
      (grow : full.grow = some ⟨.error fault, t', retired⟩) :
      Settles t e update ⟨.error fault, t', retired⟩

/-- A storing call grows the table some times, and then it settles. -/
theorem Table.exists_passes {rounds : Nat} (h : t.storeWithin e update rounds = some stored) :
    ∃ last retired final, t.Passes e update last retired ∧ last.Settles e update final ∧
      stored = { final with retired := retired ++ final.retired } := by
  induction rounds generalizing t stored with
  | zero => cases h
  | succ rounds ih =>
    unfold Table.storeWithin at h
    split at h
    next => cases h
    next hattempt =>
      cases Option.some.inj h
      exact ⟨t, [], _, .start t, .done _ _ hattempt, rfl⟩
    next hattempt =>
      split at h
      next => cases h
      next hgrow =>
        cases Option.some.inj h
        exact ⟨t, [], _, .start t, .failed _ _ _ _ hattempt hgrow, rfl⟩
      next hgrow =>
        obtain ⟨rest, hrest, rfl⟩ := Option.map_eq_some_iff.mp h
        obtain ⟨last, retired, final, hpasses, hsettles, rfl⟩ := ih hrest
        refine ⟨last, _, final, .grown hattempt hgrow hpasses, hsettles, ?_⟩
        rw [List.append_assoc]

theorem Table.Retires.trans (h : t.Retires t' retired) (h' : t'.Retires t'' later) :
    t.Retires t'' (retired ++ later) := by
  intro hne
  by_cases hsame : t'.block.cellCount = t.block.cellCount
  · rw [Table.Retires, hsame] at h'
    exact List.mem_append_right _ (h' hne)
  · exact List.mem_append_left _ (h hsame)

/-- A growth after an attempt that found no room. -/
theorem Table.retires_full {full : Table} {grown : Stored Unit}
    (attempt : t.attempt e update = .full full) (grow : full.grow = some grown) :
    t.Retires grown.table grown.retired := by
  have halike : t.Alike full := Table.alike_attempt (by rw [attempt]; rfl)
  have hretires := Table.retires_grow grow
  rwa [Table.Retires, halike.cells] at hretires

theorem Table.Passes.retires (h : t.Passes e update t' retired) : t.Retires t' retired := by
  induction h with
  | start t => exact (Table.Alike.refl t).retires []
  | grown attempt grow _ ih => exact (Table.retires_full attempt grow).trans ih

theorem Table.Settles.retires (h : t.Settles e update stored) : t.Retires stored.table stored.retired := by
  cases h with
  | done inserted t' attempt =>
    have halike : t.Alike t' := Table.alike_attempt (by rw [attempt]; rfl)
    exact halike.retires []
  | failed fault full t' retired attempt grow => exact Table.retires_full attempt grow

theorem Table.retires_store (h : t.store e update = some stored) :
    t.Retires stored.table stored.retired := by
  obtain ⟨last, retired, final, hpasses, hsettles, rfl⟩ := Table.exists_passes h
  exact hpasses.retires.trans hsettles.retires

theorem Table.retires_call {call : Call} {done : Finished} (h : t.call call = some done) :
    t.Retires done.table done.retired := by
  rcases Table.alike_call h with ⟨e, update, stored, hstored, rfl⟩ | ⟨halike, _⟩
  · exact Table.retires_store hstored
  · exact halike.retires _

end EpochTable
