import EpochTable.Waiter
import Mathlib

namespace EpochTable

variable {w : Waiter} {policy : WaitPolicy} {n : Nat}

/-- What the policy says about an attempt that has `n` others before it. -/
def WaitPolicy.actionAt (policy : WaitPolicy) (n : Nat) : WaitAction :=
  if n < policy.spinLimit.toNat then .spin
  else if n < policy.spinLimit.toNat + policy.yieldLimit.toNat then .yield
  else .sleep

theorem WaitPolicy.actionAt_spin (h : n < policy.spinLimit.toNat) : policy.actionAt n = .spin := by
  rw [WaitPolicy.actionAt, if_pos h]

theorem WaitPolicy.actionAt_yield (h : policy.spinLimit.toNat ≤ n)
    (h' : n < policy.spinLimit.toNat + policy.yieldLimit.toNat) : policy.actionAt n = .yield := by
  rw [WaitPolicy.actionAt, if_neg (Nat.not_lt.mpr h), if_pos h']

theorem WaitPolicy.actionAt_sleep (h : policy.spinLimit.toNat + policy.yieldLimit.toNat ≤ n) :
    policy.actionAt n = .sleep := by
  rw [WaitPolicy.actionAt, if_neg (by omega), if_neg (by omega)]

/-- The number of attempts since the last reset, if there were `n` before. -/
def Waiter.Step.attempts (n : Nat) : List Waiter.Step → Nat
  | [] => n
  | .wait :: rest => attempts (n + 1) rest
  | .reset :: rest => attempts 0 rest

def Waiter.after (w : Waiter) : List Waiter.Step → Waiter
  | [] => w
  | .wait :: rest => w.wait.2.after rest
  | .reset :: rest => w.reset.after rest

def Waiter.largestCount : Nat := 4294967295

/-- The waiter has counted `n` attempts, or as many of them as it can count. -/
structure Waiter.Counts (w : Waiter) (policy : WaitPolicy) (n : Nat) : Prop where
  policy : w.policy = policy
  attempt : w.attempt.toNat = min n Waiter.largestCount

theorem Waiter.counts_fresh (policy : WaitPolicy) : (Waiter.fresh policy).Counts policy 0 :=
  ⟨rfl, (Nat.zero_min _).symm⟩

theorem Waiter.Counts.wait (h : w.Counts policy n) : w.wait.2.Counts policy (n + 1) := by
  have hcount := h.attempt
  have hlargest : Waiter.largestCount = 4294967295 := rfl
  have hend : w.attempt = 4294967295 ↔ w.attempt.toNat = 4294967295 := UInt32.toNat_inj.symm
  unfold Waiter.wait
  simp only
  split
  next hfull => exact ⟨h.policy, by rw [hend] at hfull; omega⟩
  next hroom =>
    refine ⟨h.policy, ?_⟩
    rw [hend] at hroom
    show (w.attempt + 1).toNat = _
    have hone : (1 : UInt32).toNat = 1 := rfl
    rw [UInt32.toNat_add, hone]
    omega

theorem Waiter.Counts.reset (h : w.Counts policy n) : w.reset.Counts policy 0 :=
  ⟨h.policy, (Nat.zero_min _).symm⟩

theorem Waiter.Counts.after (h : w.Counts policy n) (steps : List Waiter.Step) :
    (w.after steps).Counts policy (Waiter.Step.attempts n steps) := by
  induction steps generalizing w n with
  | nil => exact h
  | cons step steps ih =>
    cases step with
    | wait => exact ih h.wait
    | reset => exact ih h.reset

/-- The next action is the one for the attempts counted. -/
theorem Waiter.Counts.next (h : w.Counts policy n) :
    w.next = policy.actionAt (min n Waiter.largestCount) := by
  obtain rfl := h.policy
  rw [← h.attempt, Waiter.next, WaitPolicy.actionAt]
  simp only [UInt32.lt_iff_toNat_lt]
  split
  next => rfl
  next hspun =>
    have hsub : (w.attempt - w.policy.spinLimit).toNat
        = w.attempt.toNat - w.policy.spinLimit.toNat :=
      UInt32.toNat_sub_of_le _ _ (UInt32.le_iff_toNat_le.mpr (Nat.not_lt.mp hspun))
    have hyields : (w.attempt - w.policy.spinLimit).toNat < w.policy.yieldLimit.toNat ↔
        w.attempt.toNat < w.policy.spinLimit.toNat + w.policy.yieldLimit.toNat := by
      rw [hsub]
      omega
    simp only [hyields]

theorem Waiter.length_run (w : Waiter) (steps : List Waiter.Step) :
    (w.run steps).length = steps.length := by
  induction steps generalizing w with
  | nil => rfl
  | cons step steps ih =>
    cases step with
    | wait => rw [Waiter.run, List.length_cons, ih, List.length_cons]
    | reset => rw [Waiter.run, List.length_cons, ih, List.length_cons]

theorem Waiter.run_append (w : Waiter) (before after : List Waiter.Step) :
    w.run (before ++ after) = w.run before ++ (w.after before).run after := by
  induction before generalizing w with
  | nil => rfl
  | cons step before ih =>
    cases step with
    | wait => rw [List.cons_append, Waiter.run, ih, Waiter.run, Waiter.after, List.cons_append]
    | reset => rw [List.cons_append, Waiter.run, ih, Waiter.run, Waiter.after, List.cons_append]

theorem Waiter.run_getElem?_wait (policy : WaitPolicy) (before after : List Waiter.Step) :
    ((Waiter.fresh policy).run (before ++ .wait :: after))[before.length]?
      = some (some (policy.actionAt (min (Waiter.Step.attempts 0 before) Waiter.largestCount))) := by
  have hcounts := (Waiter.counts_fresh policy).after before
  rw [Waiter.run_append, List.getElem?_append_right (Nat.le_of_eq (Waiter.length_run _ _)),
    Waiter.length_run, Nat.sub_self, Waiter.run, List.getElem?_cons_zero, hcounts.next]

/-- An attempt that has `n` others before it since the last reset spins if `n` is below the first limit,
and yields if it is below the sum of both. From there on the waiter sleeps if this sum is a 32-bit number,
and yields for ever if it is not. So it does what the policy says exactly if `n` is below the sum or the
sum is a 32-bit number. -/
theorem Waiter.escalates_within_count (policy : WaitPolicy) (before after : List Waiter.Step) :
    let n := Waiter.Step.attempts 0 before
    let limit := policy.spinLimit.toNat + policy.yieldLimit.toNat
    ∃ action, ((Waiter.fresh policy).run (before ++ .wait :: after))[before.length]?
        = some (some action) ∧
      (n < policy.spinLimit.toNat → action = .spin) ∧
      (policy.spinLimit.toNat ≤ n → n < limit → action = .yield) ∧
      (limit ≤ n → action = if limit < 2 ^ 32 then .sleep else .yield) ∧
      (action = policy.actionAt n ↔ n < limit ∨ limit < 2 ^ 32) := by
  intro n limit
  have hlargest : Waiter.largestCount = 2 ^ 32 - 1 := by decide
  have hbound : policy.spinLimit.toNat < 2 ^ 32 := policy.spinLimit.toNat_lt
  have hlimit : limit = policy.spinLimit.toNat + policy.yieldLimit.toNat := rfl
  have hspin (h : n < policy.spinLimit.toNat) :
      policy.actionAt (min n Waiter.largestCount) = .spin :=
    WaitPolicy.actionAt_spin (by omega)
  have hyield (h : policy.spinLimit.toNat ≤ n) (h' : n < limit) :
      policy.actionAt (min n Waiter.largestCount) = .yield :=
    WaitPolicy.actionAt_yield (by omega) (by omega)
  have hlast (h : limit ≤ n) :
      policy.actionAt (min n Waiter.largestCount) = if limit < 2 ^ 32 then .sleep else .yield := by
    split
    next hfits => exact WaitPolicy.actionAt_sleep (by omega)
    next hover => exact WaitPolicy.actionAt_yield (by omega) (by omega)
  refine ⟨_, Waiter.run_getElem?_wait policy before after, hspin, hyield, hlast, ?_⟩
  rcases Nat.lt_or_ge n limit with hn | hn
  · refine iff_of_true ?_ (.inl hn)
    rcases Nat.lt_or_ge n policy.spinLimit.toNat with hs | hs
    · rw [WaitPolicy.actionAt_spin hs]
      exact hspin hs
    · rw [WaitPolicy.actionAt_yield hs hn]
      exact hyield hs hn
  · have hrest : n < limit ∨ limit < 2 ^ 32 ↔ limit < 2 ^ 32 := or_iff_right (Nat.not_lt.mpr hn)
    have hsays : policy.actionAt n = .sleep := WaitPolicy.actionAt_sleep hn
    have hdoes : policy.actionAt (min n Waiter.largestCount)
        = if limit < 2 ^ 32 then .sleep else .yield := hlast hn
    rw [hrest, hsays, hdoes]
    split
    next hfits => exact iff_of_true rfl hfits
    next hover => exact iff_of_false (fun h => nomatch h) hover

theorem Waiter.Step.attempts_replicate (n k : Nat) :
    Waiter.Step.attempts n (List.replicate k .wait) = n + k := by
  induction k generalizing n with
  | zero => rfl
  | succ k ih =>
    rw [List.replicate_succ, Waiter.Step.attempts, ih]
    omega

/-- The actions of a waiter that is never reset. -/
theorem Waiter.run_replicate (policy : WaitPolicy) (n : Nat) (after : List Waiter.Step) :
    ((Waiter.fresh policy).run (List.replicate n .wait ++ .wait :: after))[n]?
      = some (some (policy.actionAt (min n Waiter.largestCount))) := by
  have hwait := Waiter.run_getElem?_wait policy (List.replicate n .wait) after
  rwa [List.length_replicate, Waiter.Step.attempts_replicate, Nat.zero_add] at hwait

/-- With the limits `2 ^ 32 - 1` and one, `2 ^ 32` attempts have gone through both, but the waiter still
yields. -/
theorem Waiter.escalation_stops_short :
    ((Waiter.fresh ⟨4294967295, 1, 0⟩).run (List.replicate (2 ^ 32) .wait ++ [.wait]))[2 ^ 32]?
        = some (some .yield) ∧
      Waiter.Step.attempts 0 (List.replicate (2 ^ 32) .wait) = 2 ^ 32 ∧
      (⟨4294967295, 1, 0⟩ : WaitPolicy).actionAt (2 ^ 32) = .sleep := by
  refine ⟨?_, ?_, by decide⟩
  · rw [Waiter.run_replicate]
    have hyield : (⟨4294967295, 1, 0⟩ : WaitPolicy).actionAt (min (2 ^ 32) Waiter.largestCount)
        = .yield := by decide
    rw [hyield]
  · rw [Waiter.Step.attempts_replicate, Nat.zero_add]

end EpochTable
