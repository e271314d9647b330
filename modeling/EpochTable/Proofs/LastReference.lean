import EpochTable.Reclaim.Collector
import Mathlib

namespace EpochTable

inductive Collector.Call where
  | leave
  | retire (entered : Nat)
  | unlink
  deriving DecidableEq

variable {α : Type} {c : Collector α} {call : Collector.Call} {rest : List Collector.Call}
  {linked : Bool} {entered : Nat}

def Collector.serve (c : Collector α) : Collector.Call → Collector α × Bool
  | .leave => c.release memberRef
  | .retire entered => c.retire (UInt64.ofNat entered)
  | .unlink => c.release backLink

def Collector.serveAll (c : Collector α) : List Collector.Call → Collector α × List Bool
  | [] => (c, [])
  | call :: rest =>
    let (c, last) := c.serve call
    let (c, answers) := c.serveAll rest
    (c, last :: answers)

/-- What a collector has to get before it is drained, if so many members are counted in it. -/
def Collector.due (linked : Bool) (entered : Nat) : List Collector.Call :=
  .retire entered :: (List.replicate linked.toNat .unlink ++ List.replicate entered .leave)

def Collector.startWord (linked : Bool) : UInt64 := if linked then idleWord else currentRef

/-- The calls of each round, and a drain after each of them. -/
def Collector.rounds (c : Collector α) : List (List Collector.Call) → Collector α × List (List Bool)
  | [] => (c, [])
  | calls :: rest =>
    let (c, answers) := c.serveAll calls
    let (c, later) := c.drain.1.rounds rest
    (c, answers :: later)

/-- In every round the collector gets what is due, in whatever order. From the second round on it is
linked to the one before it, since a drain leaves it so. -/
inductive Collector.Round : Bool → List (List Collector.Call) → Prop
  | done {linked : Bool} : Round linked []
  | next {linked : Bool} {entered : Nat} {calls : List Collector.Call}
      {rest : List (List Collector.Call)} (few : entered < 2 ^ 56)
      (order : calls.Perm (Collector.due linked entered)) (later : Round true rest) :
      Round linked (calls :: rest)

/-- The last answer, and no other one, is yes. -/
def Collector.lastOnly (calls : List Collector.Call) : List Bool :=
  List.replicate (calls.length - 1) false ++ [true]

/-- What a call takes off the word. Retiring a collector adds more than it takes off, which is the same
as to take off what is missing to the size of a word. -/
def Collector.Call.weight : Collector.Call → Nat
  | .leave => 256
  | .retire entered => 2 ^ 64 + 1 - 256 * entered
  | .unlink => 2

def Collector.Call.Fits : Collector.Call → Prop
  | .retire entered => entered < 2 ^ 56
  | _ => True

/-- The word is just what the calls to come will take off it. -/
def Collector.Owes (c : Collector α) (rest : List Collector.Call) : Prop :=
  c.word.toNat = (rest.map Collector.Call.weight).sum % 2 ^ 64

theorem Collector.toNat_serve (c : Collector α) (h : call.Fits) :
    (c.serve call).1.word.toNat = (2 ^ 64 - call.weight % 2 ^ 64 + c.word.toNat) % 2 ^ 64 := by
  cases call with
  | leave => exact UInt64.toNat_sub _ _
  | unlink => exact UInt64.toNat_sub _ _
  | retire entered =>
    have hn : entered < 2 ^ 56 := h
    have hmul : (UInt64.ofNat entered * Collector.memberRef).toNat = 256 * entered := by
      have hsize : UInt64.size = 2 ^ 64 := rfl
      have hsmall : (UInt64.ofNat entered).toNat = entered := UInt64.toNat_ofNat_of_lt' (by omega)
      have href : Collector.memberRef.toNat = 256 := rfl
      rw [UInt64.toNat_mul, hsmall, href]
      omega
    have hone : Collector.currentRef.toNat = 1 := rfl
    simp only [Collector.serve, Collector.retire, Collector.Call.weight, UInt64.toNat_add,
      UInt64.toNat_sub, hmul, hone]
    omega

theorem Collector.serve_last (c : Collector α) (call : Collector.Call) :
    (c.serve call).2 = true ↔ (c.serve call).1.word = 0 := by
  have hrelease : ∀ amount, (c.release amount).2 = true ↔ (c.release amount).1.word = 0 := by
    intro amount
    rw [Collector.release, decide_eq_true_iff, UInt64.sub_eq_iff_eq_add, UInt64.zero_add]
  cases call with
  | leave => exact hrelease _
  | unlink => exact hrelease _
  | retire entered => exact decide_eq_true_iff

theorem Collector.Owes.serve (h : c.Owes (call :: rest)) (hfits : call.Fits) :
    (c.serve call).1.Owes rest := by
  rw [Collector.Owes, List.map_cons, List.sum_cons] at h
  rw [Collector.Owes, c.toNat_serve hfits]
  omega

/-- What a list of due calls takes off, by how many there are of each kind. -/
theorem Collector.sum_due (h : ∀ call ∈ rest, call ∈ Collector.due linked entered) :
    (rest.map Collector.Call.weight).sum = 256 * rest.count .leave
      + (2 ^ 64 + 1 - 256 * entered) * rest.count (.retire entered) + 2 * rest.count .unlink := by
  induction rest with
  | nil => rfl
  | cons call rest ih =>
    obtain ⟨hcall, hrest⟩ := List.forall_mem_cons.mp h
    have hkind : call = .retire entered ∨ call = .unlink ∨ call = .leave := by
      simp only [Collector.due, List.mem_cons, List.mem_append, List.mem_replicate] at hcall
      tauto
    rw [List.map_cons, List.sum_cons, ih hrest]
    rcases hkind with rfl | rfl | rfl <;>
      simp only [Collector.Call.weight, List.count_cons, beq_iff_eq, reduceCtorEq, if_true, if_false] <;>
      ring

theorem Collector.count_due (linked : Bool) (entered : Nat) :
    (Collector.due linked entered).count .leave = entered ∧
    (Collector.due linked entered).count (.retire entered) = 1 ∧
    (Collector.due linked entered).count .unlink = linked.toNat := by
  simp [Collector.due, List.count_append, List.count_replicate]

/-- Part of what is due never comes to nothing: without the current reference and the link, which are
smaller than that of a member, only members are left, and these are too few to wrap around. -/
theorem Collector.Owes.word_eq_zero_iff (h : c.Owes rest) (few : entered < 2 ^ 56)
    (hrest : rest.Subperm (Collector.due linked entered)) : c.word = 0 ↔ rest = [] := by
  obtain ⟨hleave, hretire, hunlink⟩ := Collector.count_due linked entered
  have hlinked := linked.toNat_le
  have hleaves := hrest.count_le .leave
  have hretires := hrest.count_le (.retire entered)
  have hunlinks := hrest.count_le .unlink
  have hsum := Collector.sum_due fun _ hcall => hrest.subset hcall
  rw [← UInt64.toNat_inj, h, UInt64.toNat_zero]
  constructor
  · intro hzero
    rw [hsum] at hzero
    have hnone : rest.count (.retire entered) = 0 := by
      rcases (show rest.count (.retire entered) = 0 ∨ rest.count (.retire entered) = 1 by omega) with
        hr | hr
      · exact hr
      · rw [hr] at hzero
        omega
    rw [hnone] at hzero
    refine List.eq_nil_iff_forall_not_mem.mpr fun call hcall => ?_
    have hdue := hrest.subset hcall
    have hpos := List.count_pos_iff.mpr hcall
    simp only [Collector.due, List.mem_cons, List.mem_append, List.mem_replicate] at hdue
    rcases hdue with rfl | ⟨_, rfl⟩ | ⟨_, rfl⟩ <;> omega
  · rintro rfl
    rfl

theorem Collector.Call.fits_of_due (few : entered < 2 ^ 56)
    (h : call ∈ Collector.due linked entered) : call.Fits := by
  simp only [Collector.due, List.mem_cons, List.mem_append, List.mem_replicate] at h
  rcases h with rfl | ⟨_, rfl⟩ | ⟨_, rfl⟩
  · exact few
  · trivial
  · trivial

/-- Along the calls the word tells how much is still due, so it is zero at the end and not before. -/
theorem Collector.Owes.serveAll (h : c.Owes rest) (few : entered < 2 ^ 56)
    (hrest : rest.Subperm (Collector.due linked entered)) (hne : rest ≠ []) :
    (c.serveAll rest).2 = Collector.lastOnly rest := by
  induction rest generalizing c with
  | nil => exact absurd rfl hne
  | cons call rest ih =>
    have hlater : rest.Subperm (Collector.due linked entered) :=
      (List.sublist_cons_self call rest).subperm.trans hrest
    have howes := h.serve (Collector.Call.fits_of_due few (hrest.subset List.mem_cons_self))
    have hlast := (c.serve_last call).trans (howes.word_eq_zero_iff few hlater)
    cases rest with
    | nil =>
      have hyes := hlast.mpr rfl
      simp [Collector.serveAll, Collector.lastOnly, hyes]
    | cons next rest =>
      have hno : (c.serve call).2 = false := Bool.eq_false_iff.mpr fun hyes => by
        cases hlast.mp hyes
      have hanswers := ih howes hlater (List.cons_ne_nil next rest)
      have hsplit : (c.serveAll (call :: next :: rest)).2
          = (c.serve call).2 :: ((c.serve call).1.serveAll (next :: rest)).2 := rfl
      rw [hsplit, hno, hanswers]
      rfl

theorem Collector.owes_due (hword : c.word = Collector.startWord linked) (few : entered < 2 ^ 56)
    (order : rest.Perm (Collector.due linked entered)) : c.Owes rest := by
  obtain ⟨hleave, hretire, hunlink⟩ := Collector.count_due linked entered
  rw [Collector.Owes, hword, Collector.sum_due fun _ hcall => order.subset hcall, order.count_eq,
    order.count_eq, order.count_eq, hleave, hretire, hunlink]
  cases linked with
  | false =>
    have hone : (Collector.startWord false).toNat = 1 := rfl
    rw [hone, Bool.toNat_false]
    omega
  | true =>
    have hthree : (Collector.startWord true).toNat = 3 := rfl
    rw [hthree, Bool.toNat_true]
    omega

theorem Collector.rounds_answers {rounds : List (List Collector.Call)}
    (h : Collector.Round linked rounds) (hword : c.word = Collector.startWord linked) :
    (c.rounds rounds).2 = rounds.map Collector.lastOnly := by
  induction h generalizing c with
  | done => rfl
  | @next linked entered calls rest few order later ih =>
    have hne : calls ≠ [] := fun hnil => by
      have hlength := order.length_eq
      rw [hnil] at hlength
      cases hlength
    have hfirst := (Collector.owes_due hword few order).serveAll few order.subperm hne
    have hlater := ih (c := (c.serveAll calls).1.drain.1) rfl
    have hsplit : (c.rounds (calls :: rest)).2
        = (c.serveAll calls).2 :: ((c.serveAll calls).1.drain.1.rounds rest).2 := rfl
    rw [hsplit, hfirst, hlater]
    rfl

/-- A new collector, the first one of a ring or not, and one that was drained, whatever it held before:
in each of any number of rounds, in whatever order the members leave, the collector is retired and the
one before it lets go of it, the last of these calls is told to drain and none before it. -/
theorem Collector.last_reference_drains :
    (∀ (first : Bool) (rounds : List (List Collector.Call)), Collector.Round (!first) rounds →
      ((Collector.fresh first : Collector α).rounds rounds).2 = rounds.map Collector.lastOnly) ∧
    ∀ (c : Collector α) (rounds : List (List Collector.Call)), Collector.Round true rounds →
      (c.drain.1.rounds rounds).2 = rounds.map Collector.lastOnly := by
  refine ⟨fun first rounds h => Collector.rounds_answers h ?_,
    fun c rounds h => Collector.rounds_answers h rfl⟩
  cases first <;> rfl

/-- The first collector of a ring. Two members leave before it is retired, so that its member count lies
below zero; in the next round it is retired with nobody counted, and let go of at last. -/
theorem Collector.last_reference_drains_below :
    let rounds : List (List Collector.Call) :=
      [[.leave, .leave, .retire 3, .leave], [.leave, .retire 1, .unlink]]
    Collector.Round false rounds ∧ ((Collector.fresh true : Collector Unit).serveAll
        [.leave, .leave]).1.word = 0 - 511 ∧
      ((Collector.fresh true : Collector Unit).rounds rounds).2
        = [[false, false, false, true], [false, false, true]] := by
  intro rounds
  have hrounds : Collector.Round false rounds :=
    .next (show 3 < 2 ^ 56 by decide) (by decide)
      (.next (show 1 < 2 ^ 56 by decide) (by decide) .done)
  exact ⟨hrounds, by decide +kernel, Collector.last_reference_drains.1 true rounds hrounds⟩

end EpochTable
