import EpochTable.Proofs.Storing
import EpochTable.Store

namespace EpochTable

variable {t t' : Table} {d : Dict} {q : Query} {call : Call}

/-- The call may answer so on this dictionary, and leaves that one behind. -/
inductive Dict.Answers (d : Dict) : Call → CallResult → Dict → Prop where
  | inserted (e : Entry) (h : e.key ∉ d) :
      Answers d (.insert e) (.flag true) (d.insert e.key e.value)
  | kept (e : Entry) (h : e.key ∈ d) : Answers d (.insert e) (.flag false) d
  | added (e : Entry) (h : e.key ∉ d) :
      Answers d (.upsert e) (.flag true) (d.insert e.key e.value)
  | overwritten (e : Entry) (h : e.key ∈ d) :
      Answers d (.upsert e) (.flag false) (d.insert e.key e.value)
  | insertRefused (e : Entry) (fault : Fault) (h : e.key ∉ d) :
      Answers d (.insert e) (.fault fault) d
  | upsertRefused (e : Entry) (fault : Fault) (h : e.key ∉ d) :
      Answers d (.upsert e) (.fault fault) d
  | find (q : Query) : Answers d (.find q) (.value (d.lookup q.key)) d
  | contains (q : Query) : Answers d (.contains q) (.flag (decide (q.key ∈ d))) d
  | removed (q : Query) (h : q.key ∈ d) : Answers d (.remove q) (.flag true) (d.erase q.key)
  | missing (q : Query) (h : q.key ∉ d) : Answers d (.remove q) (.flag false) d
  | held (q : Query) (hold : Hold) (h : d.lookup q.key = some hold.value) :
      Answers d (.hold q) (.held (some hold)) d
  | notHeld (q : Query) (h : q.key ∉ d) : Answers d (.hold q) (.held none) d
  | len : Answers d .len (.number d.keys.card) d
  | isEmpty : Answers d .isEmpty (.flag (decide (d.keys.card = 0))) d
  | cellCount (n : Nat) : Answers d .cellCount (.number n) d
  | capacity (n : Nat) : Answers d .capacity (.number n) d

/-- The call finds no room for its entry. -/
def Table.MustGrow (t : Table) (d : Dict) : Call → Prop
  | .insert e | .upsert e => t.Crowded d e.key
  | _ => False

/-- The cells a call cannot do without: the one of its key, and all of them to count the entries or
to grow. -/
def Table.Needs (t : Table) (d : Dict) (i : Nat) : Call → Prop
  | .insert e | .upsert e =>
    i = t.block.indexOf (t.hash e.key) ∨ t.Crowded d e.key ∧ i < t.block.cellCount
  | .remove q | .hold q => i = t.indexOf q
  | .len | .isEmpty => i < t.block.cellCount
  | .find _ | .contains _ | .cellCount | .capacity => False

inductive Table.Called (t : Table) (d : Dict) : Call → Option Finished → Prop where
  | waits (call : Call) (i : Nat) (needs : t.Needs d i call) (locked : t.block.isLockedAt i = true) :
      Called t d call none
  | done (call : Call) (fin : Finished) (d' : Dict)
      (free : ∀ i, t.Needs d i call → t.block.isLockedAt i = false)
      (answers : d.Answers call fin.result d') (lets : fin.result.hold? = none)
      (represents : fin.table.Represents d') (respects : t.Respects fin.table)
      (refuses : ∀ fault, fin.result = .fault fault → t.MustGrow d call) :
      Called t d call (some fin)
  | held (q : Query) (hold : Hold) (t' : Table) (inside : hold.cell < t.block.cellCount)
      (free : t.block.isLockedAt hold.cell = false) (cell : hold.cell = t.indexOf q)
      (table : t' = t.revise hold.cell (t.block.cell hold.cell).seize t.block.pool)
      (represents : t'.Represents d) (value : d.lookup q.key = some hold.value)
      (guards : hold.Guards t' q.key) :
      Called t d (.hold q) (some ⟨.held (some hold), t', []⟩)

/-- The call looks a key up under which things are stored. -/
def Call.Honest (call : Call) (hash : UInt64 → UInt64) : Prop :=
  ∀ q, call.query? = some q → q.Honest hash

theorem Dict.not_mem_iff {key : UInt64} : key ∉ d ↔ d.lookup key = none := Finmap.lookup_eq_none.symm

theorem Block.hasLock_iff {b : Block} :
    b.hasLock = true ↔ ∃ i, i < b.cellCount ∧ b.isLockedAt i = true := by
  rw [← not_iff_not, Bool.not_eq_true, Block.hasLock_eq_false]
  constructor
  · rintro h ⟨i, _, hlocked⟩
    rw [h i] at hlocked
    cases hlocked
  · intro h i
    by_cases hi : i < b.cellCount
    · exact Bool.eq_false_iff.mpr fun hlocked => h ⟨i, hi, hlocked⟩
    · rw [Block.isLockedAt, Block.cell_of_le (Nat.le_of_not_lt hi)]
      decide

theorem Table.storeBlocked_iff {key : UInt64} :
    t.StoreBlocked d key ↔ ∃ i, (i = t.block.indexOf (t.hash key) ∨
      t.Crowded d key ∧ i < t.block.cellCount) ∧ t.block.isLockedAt i = true := by
  rw [Table.StoreBlocked, Block.hasLock_iff]
  constructor
  · rintro (hlocked | ⟨hcrowded, i, hi, hlocked⟩)
    · exact ⟨_, .inl rfl, hlocked⟩
    · exact ⟨i, .inr ⟨hcrowded, hi⟩, hlocked⟩
  · rintro ⟨i, rfl | ⟨hcrowded, hi⟩, hlocked⟩
    · exact .inl hlocked
    · exact .inr ⟨hcrowded, i, hi, hlocked⟩

theorem Dict.answers_insert (d : Dict) (e : Entry) :
    d.Answers (.insert e) (.flag (d.lookup e.key).isNone) (d.store e false) := by
  cases hd : d.lookup e.key with
  | none =>
    rw [d.store_absent hd]
    exact .inserted e (Dict.not_mem_iff.mpr hd)
  | some value =>
    have hsame : d.store e false = d := if_pos ⟨by rw [hd]; rfl, rfl⟩
    rw [hsame]
    exact .kept e (Finmap.mem_of_lookup_eq_some hd)

theorem Dict.answers_upsert (d : Dict) (e : Entry) :
    d.Answers (.upsert e) (.flag (d.lookup e.key).isNone) (d.store e true) := by
  rw [d.store_update]
  cases hd : d.lookup e.key with
  | none => exact .added e (Dict.not_mem_iff.mpr hd)
  | some value => exact .overwritten e (Finmap.mem_of_lookup_eq_some hd)

theorem Dict.answers_remove (d : Dict) (q : Query) :
    d.Answers (.remove q) (.flag (d.lookup q.key).isSome) (d.erase q.key) := by
  cases hd : d.lookup q.key with
  | none =>
    rw [Dict.erase_of_lookup_eq_none hd]
    exact .missing q (Dict.not_mem_iff.mpr hd)
  | some value => exact .removed q (Finmap.mem_of_lookup_eq_some hd)

theorem Dict.answers_contains (d : Dict) (q : Query) :
    d.Answers (.contains q) (.flag (d.lookup q.key).isSome) d := by
  have hflag : (d.lookup q.key).isSome = decide (q.key ∈ d) := by
    rw [Bool.eq_iff_iff, decide_eq_true_iff, Finmap.lookup_isSome]
  rw [hflag]
  exact .contains q

theorem Table.Represents.called_same (h : t.Represents d) (call : Call) (result : CallResult)
    (hfree : ∀ i, t.Needs d i call → t.block.isLockedAt i = false)
    (ha : d.Answers call result d) (hlets : result.hold? = none)
    (hrefuses : ∀ fault, result ≠ .fault fault) : t.Called d call (some ⟨result, t, []⟩) :=
  .done call _ d hfree ha hlets h (Table.Respects.refl t)
    fun fault he => absurd he (hrefuses fault)

theorem Table.Represents.called_store (h : t.Represents d) (e : Entry) (update : Bool) (call : Call)
    (hneeds : ∀ i, t.Needs d i call ↔ i = t.block.indexOf (t.hash e.key) ∨
      t.Crowded d e.key ∧ i < t.block.cellCount)
    (hgrow : t.Crowded d e.key → t.MustGrow d call)
    (hok : d.Answers call (.flag (d.lookup e.key).isNone) (d.store e update))
    (hfault : ∀ fault, e.key ∉ d → d.Answers call (.fault fault) d) :
    t.Called d call ((t.store e update).map Stored.finished) := by
  obtain ⟨hnone, hsome⟩ := h.store e update
  rw [Table.storeBlocked_iff] at hnone
  cases hstore : t.store e update with
  | none =>
    obtain ⟨i, hi, hlocked⟩ := hnone.mp hstore
    exact .waits call i ((hneeds i).mpr hi) hlocked
  | some stored =>
    have hfree : ∀ i, t.Needs d i call → t.block.isLockedAt i = false := fun i hi => by
      rw [← Bool.not_eq_true]
      intro hlocked
      rw [hnone.mpr ⟨i, (hneeds i).mp hi, hlocked⟩] at hstore
      cases hstore
    cases hsome stored hstore with
    | ok t' retired represents respects =>
      exact .done call _ _ hfree hok rfl represents respects fun _ he => by cases he
    | error fault t' retired represents respects crowded =>
      exact .done call _ _ hfree (hfault fault (Dict.not_mem_iff.mpr crowded.absent)) rfl represents
        respects fun _ _ => hgrow crowded

theorem Table.Represents.called_remove (h : t.Represents d) (hq : q.Honest t.hash) :
    t.Called d (.remove q)
      ((t.remove q).map fun (removed, t) => ⟨.flag removed, t, []⟩) := by
  cases hr : t.remove q with
  | none => exact .waits _ _ rfl (Table.remove_eq_none.mp hr)
  | some result =>
    obtain ⟨flag, t'⟩ := result
    obtain ⟨rfl, represents, respects⟩ := h.remove hq hr
    have hfree : ∀ i, i = t.indexOf q → t.block.isLockedAt i = false := by
      rintro i rfl
      rw [← Bool.not_eq_true, ← Table.remove_eq_none, hr]
      exact Option.some_ne_none _
    exact .done _ _ _ hfree (d.answers_remove q) rfl represents respects
      fun _ he => by cases he

theorem Table.Represents.called_hold (h : t.Represents d) (hq : q.Honest t.hash) :
    t.Called d (.hold q) ((t.hold q).map fun (hold, t) => ⟨.held hold, t, []⟩) := by
  cases hr : t.hold q with
  | none => exact .waits _ _ rfl (Table.hold_eq_none.mp hr)
  | some result =>
    obtain ⟨hold, t'⟩ := result
    cases hold with
    | none =>
      obtain ⟨absent, heq⟩ := h.hold_absent hq hr
      subst heq
      have hfree : ∀ i, i = t'.indexOf q → t'.block.isLockedAt i = false := by
        rintro i rfl
        rw [← Bool.not_eq_true, ← Table.hold_eq_none, hr]
        exact Option.some_ne_none _
      exact h.called_same _ _ hfree (.notHeld q (Dict.not_mem_iff.mpr absent)) rfl
        fun _ he => by cases he
    | some hold =>
      obtain ⟨inside, free, cell, table, represents, value, guards⟩ := h.hold_present hq hr
      exact .held q hold t' inside free cell table represents value guards

theorem Table.Represents.called_len (h : t.Represents d) (call : Call) (answer : Nat → CallResult)
    (hneeds : ∀ i, t.Needs d i call ↔ i < t.block.cellCount)
    (ha : d.Answers call (answer d.keys.card) d) (hlets : ∀ n, (answer n).hold? = none)
    (hrefuses : ∀ n fault, answer n ≠ .fault fault) :
    t.Called d call (t.len.map fun (n, t) => ⟨answer n, t, []⟩) := by
  cases hl : t.len with
  | none =>
    obtain ⟨i, hi, hlocked⟩ := Block.hasLock_iff.mp (Table.len_eq_none.mp hl)
    exact .waits _ i ((hneeds i).mpr hi) hlocked
  | some result =>
    obtain ⟨n, t'⟩ := result
    obtain ⟨rfl, rfl⟩ := h.len hl
    have hfree : t'.block.hasLock = false := by
      rw [← Bool.not_eq_true, ← Table.len_eq_none, hl]
      exact Option.some_ne_none _
    exact h.called_same _ _ (fun i _ => Block.hasLock_eq_false.mp hfree i) ha (hlets _) (hrefuses _)

theorem Table.Represents.called (h : t.Represents d) (hq : call.Honest t.hash) :
    t.Called d call (t.call call) := by
  cases call with
  | insert e =>
    exact h.called_store e false _ (fun _ => Iff.rfl) id (d.answers_insert e)
      fun fault habsent => .insertRefused e fault habsent
  | upsert e =>
    exact h.called_store e true _ (fun _ => Iff.rfl) id (d.answers_upsert e)
      fun fault habsent => .upsertRefused e fault habsent
  | find q =>
    have hfind : t.find q = d.lookup q.key := h.find (hq q rfl)
    have ha : d.Answers (.find q) (.value (t.find q)) d := hfind ▸ .find q
    exact h.called_same _ _ (fun _ hn => hn.elim) ha rfl fun _ he => by cases he
  | contains q =>
    have hfind : t.find q = d.lookup q.key := h.find (hq q rfl)
    have ha : d.Answers (.contains q) (.flag (t.find q).isSome) d := hfind ▸ d.answers_contains q
    exact h.called_same _ _ (fun _ hn => hn.elim) ha rfl fun _ he => by cases he
  | remove q => exact h.called_remove (hq q rfl)
  | hold q => exact h.called_hold (hq q rfl)
  | len => exact h.called_len _ .number (fun _ => Iff.rfl) .len (fun _ => rfl) fun _ _ he => by cases he
  | isEmpty =>
    have hlen := h.called_len .isEmpty (fun n => .flag (decide (n = 0))) (fun _ => Iff.rfl) .isEmpty
      (fun _ => rfl) fun _ _ he => by cases he
    rw [Table.call, Table.isEmpty, Option.map_map]
    exact hlen
  | cellCount =>
    exact h.called_same _ _ (fun _ hn => hn.elim) (.cellCount _) rfl fun _ he => by cases he
  | capacity =>
    exact h.called_same _ _ (fun _ hn => hn.elim) (.capacity _) rfl fun _ he => by cases he

end EpochTable
