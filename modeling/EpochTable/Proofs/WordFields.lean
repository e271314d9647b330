import EpochTable.Proofs.MaskedWords

namespace EpochTable

@[ext] structure WordFields where
  count : Nat
  occupied : Nat
  writing : Bool
  overflow : Bool
  locked : Bool
  version : Nat
  deriving DecidableEq, Repr

def CellWord.fields (w : CellWord) : WordFields :=
  ⟨w.count, w.occupied, w.isWriting, w.hasOverflow, w.isLocked, w.version⟩

def MaskedWord.fields (w : MaskedWord) : WordFields :=
  ⟨w.count.toNat, w.occupied.toNat, w.isWriting, w.hasOverflow, w.isLocked, w.version.toNat⟩

/-- The bits are the same and read the same, under masks and by arithmetic. -/
structure MaskedWord.Mirrors (m : MaskedWord) (w : CellWord) : Prop where
  raw : m.raw = w.raw
  fields : m.fields = w.fields

/-- The value of a word with these fields. -/
def WordFields.pack (f : WordFields) : Nat :=
  f.count + 4 * f.occupied + 32 * f.writing.toNat + 64 * f.overflow.toNat + 128 * f.locked.toNat
    + 256 * f.version

/-- What a change means: it replaces the fields it names and no others. -/
def WordFields.revise (f : WordFields) : CellWord.Change → WordFields
  | .count n => { f with count := n, occupied := 2 ^ n - 1 }
  | .overflow value => { f with overflow := value }
  | .locked => { f with locked := true }
  | .unlocked => { f with locked := false }
  | .writing => { f with writing := true }
  | .published => { f with writing := false, locked := false, version := (f.version + 1) % 2 ^ 56 }

/-- The count that a change sets, if it sets one. -/
def CellWord.Change.count? : CellWord.Change → Option Nat
  | .count n => some n
  | _ => none

def CellWord.Change.occupied? : CellWord.Change → Option Nat
  | .count n => some (2 ^ n - 1)
  | _ => none

def CellWord.Change.writing? : CellWord.Change → Option Bool
  | .writing => some true
  | .published => some false
  | _ => none

def CellWord.Change.overflow? : CellWord.Change → Option Bool
  | .overflow value => some value
  | _ => none

def CellWord.Change.locked? : CellWord.Change → Option Bool
  | .locked => some true
  | .unlocked => some false
  | .published => some false
  | _ => none

/-- The value is what the last change that sets the field made it, or what it was before if there is no
such change. -/
def CellWord.LastSet {α : Type} (sets : Change → Option α) (before : α) (changes : List Change)
    (value : α) : Prop :=
  (∃ earlier change later, changes = earlier ++ change :: later ∧ sets change = some value ∧
    ∀ c ∈ later, sets c = none) ∨
  value = before ∧ ∀ c ∈ changes, sets c = none

/-- The fields `f'` that changes lead to from `f`, each on its own. -/
structure WordFields.Follows (f : WordFields) (changes : List CellWord.Change) (f' : WordFields) :
    Prop where
  count : ∀ n, f'.count = n ↔ CellWord.LastSet CellWord.Change.count? f.count changes n
  occupied : ∀ n, f'.occupied = n ↔ CellWord.LastSet CellWord.Change.occupied? f.occupied changes n
  writing : ∀ b, f'.writing = b ↔ CellWord.LastSet CellWord.Change.writing? f.writing changes b
  overflow : ∀ b, f'.overflow = b ↔ CellWord.LastSet CellWord.Change.overflow? f.overflow changes b
  locked : ∀ b, f'.locked = b ↔ CellWord.LastSet CellWord.Change.locked? f.locked changes b
  lowest : (∃ n, .count n ∈ changes) → f'.occupied = 2 ^ f'.count - 1
  version : f'.version = (f.version + changes.count .published) % 2 ^ 56

variable {f : WordFields} {w : CellWord} {changes : List CellWord.Change}

section

variable {α : Type} {sets : CellWord.Change → Option α} (read : WordFields → α)
  (hread : ∀ f change, read (f.revise change) = (sets change).getD (read f))

include hread

theorem WordFields.read_foldl_of_none (h : ∀ c ∈ changes, sets c = none) (f : WordFields) :
    read (changes.foldl WordFields.revise f) = read f := by
  refine List.foldlRecOn changes WordFields.revise (motive := fun f' => read f' = read f) rfl ?_
  intro f' hf' c hc
  rw [hread, h c hc, Option.getD_none, hf']

/-- If each change says what it makes of a field, the last one that says anything decides. -/
theorem WordFields.read_foldl_iff (f : WordFields) (changes : List CellWord.Change) (value : α) :
    read (changes.foldl WordFields.revise f) = value
      ↔ CellWord.LastSet sets (read f) changes value := by
  constructor
  · rintro rfl
    -- From the end, because a later change overrules those before it.
    induction changes using List.reverseRecOn with
    | nil => exact .inr ⟨rfl, List.forall_mem_nil _⟩
    | append_singleton changes change ih =>
      rw [List.foldl_append, List.foldl_cons, List.foldl_nil, hread]
      cases hset : sets change with
      | some value => exact .inl ⟨changes, change, [], rfl, hset, List.forall_mem_nil _⟩
      | none =>
        have hlast : ∀ c ∈ [change], sets c = none := List.forall_mem_singleton.mpr hset
        rcases ih with ⟨earlier, c, later, rfl, hc, hlater⟩ | ⟨heq, hnone⟩
        · exact .inl ⟨earlier, c, later ++ [change], List.append_assoc _ _ _, hc,
            List.forall_mem_append.mpr ⟨hlater, hlast⟩⟩
        · exact .inr ⟨heq, List.forall_mem_append.mpr ⟨hnone, hlast⟩⟩
  · rintro (⟨earlier, change, later, rfl, hset, hlater⟩ | ⟨rfl, hnone⟩)
    · rw [List.foldl_append, List.foldl_cons, WordFields.read_foldl_of_none read hread hlater, hread,
        hset, Option.getD_some]
    · exact WordFields.read_foldl_of_none read hread hnone f

end

theorem WordFields.lowest_revise (h : f.occupied = 2 ^ f.count - 1) (change : CellWord.Change) :
    (f.revise change).occupied = 2 ^ (f.revise change).count - 1 := by
  cases change with
  | count n => rfl
  | _ => exact h

theorem WordFields.lowest_foldl (f : WordFields) {n : Nat} (h : .count n ∈ changes) :
    (changes.foldl WordFields.revise f).occupied
      = 2 ^ (changes.foldl WordFields.revise f).count - 1 := by
  obtain ⟨earlier, later, rfl⟩ := List.append_of_mem h
  rw [List.foldl_append, List.foldl_cons]
  refine List.foldlRecOn later WordFields.revise
    (motive := fun f' => f'.occupied = 2 ^ f'.count - 1) ?_ ?_
  · rfl
  · intro f' hf' change _
    exact WordFields.lowest_revise hf' change

theorem WordFields.version_foldl (hv : f.version < 2 ^ 56) (changes : List CellWord.Change) :
    (changes.foldl WordFields.revise f).version
      = (f.version + changes.count .published) % 2 ^ 56 := by
  induction changes generalizing f with
  | nil => exact (Nat.mod_eq_of_lt hv).symm
  | cons change rest ih =>
    rw [List.foldl_cons]
    cases change with
    | published =>
      have hlt : (f.revise .published).version < 2 ^ 56 := Nat.mod_lt _ (Nat.two_pow_pos 56)
      rw [ih hlt, List.count_cons_self]
      show ((f.version + 1) % 2 ^ 56 + _) % 2 ^ 56 = _
      omega
    | _ => exact ih hv

theorem WordFields.follows_foldl (hv : f.version < 2 ^ 56) (changes : List CellWord.Change) :
    f.Follows changes (changes.foldl WordFields.revise f) where
  count := WordFields.read_foldl_iff WordFields.count (fun f c => by cases c <;> rfl) f changes
  occupied := WordFields.read_foldl_iff WordFields.occupied (fun f c => by cases c <;> rfl) f changes
  writing := WordFields.read_foldl_iff WordFields.writing (fun f c => by cases c <;> rfl) f changes
  overflow := WordFields.read_foldl_iff WordFields.overflow (fun f c => by cases c <;> rfl) f changes
  locked := WordFields.read_foldl_iff WordFields.locked (fun f c => by cases c <;> rfl) f changes
  lowest := fun ⟨_, h⟩ => WordFields.lowest_foldl f h
  version := WordFields.version_foldl hv changes

theorem toNat_decide_odd (n : Nat) : (decide (n % 2 = 1)).toNat = n % 2 := by
  rcases Nat.mod_two_eq_zero_or_one n with h | h <;> simp [h]

/-- The fields take up the whole word. -/
theorem CellWord.pack_fields (w : CellWord) : w.fields.pack = w.raw.toNat := by
  simp only [CellWord.fields, WordFields.pack, CellWord.count, CellWord.occupied, CellWord.isWriting,
    CellWord.hasOverflow, CellWord.isLocked, CellWord.version, toNat_decide_odd]
  omega

theorem CellWord.fields_inj {w w' : CellWord} : w.fields = w'.fields ↔ w = w' := by
  constructor
  · intro h
    have hpack := congrArg WordFields.pack h
    rw [w.pack_fields, w'.pack_fields] at hpack
    exact CellWord.ext_toNat hpack
  · rintro rfl
    rfl

theorem MaskedWord.fields_eq (w : MaskedWord) : w.fields = w.plain.fields := by
  rw [MaskedWord.fields, w.toNat_count, w.toNat_occupied, w.isWriting_eq, w.hasOverflow_eq,
    w.isLocked_eq, w.toNat_version, CellWord.fields]

theorem CellWord.fields_apply (w : CellWord) (change : CellWord.Change)
    (h : ∀ n, change = .count n → n ≤ inlineSlots) :
    (w.apply change).fields = w.fields.revise change := by
  cases change with
  | count n =>
    have hn : n ≤ inlineSlots := h n rfl
    simp only [CellWord.apply, CellWord.fields, WordFields.revise, w.count_withCount hn,
      w.occupied_withCount hn, w.isWriting_withCount hn, w.hasOverflow_withCount hn,
      w.isLocked_withCount hn, w.version_withCount hn, CellWord.bitmap, Nat.one_shiftLeft]
  | overflow value => simp [CellWord.apply, CellWord.fields, WordFields.revise]
  | locked => simp [CellWord.apply, CellWord.fields, WordFields.revise]
  | unlocked => simp [CellWord.apply, CellWord.fields, WordFields.revise]
  | writing => simp [CellWord.apply, CellWord.fields, WordFields.revise]
  | published =>
    simp [CellWord.apply, CellWord.fields, WordFields.revise, CellWord.version_published]

theorem CellWord.fields_foldl (w : CellWord) (h : ∀ n, .count n ∈ changes → n ≤ inlineSlots) :
    (changes.foldl CellWord.apply w).fields = changes.foldl WordFields.revise w.fields := by
  refine List.foldl_rel (r := fun (u : CellWord) f => u.fields = f) rfl ?_
  rintro change hmem u _ rfl
  exact u.fields_apply change fun n hn => h n (hn ▸ hmem)

theorem CellWord.sameContents_iff {u v : CellWord} :
    u.sameContents v = true ↔ { u.fields with locked := v.isLocked } = v.fields := by
  have hunlocked (w : CellWord) : w.unlocked.fields = { w.fields with locked := false } :=
    w.fields_apply .unlocked nofun
  rw [CellWord.sameContents, decide_eq_true_iff, ← CellWord.fields_inj, hunlocked, hunlocked]
  simp [WordFields.ext_iff, CellWord.fields]

theorem CellWord.sameContents_equivalence :
    Equivalence fun u v : CellWord => u.sameContents v = true := by
  simp only [CellWord.sameContents, decide_eq_true_iff]
  exact eq_equivalence.comap CellWord.unlocked

/-- Whatever the word and whatever is done to it, with counts within `inlineSlots`: each field is what
the last change that sets it made it, the bitmap has the lowest bits once a count was set, and the
version has gone up by the number of publications, past its largest value too. In any word, each of the
changes leaves the fields it does not name as they are. Under masks the bits are the same and read the
same. Two words have the same contents if they differ at most in the lock, which is an equivalence. -/
theorem CellWord.fields_follow_changes (w : CellWord) (changes : List CellWord.Change)
    (h : ∀ n, .count n ∈ changes → n ≤ inlineSlots) :
    w.fields.Follows changes (changes.foldl CellWord.apply w).fields ∧
    (∀ change ∈ changes, ∀ u : CellWord, (u.apply change).fields = u.fields.revise change) ∧
    MaskedWord.Mirrors (changes.foldl MaskedWord.apply ⟨w.raw⟩) (changes.foldl CellWord.apply w) ∧
    (∀ u v : CellWord,
      (u.sameContents v = true ↔ { u.fields with locked := v.isLocked } = v.fields) ∧
      MaskedWord.sameContents ⟨u.raw⟩ ⟨v.raw⟩ = u.sameContents v) ∧
    Equivalence fun u v : CellWord => u.sameContents v = true := by
  refine ⟨?_, ?_, ?_, fun u v => ⟨CellWord.sameContents_iff, ?_⟩, CellWord.sameContents_equivalence⟩
  · rw [w.fields_foldl h]
    exact WordFields.follows_foldl w.version_lt changes
  · intro change hmem u
    exact u.fields_apply change fun n hn => h n (hn ▸ hmem)
  · have hplain := MaskedWord.plain_foldl ⟨w.raw⟩ changes h
    have hfields := congrArg CellWord.fields hplain
    exact ⟨congrArg CellWord.raw hplain, (MaskedWord.fields_eq _).trans hfields⟩
  · exact MaskedWord.sameContents_eq ⟨u.raw⟩ ⟨v.raw⟩

/-- All bits are set at first, so the version starts at its largest value. -/
theorem CellWord.fields_follow_changes_around :
    let w : CellWord := ⟨18446744073709551615⟩
    let changes : List CellWord.Change := [.count 2, .overflow false, .published, .locked]
    (∀ n, .count n ∈ changes → n ≤ inlineSlots) ∧
      w.fields = ⟨3, 7, true, true, true, 72057594037927935⟩ ∧
      w.fields.Follows changes ⟨2, 3, false, false, true, 0⟩ ∧
      MaskedWord.Mirrors (changes.foldl MaskedWord.apply ⟨w.raw⟩) ⟨142⟩ := by
  intro w changes
  have hcounts : ∀ n, .count n ∈ changes → n ≤ inlineSlots := by
    intro n hn
    have htwo : n = 2 := by simpa [changes] using hn
    exact htwo ▸ (by decide)
  obtain ⟨hfollows, _, hmasks, _⟩ := w.fields_follow_changes changes hcounts
  have hend : changes.foldl CellWord.apply w = ⟨142⟩ := by decide
  rw [hend] at hfollows hmasks
  exact ⟨hcounts, by decide, hfollows, hmasks⟩

end EpochTable
