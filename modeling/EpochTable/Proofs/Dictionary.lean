import EpochTable.Cell
import Mathlib

namespace EpochTable

abbrev Dict := Finmap fun _ : UInt64 => UInt64

variable {d d' : Dict} {p : UInt64 → Prop} {xs ys : List Entry} {e : Entry} {key value : UInt64}

/-- The entries are those of the dictionary whose keys satisfy `p`, each of them once. -/
structure Dict.Lists (d : Dict) (p : UInt64 → Prop) (xs : List Entry) : Prop where
  nodup : (xs.map Entry.key).Nodup
  mem : ∀ e, e ∈ xs ↔ d.lookup e.key = some e.value ∧ p e.key

theorem Entry.eq_iff {x : Entry} (hk : x.key = e.key) : x = e ↔ x.value = e.value := by
  refine ⟨congrArg Entry.value, fun hv => ?_⟩
  cases x
  cases e
  exact Entry.mk.injEq .. ▸ ⟨hk, hv⟩

theorem Dict.lists_nil : Dict.Lists ∅ p [] := by
  refine ⟨List.nodup_nil, fun e => ?_⟩
  simp

theorem Dict.Lists.congr (h : d.Lists p xs) (hd : ∀ k, p k → d'.lookup k = d.lookup k) :
    d'.Lists p xs := by
  refine ⟨h.nodup, fun e => ?_⟩
  rw [h.mem]
  constructor
  · rintro ⟨hl, hp⟩
    exact ⟨(hd _ hp).trans hl, hp⟩
  · rintro ⟨hl, hp⟩
    exact ⟨(hd _ hp).symm.trans hl, hp⟩

theorem Dict.Lists.not_mem (h : d.Lists p xs) (hk : ∀ e ∈ xs, e.key ≠ key) (hp : p key) :
    d.lookup key = none := by
  by_contra hne
  obtain ⟨value, hv⟩ := Option.ne_none_iff_exists'.mp hne
  exact hk ⟨key, value⟩ ((h.mem _).mpr ⟨hv, hp⟩) rfl

theorem Dict.Lists.insert (h : d.Lists p xs) (hp : p e.key) (hd : d.lookup e.key = none)
    (hy : ys.Perm (e :: xs)) : Dict.Lists (d.insert e.key e.value) p ys := by
  refine ⟨?_, fun x => ?_⟩
  · rw [(hy.map Entry.key).nodup_iff, List.map_cons, List.nodup_cons]
    refine ⟨fun hmem => ?_, h.nodup⟩
    obtain ⟨x, hx, hk⟩ := List.mem_map.mp hmem
    have hl := ((h.mem x).mp hx).1
    rw [hk, hd] at hl
    cases hl
  · rw [hy.mem_iff, List.mem_cons, h.mem]
    by_cases hk : x.key = e.key
    · rw [hk, hd, Finmap.lookup_insert, Entry.eq_iff hk, Option.some_inj, eq_comm (a := e.value)]
      simp [hp]
    · rw [Finmap.lookup_insert_of_ne _ hk]
      have hne : x ≠ e := fun he => hk (congrArg Entry.key he)
      simp [hne]

theorem Dict.Lists.erase (h : d.Lists p xs) (hy : xs.Perm (e :: ys)) :
    Dict.Lists (d.erase e.key) p ys := by
  have hnodup := h.nodup
  rw [(hy.map Entry.key).nodup_iff, List.map_cons, List.nodup_cons] at hnodup
  refine ⟨hnodup.2, fun x => ?_⟩
  by_cases hk : x.key = e.key
  · rw [hk, Finmap.lookup_erase]
    constructor
    · exact fun hx => absurd (List.mem_map.mpr ⟨x, hx, hk⟩) hnodup.1
    · rintro ⟨hl, _⟩
      cases hl
  · have hne : x ≠ e := fun he => hk (congrArg Entry.key he)
    have hmem := h.mem x
    rw [hy.mem_iff, List.mem_cons] at hmem
    rw [Finmap.lookup_erase_ne hk, ← hmem]
    simp [hne]

theorem Dict.insert_erase_self (d : Dict) (key value : UInt64) :
    Finmap.insert key value (d.erase key) = d.insert key value := by
  refine Finmap.ext_lookup fun k => ?_
  by_cases hk : k = key
  · rw [hk, Finmap.lookup_insert, Finmap.lookup_insert]
  · rw [Finmap.lookup_insert_of_ne _ hk, Finmap.lookup_insert_of_ne _ hk,
      Finmap.lookup_erase_ne hk]

theorem Dict.Lists.write (h : d.Lists p xs) (he : e ∈ xs)
    (hy : (e :: ys).Perm (e.withValue value :: xs)) :
    Dict.Lists (d.insert e.key value) p ys := by
  have hrest := List.perm_cons_erase he
  have hp : p e.key := ((h.mem e).mp he).2
  have hys : ys.Perm (e.withValue value :: xs.erase e) := by
    refine (List.perm_cons e).mp (hy.trans ?_)
    exact (hrest.cons _).trans (List.Perm.swap _ _ _)
  have hnew := (h.erase hrest).insert (e := e.withValue value) hp (Finmap.lookup_erase _ _) hys
  rw [← Dict.insert_erase_self]
  exact hnew

theorem Dict.Lists.lookup_of_mem (h : d.Lists p xs) (he : e ∈ xs) :
    d.lookup e.key = some e.value :=
  ((h.mem e).mp he).1

theorem Dict.Lists.lookup_eq (h : d.Lists p xs) (hp : p key) :
    (xs.find? (·.key == key)).map Entry.value = d.lookup key := by
  cases hfind : xs.find? (·.key == key) with
  | none =>
    refine (h.not_mem (fun e he hk => ?_) hp).symm
    simpa [hk] using List.find?_eq_none.mp hfind e he
  | some e =>
    have hk : e.key = key := by simpa using List.find?_some hfind
    rw [Option.map_some, ← hk]
    exact (h.lookup_of_mem (List.mem_of_find?_eq_some hfind)).symm

theorem Dict.Lists.length_eq [DecidablePred p] (h : d.Lists p xs) :
    xs.length = (d.keys.filter p).card := by
  rw [← List.length_map (f := Entry.key), ← List.toFinset_card_of_nodup h.nodup]
  refine congrArg Finset.card (Finset.ext fun k => ?_)
  rw [List.mem_toFinset, Finset.mem_filter, Finmap.mem_keys, Finmap.mem_iff, List.mem_map]
  constructor
  · rintro ⟨e, he, rfl⟩
    exact ⟨⟨e.value, h.lookup_of_mem he⟩, ((h.mem e).mp he).2⟩
  · rintro ⟨⟨value, hv⟩, hp⟩
    exact ⟨⟨k, value⟩, (h.mem _).mpr ⟨hv, hp⟩, rfl⟩

end EpochTable
