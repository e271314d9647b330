import Mathlib

namespace EpochTable

variable {α β : Type} {xs ys : List α} {places : List (Option α)} {i : Nat} {x : α}

theorem set_perm_of_getElem? (h : xs[i]? = some x) (y : α) :
    (x :: xs.set i y).Perm (y :: xs) := by
  obtain ⟨hlt, rfl⟩ := List.getElem?_eq_some_iff.mp h
  have hset := (List.set_perm_cons_eraseIdx hlt y).cons xs[i]
  have hget := (List.getElem_cons_eraseIdx_perm hlt).cons y
  exact (hset.trans (List.Perm.swap _ _ _)).trans hget

theorem eraseIdx_perm_of_getElem? (h : xs[i]? = some x) : xs.Perm (x :: xs.eraseIdx i) := by
  obtain ⟨hlt, rfl⟩ := List.getElem?_eq_some_iff.mp h
  exact (List.getElem_cons_eraseIdx_perm hlt).symm

theorem modify_perm_of_getElem? (h : xs[i]? = some x) (f : α → α) :
    (x :: xs.modify i f).Perm (f x :: xs) := by
  rw [List.modify_eq_set_getElem?, h]
  exact set_perm_of_getElem? h (f x)

theorem modify_append_cons (f : α → α) (xs : List α) (x : α) (ys : List α) :
    (xs ++ x :: ys).modify xs.length f = xs ++ f x :: ys := by
  rw [List.modify_eq_take_cons_drop (by simp)]
  simp

/-- Replacing one element changes a sum by the difference. -/
theorem sum_map_set (f : α → Nat) (h : xs[i]? = some x) (y : α) :
    ((xs.set i y).map f).sum + f x = (xs.map f).sum + f y := by
  have hsum := ((set_perm_of_getElem? h y).map f).sum_eq
  rw [List.map_cons, List.map_cons, List.sum_cons, List.sum_cons] at hsum
  omega

theorem flatMap_set_perm (f : α → List β) (h : xs[i]? = some x) (y : α) :
    (f x ++ (xs.set i y).flatMap f).Perm (f y ++ xs.flatMap f) := by
  have hperm := (set_perm_of_getElem? h y).flatMap_right f
  rwa [List.flatMap_cons, List.flatMap_cons] at hperm

/-- Where two functions differ at one element only, what they yield differs by that. -/
theorem flatMap_perm_of_forall_ne [DecidableEq α] {f g : α → List β} {a : α} (hn : xs.Nodup)
    (ha : a ∈ xs) (hoff : ∀ x ∈ xs, x ≠ a → g x = f x) :
    (f a ++ xs.flatMap g).Perm (g a ++ xs.flatMap f) := by
  have hf := (List.perm_cons_erase ha).flatMap_right f
  have hg := (List.perm_cons_erase ha).flatMap_right g
  have hrest : (xs.erase a).flatMap g = (xs.erase a).flatMap f := by
    refine List.flatMap_congr fun x hx => ?_
    obtain ⟨hne, hmem⟩ := hn.mem_erase_iff.mp hx
    exact hoff x hmem hne
  rw [List.flatMap_cons] at hf hg
  rw [hrest] at hg
  refine (hg.append_left (f a)).trans (List.Perm.trans ?_ (hf.symm.append_left (g a)))
  rw [← List.append_assoc, ← List.append_assoc]
  exact List.perm_append_comm.append_right _

/-- Only one element yields anything. -/
theorem flatMap_eq_of_forall_ne {f : α → List β} (h : xs[i]? = some x)
    (hother : ∀ j y, j ≠ i → xs[j]? = some y → f y = []) : xs.flatMap f = f x := by
  induction xs generalizing i with
  | nil => simp at h
  | cons z zs ih =>
    rw [List.flatMap_cons]
    cases i with
    | zero =>
      cases Option.some.inj h
      have hrest : zs.flatMap f = [] := by
        rw [List.flatMap_eq_nil_iff]
        intro y hy
        obtain ⟨j, hj⟩ := List.getElem?_of_mem hy
        exact hother (j + 1) y (Nat.succ_ne_zero j) hj
      rw [hrest, List.append_nil]
    | succ i =>
      have hz : f z = [] := hother 0 z (Nat.succ_ne_zero i).symm rfl
      rw [hz, List.nil_append]
      exact ih h fun j y hj hy => hother (j + 1) y (fun he => hj (Nat.succ.inj he)) hy

/-- Where several lists make up one without repetition, each element lies once in one of them. -/
theorem exists_source_of_nodup [DecidableEq β] {f : α → List β} (hn : (xs.flatMap f).Nodup) {y : β}
    (hy : y ∈ xs.flatMap f) :
    ∃ x ∈ xs, (f x).count y = 1 ∧ ∀ x' ∈ xs, x' ≠ x → y ∉ f x' := by
  obtain ⟨hnodup, hdisjoint⟩ := List.nodup_flatMap.mp hn
  obtain ⟨x, hx, hmem⟩ := List.mem_flatMap.mp hy
  refine ⟨x, hx, List.count_eq_one_of_mem (hnodup x hx) hmem, fun x' hx' hne hmem' => ?_⟩
  have : Std.Symm (Function.onFun List.Disjoint f) := ⟨fun _ _ h => List.Disjoint.symm h⟩
  exact hdisjoint.forall hx' hx hne hmem' hmem

/-- What is in one list and not in the other, if at most one element has moved. -/
theorem eq_some_iff_of_perm {x y : Option α} (h : (x.toList ++ xs).Perm (y.toList ++ ys))
    (hnodup : (x.toList ++ xs).Nodup) (hapart : x = none ∨ y = none) (a : α) :
    y = some a ↔ a ∈ xs ∧ a ∉ ys := by
  have hmem := h.mem_iff (a := a)
  simp only [List.mem_append, Option.mem_toList] at hmem
  have hafter := List.nodup_append'.mp (h.nodup_iff.mp hnodup)
  constructor
  · intro hy
    have hx : x ≠ some a := by
      rcases hapart with rfl | rfl
      · nofun
      · cases hy
    exact ⟨(hmem.mpr (.inl hy)).resolve_left hx, hafter.2.2 (by simp [hy])⟩
  · rintro ⟨hxs, hys⟩
    exact (hmem.mp (.inr hxs)).resolve_right hys

theorem perm_cons_filter_of_nodup [DecidableEq α] [DecidableEq β] {f : α → β} (hn : (xs.map f).Nodup)
    (h : x ∈ xs) : xs.Perm (x :: xs.filter fun y => f y ≠ f x) := by
  have herase : xs.erase x = xs.filter fun y => f y ≠ f x := by
    rw [hn.of_map.erase_eq_filter]
    refine List.filter_congr fun y hy => ?_
    have hinj : f y = f x ↔ y = x := ⟨List.inj_on_of_nodup_map hn hy h, congrArg f⟩
    rw [Bool.eq_iff_iff, bne_iff_ne, decide_eq_true_iff, ne_eq, ne_eq, hinj]
  rw [← herase]
  exact List.perm_cons_erase h

theorem findSome?_range_eq_some {f : Nat → Option β} {n : Nat} {y : β} :
    (List.range n).findSome? f = some y ↔ ∃ k < n, f k = some y ∧ ∀ j < k, f j = none := by
  induction n with
  | zero => simp
  | succ n ih =>
    rw [List.range_succ, List.findSome?_append, Option.or_eq_some_iff, ih]
    constructor
    · rintro (⟨k, hk, hy, hbefore⟩ | ⟨hnone, hlast⟩)
      · exact ⟨k, by omega, hy, hbefore⟩
      · rw [List.findSome?_eq_none_iff] at hnone
        refine ⟨n, by omega, by simpa using hlast, fun j hj => ?_⟩
        exact hnone j (List.mem_range.mpr hj)
    · rintro ⟨k, hk, hy, hbefore⟩
      by_cases he : k = n
      · subst he
        refine .inr ⟨List.findSome?_eq_none_iff.mpr fun j hj => ?_, by simpa using hy⟩
        exact hbefore j (List.mem_range.mp hj)
      · exact .inl ⟨k, by omega, hy, hbefore⟩

theorem join_getElem?_concat (places : List (Option α)) (x : α) (j : Nat) :
    (places ++ [some x])[j]?.join = if j = places.length then some x else places[j]?.join := by
  by_cases hj : j = places.length
  · simp [hj]
  · rw [if_neg hj]
    by_cases hlt : j < places.length
    · rw [List.getElem?_append_left hlt]
    · rw [List.getElem?_eq_none (by simp; omega), List.getElem?_eq_none (by omega)]

theorem join_getElem?_set (hi : i < places.length) (x : Option α) (j : Nat) :
    (places.set i x)[j]?.join = if j = i then x else places[j]?.join := by
  rw [List.getElem?_set]
  by_cases hj : j = i
  · rw [if_pos hj.symm, if_pos hi, if_pos hj]
    rfl
  · rw [if_neg (Ne.symm hj), if_neg hj]

theorem join_getElem?_set_none (places : List (Option α)) (i j : Nat) :
    (places.set i none)[j]?.join = if j = i then none else places[j]?.join := by
  rw [List.getElem?_set]
  by_cases hj : j = i
  · rw [if_pos hj.symm, if_pos hj]
    split <;> rfl
  · rw [if_neg (Ne.symm hj), if_neg hj]

theorem lt_length_of_join (h : places[i]?.join = some x) : i < places.length :=
  (List.getElem?_eq_some_iff.mp (Option.join_eq_some_iff.mp h)).1

end EpochTable
