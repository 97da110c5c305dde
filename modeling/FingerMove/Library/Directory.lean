import Mathlib.Data.List.AList
import Mathlib.Data.List.Dedup
import Mathlib.Data.Set.Basic

namespace FingerMove.Directory

variable {ν τ : Type*} [DecidableEq ν]

/-- A flat directory; its entries come in the order `readdir` gives them. -/
abbrev Dir (ν τ : Type*) := AList fun _ : ν ↦ τ

def files (d : Dir ν τ) : Set (ν × τ) := {x | d.lookup x.1 = some x.2}

/-- `rename` of the entry `n` of `a` to `b`; it replaces a file and fails without one. -/
def rename (a b : Dir ν τ) (n : ν) : Dir ν τ × Dir ν τ :=
  match a.lookup n with
  | none => (a, b)
  | some t => (a.erase n, b.insert n t)

def renameTo (d : Dir ν τ) (old new : ν) : Dir ν τ :=
  match d.lookup old with
  | none => d
  | some t => (d.erase old).insert new t

def moveAll (ns : List ν) (a b : Dir ν τ) : Dir ν τ × Dir ν τ :=
  ns.foldl (fun d n ↦ rename d.1 d.2 n) (a, b)

def clear (d : Dir ν τ) : Dir ν τ := d.keys.foldl (fun d n ↦ d.erase n) d

theorem lookup_rename_fst (a b : Dir ν τ) (n m : ν) :
    (rename a b n).1.lookup m = if m = n then none else a.lookup m := by
  unfold rename
  split
  · next h =>
    split
    · next hm => rw [hm, h]
    · rfl
  · split
    · next hm => rw [hm, AList.lookup_erase]
    · next hm => rw [AList.lookup_erase_ne hm]

theorem lookup_rename_snd (a b : Dir ν τ) (n m : ν) :
    (rename a b n).2.lookup m = if m = n ∧ n ∈ a then a.lookup m else b.lookup m := by
  unfold rename
  split
  · next h => simp [AList.lookup_eq_none.mp h]
  · next t h =>
    have hn : n ∈ a := AList.lookup_isSome.mp (by simp [h])
    rcases eq_or_ne m n with rfl | hm
    · simp [hn, h]
    · simp [hm]

theorem mem_rename_snd (a b : Dir ν τ) (n m : ν) :
    m ∈ (rename a b n).2 ↔ (m = n ∧ n ∈ a) ∨ m ∈ b := by
  rw [← AList.lookup_isSome, lookup_rename_snd]
  split
  · next h => simpa [h] using AList.lookup_isSome.mpr (h.1 ▸ h.2)
  · next h => rw [AList.lookup_isSome, or_iff_right h]

theorem lookup_renameTo {d : Dir ν τ} {old new n : ν} (hnew : new ∉ d) :
    (renameTo d old new).lookup n =
      if n = new then d.lookup old else if n = old then none else d.lookup n := by
  unfold renameTo
  split
  · next hold =>
    split
    · next hn => rw [hn, hold, AList.lookup_eq_none.mpr hnew]
    · split
      · next hn => rw [hn, hold]
      · rfl
  · next t hold =>
    split
    · next hn => rw [hn, hold, AList.lookup_insert]
    · next hn =>
      rw [AList.lookup_insert_ne hn]
      split
      · next hn => rw [hn, AList.lookup_erase]
      · next hn => rw [AList.lookup_erase_ne hn]

theorem moveAll_cons (n : ν) (ns : List ν) (a b : Dir ν τ) :
    moveAll (n :: ns) a b = moveAll ns (rename a b n).1 (rename a b n).2 := rfl

theorem lookup_moveAll_fst (ns : List ν) (a b : Dir ν τ) (m : ν) :
    (moveAll ns a b).1.lookup m = if m ∈ ns then none else a.lookup m := by
  induction ns generalizing a b with
  | nil => simp [moveAll]
  | cons n ns ih =>
    rw [moveAll_cons, ih, lookup_rename_fst]
    by_cases hm : m ∈ ns <;> by_cases hn : m = n <;> simp [hm, hn]

theorem lookup_moveAll_snd (ns : List ν) (a b : Dir ν τ) (m : ν) :
    (moveAll ns a b).2.lookup m = if m ∈ ns ∧ m ∈ a then a.lookup m else b.lookup m := by
  induction ns generalizing a b with
  | nil => simp [moveAll]
  | cons n ns ih =>
    have hmem : m ∈ (rename a b n).1 ↔ m ≠ n ∧ m ∈ a := by
      rw [← AList.lookup_isSome, ← AList.lookup_isSome, lookup_rename_fst]
      by_cases hm : m = n <;> simp [hm]
    rw [moveAll_cons, ih, lookup_rename_snd, lookup_rename_fst]
    simp only [hmem, List.mem_cons]
    by_cases hm : m = n
    · subst hm
      simp
    · simp [hm]

theorem mem_moveAll_snd (ns : List ν) (a : Dir ν τ) (m : ν) :
    m ∈ (moveAll ns a ∅).2 ↔ m ∈ ns ∧ m ∈ a := by
  rw [← AList.lookup_isSome, lookup_moveAll_snd]
  split
  · next h => simpa [h.1] using AList.lookup_isSome.trans (iff_of_true h.2 h.2)
  · next h => simpa using h

omit [DecidableEq ν] in
theorem eq_empty_of_keys {d : Dir ν τ} (h : d.keys = []) : d = ∅ :=
  AList.ext (List.map_eq_nil_iff.mp h)

theorem lookup_eraseAll (ns : List ν) (d : Dir ν τ) (m : ν) :
    (ns.foldl (fun d n ↦ d.erase n) d).lookup m = if m ∈ ns then none else d.lookup m := by
  induction ns generalizing d with
  | nil => simp
  | cons n ns ih =>
    rw [List.foldl_cons, ih]
    rcases eq_or_ne m n with rfl | hm
    · simp
    · simp [hm]

theorem lookup_eq_none_of_keys {d : Dir ν τ} {m : ν} (h : m ∉ d.keys) : d.lookup m = none :=
  AList.lookup_eq_none.mpr fun hm ↦ h (AList.mem_keys.mp hm)

theorem clear_eq (d : Dir ν τ) : clear d = ∅ := by
  have hnone : ∀ m, (clear d).lookup m = none := by
    intro m
    rw [clear, lookup_eraseAll]
    split
    · rfl
    · next hm => exact lookup_eq_none_of_keys hm
  apply eq_empty_of_keys
  apply List.eq_nil_iff_forall_not_mem.mpr
  intro m hm
  exact AList.lookup_eq_none.mp (hnone m) (AList.mem_keys.mpr hm)

theorem files_moveAll (ns : List ν) (a : Dir ν τ) :
    files (moveAll ns a ∅).1 ∪ files (moveAll ns a ∅).2 = files a := by
  ext ⟨m, t⟩
  simp only [files, Set.mem_union, Set.mem_ofPred_eq, lookup_moveAll_fst, lookup_moveAll_snd]
  by_cases hm : m ∈ ns
  · by_cases ha : m ∈ a
    · simp [hm, ha]
    · simp [hm, ha, AList.lookup_eq_none.mpr ha]
  · simp [hm]

theorem keys_moveAll (ns : List ν) (a : Dir ν τ) :
    (moveAll ns a ∅).2.keys.Perm (ns.dedup.filter (· ∈ a)) := by
  rw [List.perm_ext_iff_of_nodup (AList.keys_nodup _) (ns.nodup_dedup.filter _)]
  intro m
  rw [← AList.mem_keys, mem_moveAll_snd]
  simp

/-- As many files arrive as names were given exactly when every name is a file
and none is given twice. -/
theorem length_moveAll_iff (ns : List ν) (a : Dir ν τ) :
    (moveAll ns a ∅).2.keys.length = ns.length ↔ ns.Nodup ∧ ∀ n ∈ ns, n ∈ a := by
  rw [(keys_moveAll ns a).length_eq]
  constructor
  · intro h
    have hdedup := (List.dedup_sublist ns).length_le
    have hfilter := List.length_filter_le (· ∈ a) ns.dedup
    have hnodup := List.dedup_eq_self.mp ((List.dedup_sublist ns).eq_of_length (by omega))
    rw [hnodup.dedup] at h
    exact ⟨hnodup, by simpa using List.length_filter_eq_length_iff.mp h⟩
  · rintro ⟨hnodup, hmem⟩
    rw [hnodup.dedup, List.filter_eq_self.mpr (by simpa using hmem)]

end FingerMove.Directory
