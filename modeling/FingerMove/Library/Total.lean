import FingerMove.Library.Directory
import Mathlib.Algebra.BigOperators.Group.Finset.Basic

namespace FingerMove.Directory

variable {ν τ M : Type*} [DecidableEq ν] [AddCommMonoid M] (f : τ → M)

/-- What the file `n` adds to a sum over a directory; nothing if there is none. -/
def weight (d : Dir ν τ) (n : ν) : M := (d.lookup n).elim 0 f

def total (d : Dir ν τ) : M := ∑ n ∈ d.keys.toFinset, weight f d n

variable {f} {d : Dir ν τ} {n : ν} {t : τ}

theorem weight_of_notMem (h : n ∉ d) : weight f d n = 0 := by
  rw [weight, AList.lookup_eq_none.mpr h]
  rfl

theorem weight_of_lookup (h : d.lookup n = some t) : weight f d n = f t := by
  rw [weight, h]
  rfl

theorem weight_erase (d : Dir ν τ) (n m : ν) :
    weight f (d.erase n) m = if m = n then 0 else weight f d m := by
  rcases eq_or_ne m n with rfl | hm
  · rw [if_pos rfl, weight, AList.lookup_erase]
    rfl
  · rw [if_neg hm, weight, AList.lookup_erase_ne hm, ← weight]

theorem total_eq_sum {s : Finset ν} (h : ∀ n ∈ d, n ∈ s) : total f d = ∑ n ∈ s, weight f d n := by
  apply Finset.sum_subset
  · intro n hn
    exact h n (AList.mem_keys.mpr (List.mem_toFinset.mp hn))
  · intro n _ hn
    apply weight_of_notMem
    intro hmem
    exact hn (List.mem_toFinset.mpr (AList.mem_keys.mp hmem))

theorem total_congr {d e : Dir ν τ} (h : ∀ n, weight f d n = weight f e n) :
    total f d = total f e := by
  rw [total_eq_sum (d := d) (s := d.keys.toFinset ∪ e.keys.toFinset),
    total_eq_sum (d := e) (s := d.keys.toFinset ∪ e.keys.toFinset)]
  · exact Finset.sum_congr rfl fun n _ ↦ h n
  · intro n hn
    exact Finset.mem_union_right _ (List.mem_toFinset.mpr (AList.mem_keys.mp hn))
  · intro n hn
    exact Finset.mem_union_left _ (List.mem_toFinset.mpr (AList.mem_keys.mp hn))

theorem total_eq_entries (d : Dir ν τ) : total f d = (d.entries.map fun e ↦ f e.2).sum := by
  rw [total, List.sum_toFinset _ (AList.keys_nodup d), AList.keys, List.keys, List.map_map]
  congr 1
  apply List.map_congr_left
  intro e he
  exact weight_of_lookup (AList.mem_lookup_iff.mpr he)

theorem total_of_lookup {l : List (ν × τ)} (hl : (l.map Prod.fst).Nodup)
    (h : ∀ n t, d.lookup n = some t ↔ (n, t) ∈ l) : total f d = (l.map fun x ↦ f x.2).sum := by
  have hmem : ∀ n ∈ d, n ∈ (l.map Prod.fst).toFinset := by
    intro n hn
    obtain ⟨t, ht⟩ := Option.isSome_iff_exists.mp (AList.lookup_isSome.mpr hn)
    exact List.mem_toFinset.mpr (List.mem_map_of_mem ((h n t).mp ht))
  rw [total_eq_sum hmem, List.sum_toFinset _ hl, List.map_map]
  congr 1
  apply List.map_congr_left
  intro x hx
  exact weight_of_lookup ((h x.1 x.2).mpr hx)

theorem total_erase_add (h : d.lookup n = some t) : f t + total f (d.erase n) = total f d := by
  have hmem : n ∈ d.keys.toFinset :=
    List.mem_toFinset.mpr (AList.mem_keys.mp (AList.lookup_isSome.mp (by rw [h]; rfl)))
  have hsplit := Finset.add_sum_erase d.keys.toFinset (weight f d) hmem
  rw [← total, weight_of_lookup h] at hsplit
  rw [← hsplit]
  congr 1
  rw [total_eq_sum (s := d.keys.toFinset.erase n)]
  · apply Finset.sum_congr rfl
    intro m hm
    rw [weight_erase, if_neg (Finset.ne_of_mem_erase hm)]
  · intro m hm
    obtain ⟨hne, hm⟩ := AList.mem_erase.mp hm
    exact Finset.mem_erase.mpr ⟨hne, List.mem_toFinset.mpr (AList.mem_keys.mp hm)⟩

theorem total_insert (d : Dir ν τ) (n : ν) (t : τ) :
    total f (d.insert n t) = f t + total f (d.erase n) := by
  rw [← total_erase_add (AList.lookup_insert d)]
  congr 1
  apply total_congr
  intro m
  rw [weight_erase, weight_erase]
  split
  · rfl
  · next hm => rw [weight, AList.lookup_insert_ne hm, ← weight]

end FingerMove.Directory
