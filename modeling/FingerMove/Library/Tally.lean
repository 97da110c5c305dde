import Mathlib.Algebra.Ring.Nat
import Mathlib.Data.List.Sort
import Mathlib.Data.List.Lex
import Mathlib.Data.List.Count
import Mathlib.Data.List.Induction

namespace FingerMove.Tally

structure StrictWeak {α : Type*} (lt : α → α → Bool) : Prop where
  asymm : ∀ a b, lt a b = true → lt b a = false
  split : ∀ a b c, lt a c = true → lt a b = true ∨ lt b c = true

/-- A sorting routine that promises what `std::sort` does: the elements come
out in order, and nothing is said about the order of equivalent ones. -/
structure Sorter (α : Type*) where
  sort : (α → α → Bool) → List α → List α
  perm : ∀ lt l, StrictWeak lt → (sort lt l).Perm l
  sorted : ∀ lt l, StrictWeak lt → (sort lt l).Pairwise fun a b ↦ lt b a = false

theorem strictWeak_key {α β : Type*} [LinearOrder β] (f : α → β) :
    StrictWeak fun a b ↦ decide (f a < f b) where
  asymm a b h := by simpa using (of_decide_eq_true h).le
  split a b c h := by
    have h := of_decide_eq_true h
    rcases lt_or_ge (f a) (f b) with hab | hab
    · exact .inl (by simpa using hab)
    · exact .inr (by simpa using hab.trans_lt h)

def insertion (α : Type*) : Sorter α where
  sort lt l := l.insertionSort fun a b ↦ lt b a = false
  perm lt l _ := l.perm_insertionSort _
  sorted lt l h := by
    have : Std.Total fun a b ↦ lt b a = false := ⟨fun a b ↦ by
      rcases hab : lt b a with _ | _
      · exact .inl rfl
      · exact .inr (h.asymm b a hab)⟩
    have : IsTrans α fun a b ↦ lt b a = false := ⟨fun a b c hab hbc ↦ by
      by_contra hca
      rcases h.split c b a (by simpa using hca) with h' | h'
      · simp [hbc] at h'
      · simp [hab] at h'⟩
    exact l.pairwise_insertionSort _

section Ranking

variable {α : Type*} {l : List α}

theorem takeWhile_eq_filter {p : α → Bool} (h : l.Pairwise fun a b ↦ p b = true → p a = true) :
    l.takeWhile p = l.filter p := by
  induction l with
  | nil => rfl
  | cons a l ih =>
    obtain ⟨ha, hl⟩ := List.pairwise_cons.mp h
    by_cases hp : p a = true
    · rw [List.takeWhile_cons_of_pos hp, List.filter_cons_of_pos hp, ih hl]
    · rw [List.takeWhile_cons_of_neg hp, List.filter_cons_of_neg hp, eq_comm,
        List.filter_eq_nil_iff]
      exact fun b hb hpb ↦ hp (ha b hb hpb)

theorem take_before {R : α → α → Prop} (h : l.Pairwise R) {n : ℕ} {x : α} (hx : x ∈ l)
    (hout : x ∉ l.take n) : ∀ y ∈ l.take n, R y x := by
  intro y hy
  rw [← List.take_append_drop n l] at h hx
  exact (List.pairwise_append.mp h).2.2 y hy x ((List.mem_append.mp hx).resolve_left hout)

end Ranking

variable {κ : Type*} [LinearOrder κ]

/-- `map[k]++` on a map kept in the order of its keys. -/
def bump (k : κ) : List (κ × ℕ) → List (κ × ℕ)
  | [] => [(k, 1)]
  | (a, n) :: m =>
    if k = a then (a, n + 1) :: m
    else if k < a then (k, 1) :: (a, n) :: m
    else (a, n) :: bump k m

def tally (ks : List κ) : List (κ × ℕ) := ks.foldl (fun m k ↦ bump k m) []

def Ordered (m : List (κ × ℕ)) : Prop := m.Pairwise fun x y ↦ x.1 < y.1

theorem bump_keys (k : κ) (m : List (κ × ℕ)) : ∀ x ∈ bump k m, x.1 = k ∨ ∃ y ∈ m, y.1 = x.1 := by
  induction m with
  | nil => simp [bump]
  | cons y m ih =>
    intro x hx
    simp only [bump] at hx
    split at hx
    · next hk =>
      rcases List.mem_cons.mp hx with rfl | hx
      · exact .inl hk.symm
      · exact .inr ⟨x, List.mem_cons_of_mem _ hx, rfl⟩
    · split at hx
      · rcases List.mem_cons.mp hx with rfl | hx
        · exact .inl rfl
        · exact .inr ⟨x, hx, rfl⟩
      · rcases List.mem_cons.mp hx with rfl | hx
        · exact .inr ⟨y, List.mem_cons_self, rfl⟩
        · refine (ih x hx).imp_right ?_
          rintro ⟨z, hz, he⟩
          exact ⟨z, List.mem_cons_of_mem _ hz, he⟩

theorem bump_ordered {m : List (κ × ℕ)} (h : Ordered m) (k : κ) : Ordered (bump k m) := by
  induction m with
  | nil => simp [bump, Ordered]
  | cons y m ih =>
    obtain ⟨hy, hm⟩ := List.pairwise_cons.mp h
    simp only [bump]
    split
    · exact List.pairwise_cons.mpr ⟨hy, hm⟩
    · split
      · next hlt =>
        refine List.pairwise_cons.mpr ⟨?_, h⟩
        intro x hx
        rcases List.mem_cons.mp hx with rfl | hx
        · exact hlt
        · exact hlt.trans (hy x hx)
      · next hne hge =>
        refine List.pairwise_cons.mpr ⟨?_, ih hm⟩
        intro x hx
        rcases bump_keys k m x hx with he | ⟨z, hz, he⟩
        · rw [he]
          exact lt_of_le_of_ne (not_lt.mp hge) (Ne.symm hne)
        · rw [← he]
          exact hy z hz

theorem mem_bump {m : List (κ × ℕ)} (h : Ordered m) (k a : κ) (n : ℕ) :
    (a, n) ∈ bump k m ↔ (a ≠ k ∧ (a, n) ∈ m) ∨
      (a = k ∧ ((∃ j, (k, j) ∈ m ∧ n = j + 1) ∨ ((∀ j, (k, j) ∉ m) ∧ n = 1))) := by
  induction m with
  | nil => simp [bump]
  | cons y m ih =>
    obtain ⟨b, i⟩ := y
    obtain ⟨hb, hm⟩ := List.pairwise_cons.mp h
    have hfresh : ∀ j, (b, j) ∉ m := fun j hj ↦ lt_irrefl b (hb (b, j) hj)
    simp only [bump]
    split
    · next hk => grind
    · split
      · next hlt =>
        have hk : ∀ j, (k, j) ∉ m := fun j hj ↦ lt_asymm hlt (hb (k, j) hj)
        grind
      · next hne hge =>
        simp only [List.mem_cons, ih hm, Prod.mk.injEq]
        grind

theorem sum_tally (ks : List κ) : ((tally ks).map Prod.snd).sum = ks.length := by
  have hbump : ∀ (k : κ) (m : List (κ × ℕ)),
      ((bump k m).map Prod.snd).sum = (m.map Prod.snd).sum + 1 := by
    intro k m
    induction m with
    | nil => rfl
    | cons y m ih =>
      simp only [bump]
      split
      · simp only [List.map_cons, List.sum_cons]
        omega
      · split
        · simp only [List.map_cons, List.sum_cons]
          omega
        · simp only [List.map_cons, List.sum_cons, ih]
          omega
  induction ks using List.reverseRecOn with
  | nil => rfl
  | append_singleton ks k ih =>
    rw [tally, List.foldl_append, List.foldl_cons, List.foldl_nil, hbump, ← tally, ih,
      List.length_append, List.length_singleton]

variable [BEq κ] [LawfulBEq κ]

theorem counts_bump {ks : List κ} {m : List (κ × ℕ)} (h : Ordered m)
    (hm : ∀ k n, (k, n) ∈ m ↔ k ∈ ks ∧ n = ks.count k) (k a : κ) (n : ℕ) :
    (a, n) ∈ bump k m ↔ a ∈ ks ++ [k] ∧ n = (ks ++ [k]).count a := by
  rw [mem_bump h]
  simp only [hm, List.count_append, List.mem_append, List.mem_singleton]
  rcases eq_or_ne a k with rfl | ha
  · by_cases hmem : a ∈ ks
    · simp [hmem]
    · simp [hmem, List.count_eq_zero_of_not_mem hmem]
  · simp [ha, Ne.symm ha]

theorem tally_spec (ks : List κ) :
    Ordered (tally ks) ∧ ∀ k n, (k, n) ∈ tally ks ↔ k ∈ ks ∧ n = ks.count k := by
  induction ks using List.reverseRecOn with
  | nil => simp [tally, Ordered]
  | append_singleton ks k ih =>
    have hstep : tally (ks ++ [k]) = bump k (tally ks) := by simp [tally]
    rw [hstep]
    exact ⟨bump_ordered ih.1 k, counts_bump ih.1 ih.2 k⟩

theorem mem_tally {ks : List κ} {k : κ} {n : ℕ} :
    (k, n) ∈ tally ks ↔ k ∈ ks ∧ n = ks.count k := (tally_spec ks).2 k n

end FingerMove.Tally
