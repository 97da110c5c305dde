import Mathlib.Data.List.Basic
import Mathlib.Logic.Function.Basic

namespace FingerMove.Mirror

open Function

variable {A V : Type*}

structure Writer (V : Type*) where
  value : V
  done : ℕ
  begun : Bool

/-- An item with its copies, the writers at work on it, and how many copies a
removal has come past. -/
@[ext] structure Item (A V : Type*) where
  main : Option V
  copy : A → Option V
  writer : ℕ → Option (Writer V)
  removal : Option ℕ

def Item.Idle (x : Item A V) : Prop := (∀ k, x.writer k = none) ∧ x.removal = none

variable (places : List A)

/-- One step of one party; a writer starts on an idle item only, and a removal
where no one writes. -/
inductive Move [DecidableEq A] : Item A V → Item A V → Prop
  | start {x} (k : ℕ) (v : V) : x.Idle →
      Move x { x with writer := update x.writer k (some ⟨v, 0, false⟩) }
  | copy {x} (k : ℕ) (w : Writer V) (a : A) : x.writer k = some w → w.begun = false →
      places[w.done]? = some a →
      Move x { x with
        copy := update x.copy a (some w.value)
        writer := update x.writer k (some { w with begun := true }) }
  | publish {x} (k : ℕ) (w : Writer V) : x.writer k = some w → w.begun = true →
      Move x { x with
        main := some w.value
        writer := update x.writer k (some { w with done := w.done + 1, begun := false }) }
  | finish {x} (k : ℕ) (w : Writer V) : x.writer k = some w → places[w.done]? = none →
      Move x { x with writer := update x.writer k none }
  | remove {x} : (∀ k, x.writer k = none) → Move x { x with main := none, removal := some 0 }
  | erase {x} (i : ℕ) (a : A) : x.removal = some i → places[i]? = some a →
      Move x { x with copy := update x.copy a none, removal := some (i + 1) }
  | restart {x} (i : ℕ) : x.removal = some i → Move x { x with removal := some 0 }
  | settle {x} (i : ℕ) : x.removal = some i → places[i]? = none →
      Move x { x with removal := none }

/-- What holds of an item as long as one party at a time is at work on it. -/
inductive Good (x : Item A V) : Prop
  | idle : x.Idle → (∀ a ∈ places, x.copy a = x.main) → Good x
  | writing (k : ℕ) (w : Writer V) : x.writer k = some w → (∀ j ≠ k, x.writer j = none) →
      x.removal = none → (0 < w.done → x.main = some w.value) →
      (∀ a ∈ places.take (if w.begun then w.done + 1 else w.done), x.copy a = some w.value) → Good x
  | removing (i : ℕ) : (∀ k, x.writer k = none) → x.removal = some i → x.main = none →
      (∀ a ∈ places.take i, x.copy a = none) → Good x

variable {places} {x y : Item A V}

theorem mem_take_succ {i : ℕ} {a b : A} (h : places[i]? = some a) :
    b ∈ places.take (i + 1) ↔ b ∈ places.take i ∨ b = a := by
  rw [List.take_add_one, h]
  simp

theorem take_of_getElem_none {i : ℕ} (h : places[i]? = none) : places.take i = places :=
  List.take_of_length_le (List.getElem?_eq_none_iff.mp h)

theorem good_writer (h : Good places x) {k : ℕ} {w : Writer V} (hk : x.writer k = some w) :
    (∀ j ≠ k, x.writer j = none) ∧ x.removal = none ∧ (0 < w.done → x.main = some w.value) ∧
      ∀ a ∈ places.take (if w.begun then w.done + 1 else w.done), x.copy a = some w.value := by
  cases h with
  | idle hidle _ => simp [hidle.1 k] at hk
  | removing i hfree _ _ _ => simp [hfree k] at hk
  | writing j v hj hothers hrem hmain hcopies =>
    rcases eq_or_ne k j with rfl | hne
    · obtain rfl := Option.some.inj (hj.symm.trans hk)
      exact ⟨hothers, hrem, hmain, hcopies⟩
    · simp [hothers k hne] at hk

theorem good_removal (h : Good places x) {i : ℕ} (hi : x.removal = some i) :
    (∀ k, x.writer k = none) ∧ x.main = none ∧ ∀ a ∈ places.take i, x.copy a = none := by
  cases h with
  | idle hidle _ => simp [hidle.2] at hi
  | writing k w _ _ hrem _ _ => simp [hrem] at hi
  | removing j hfree hj hmain hcopies =>
    obtain rfl := Option.some.inj (hj.symm.trans hi)
    exact ⟨hfree, hmain, hcopies⟩

theorem good_move [DecidableEq A] (h : Good places x) (hm : Move places x y) : Good places y := by
  cases hm with
  | start k v hidle =>
    refine .writing k ⟨v, 0, false⟩ (by simp) ?_ hidle.2 (by simp) (by simp)
    intro j hj
    simpa [hj] using hidle.1 j
  | copy k w a hk hbegun ha =>
    obtain ⟨hothers, hrem, hmain, hcopies⟩ := good_writer h hk
    refine .writing k { w with begun := true } (by simp) ?_ hrem hmain ?_
    · intro j hj
      simpa [hj] using hothers j hj
    · intro b hb
      rcases eq_or_ne b a with rfl | hne
      · simp
      · have hb := ((mem_take_succ ha).mp hb).resolve_right hne
        simpa [hne] using hcopies b (by simpa [hbegun] using hb)
  | publish k w hk hbegun =>
    obtain ⟨hothers, hrem, -, hcopies⟩ := good_writer h hk
    refine .writing k { w with done := w.done + 1, begun := false } (by simp) ?_ hrem
      (fun _ ↦ rfl) fun b hb ↦ hcopies b (by simpa [hbegun] using hb)
    intro j hj
    simpa [hj] using hothers j hj
  | finish k w hk hend =>
    obtain ⟨hothers, hrem, hmain, hcopies⟩ := good_writer h hk
    refine .idle ⟨?_, hrem⟩ ?_
    · intro j
      rcases eq_or_ne j k with rfl | hj
      · simp
      · simpa [hj] using hothers j hj
    · intro a ha
      have hall : ∀ b ∈ places, x.copy b = some w.value := by
        intro b hb
        apply hcopies
        have hle : places.length ≤ w.done := List.getElem?_eq_none_iff.mp hend
        rw [List.take_of_length_le (by split <;> omega)]
        exact hb
      -- without places the original is never set, but then there is no `a`
      have hpos : 0 < w.done :=
        Nat.lt_of_lt_of_le (List.length_pos_of_mem ha) (List.getElem?_eq_none_iff.mp hend)
      rw [hmain hpos]
      exact hall a ha
  | remove hfree => exact .removing 0 hfree rfl rfl (by simp)
  | erase i a hi ha =>
    obtain ⟨hfree, hmain, hcopies⟩ := good_removal h hi
    refine .removing (i + 1) hfree rfl hmain ?_
    intro b hb
    rcases eq_or_ne b a with rfl | hne
    · simp
    · simpa [hne] using hcopies b (((mem_take_succ ha).mp hb).resolve_right hne)
  | restart i hi =>
    obtain ⟨hfree, hmain, -⟩ := good_removal h hi
    exact .removing 0 hfree rfl hmain (by simp)
  | settle i hi hend =>
    obtain ⟨hfree, hmain, hcopies⟩ := good_removal h hi
    refine .idle ⟨hfree, rfl⟩ ?_
    intro a ha
    rw [hmain]
    exact hcopies a (by rwa [take_of_getElem_none hend])

theorem copies_eq (h : Good places x) (hi : x.Idle) : ∀ a ∈ places, x.copy a = x.main := by
  cases h with
  | idle _ heq => exact heq
  | writing k w hk _ _ _ _ => simp [hi.1 k] at hk
  | removing i _ hrem _ _ => simp [hi.2] at hrem

end FingerMove.Mirror
