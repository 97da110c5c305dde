import Mathlib.Data.List.Nodup
import Mathlib.Logic.Function.Basic

namespace FingerMove.PointerList

variable {N : Type*}

/-- A cell that holds a pointer: the list's own head, or the link field of a node. -/
inductive Slot (N : Type*)
  | head
  | next (a : N)
  deriving DecidableEq

def Linked (next : N → Option N) : Option N → List N → Prop
  | p, [] => p = none
  | p, a :: l => p = some a ∧ Linked next (next a) l

def lastSlot (l : List N) : Slot N := (l.getLast?.map .next).getD .head

/-- `for (p = head; p; p = p->next)`, cut off after `n` nodes. -/
def walk (next : N → Option N) : ℕ → Option N → Option (List N)
  | _, none => some []
  | 0, some _ => none
  | n + 1, some a => (walk next n (next a)).map (a :: ·)

variable {next : N → Option N} {p : Option N} {l : List N} {a : N}

theorem linked_congr {next' : N → Option N} (h : Linked next p l)
    (he : ∀ a ∈ l, next' a = next a) : Linked next' p l := by
  induction l generalizing p with
  | nil => exact h
  | cons a l ih =>
    refine ⟨h.1, ?_⟩
    rw [he a List.mem_cons_self]
    exact ih h.2 (fun b hb ↦ he b (List.mem_cons_of_mem a hb))

theorem walk_linked (h : Linked next p l) {n : ℕ} (hn : l.length ≤ n) : walk next n p = some l := by
  induction l generalizing p n with
  | nil => rw [show p = none from h]; cases n <;> rfl
  | cons a l ih =>
    obtain ⟨rfl, ht⟩ := h
    obtain ⟨n, rfl⟩ : ∃ m, n = m + 1 := Nat.exists_eq_succ_of_ne_zero (by
      rintro rfl; simp at hn)
    rw [walk, ih ht (by simpa using hn)]
    rfl

theorem lastSlot_cons (a : N) (l : List N) (hl : l ≠ []) : lastSlot (a :: l) = lastSlot l := by
  obtain ⟨b, l, rfl⟩ := List.exists_cons_of_ne_nil hl
  rfl

theorem lastSlot_snoc (l : List N) (a : N) : lastSlot (l ++ [a]) = .next a := by
  simp [lastSlot]

theorem mem_of_lastSlot (h : lastSlot l = .next a) : a ∈ l := by
  unfold lastSlot at h
  cases hl : l.getLast? with
  | none => simp [hl] at h
  | some b =>
    simp only [hl, Option.map_some, Option.getD_some, Slot.next.injEq] at h
    exact h ▸ List.mem_of_getLast? hl

theorem eq_nil_of_lastSlot (h : lastSlot l = .head) : l = [] := by
  by_contra hne
  simp [lastSlot, List.getLast?_eq_some_getLast hne] at h

variable [DecidableEq N]

def store (head : Option N) (next : N → Option N) (p : Option N) :
    Slot N → Option N × (N → Option N)
  | .head => (p, next)
  | .next a => (head, Function.update next a p)

theorem linked_update (h : Linked next p l) (ha : a ∉ l) (q : Option N) :
    Linked (Function.update next a q) p l :=
  linked_congr h (fun b hb ↦ Function.update_of_ne (by rintro rfl; exact ha hb) _ _)

theorem linked_last (h : Linked next p l) (hl : l.Nodup) (hb : lastSlot l = .next a) (q : Option N)
    {m : List N} (hq : Linked (Function.update next a q) q m) :
    Linked (Function.update next a q) p (l ++ m) := by
  induction l generalizing p with
  | nil => simp [lastSlot] at hb
  | cons b l ih =>
    refine ⟨h.1, ?_⟩
    rcases eq_or_ne l [] with rfl | hne
    · obtain rfl : b = a := by simpa [lastSlot] using hb
      simpa using hq
    · rw [lastSlot_cons b l hne] at hb
      have hba : b ≠ a := fun he ↦ (List.nodup_cons.mp hl).1 (he ▸ mem_of_lastSlot hb)
      rw [Function.update_of_ne hba]
      exact ih h.2 (List.nodup_cons.mp hl).2 hb

theorem linked_store (h : Linked next p l) (hl : l.Nodup) (ha : a ∉ l) (hn : next a = none) :
    Linked (store p next (some a) (lastSlot l)).2 (store p next (some a) (lastSlot l)).1
      (l ++ [a]) := by
  cases hs : lastSlot l with
  | head =>
    obtain rfl := eq_nil_of_lastSlot hs
    exact ⟨rfl, hn⟩
  | next b =>
    have hba : a ≠ b := fun he ↦ ha (he ▸ mem_of_lastSlot hs)
    refine linked_last h hl hs (some a) ⟨rfl, ?_⟩
    rwa [Function.update_of_ne hba]

theorem store_elsewhere {b : N} (hb : b ∉ l) (q : Option N) :
    (store p next q (lastSlot l)).2 b = next b := by
  cases hs : lastSlot l with
  | head => rfl
  | next c => exact Function.update_of_ne (by rintro rfl; exact hb (mem_of_lastSlot hs)) _ _

end FingerMove.PointerList
