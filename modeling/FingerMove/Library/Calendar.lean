import FingerMove.Library.CText
import Mathlib.Data.List.Forall2

namespace FingerMove.Calendar

open CText

theorem append_lt_append {α : Type*} [LT α] {a b : List α} (h : a.length = b.length)
    (c d : List α) :
    a ++ c < b ++ d ↔ a < b ∨ a = b ∧ c < d := by
  induction a generalizing b with
  | nil =>
    obtain rfl := List.length_eq_zero_iff.mp h.symm
    simp
  | cons x a ih =>
    obtain ⟨y, b, rfl⟩ := List.exists_cons_of_length_eq_add_one h.symm
    have hrest : a ++ c < b ++ d ↔ a < b ∨ a = b ∧ c < d := ih (Nat.succ.inj h)
    rw [List.cons_append, List.cons_append, List.cons_lt_cons_iff, List.cons_lt_cons_iff, hrest,
      List.cons.injEq, or_assoc, and_assoc, and_or_left]

section Digits

/-- The last `w` decimal digits of `n`. -/
def fixed : ℕ → ℕ → Text
  | 0, _ => []
  | w + 1, n => fixed w (n / 10) ++ [(n % 10).digitChar]

@[simp] theorem length_fixed (w n : ℕ) : (fixed w n).length = w := by
  induction w generalizing n with
  | zero => rfl
  | succ w ih => simp [fixed, ih]

theorem fixed_zero (w : ℕ) : fixed w 0 = List.replicate w '0' := by
  induction w with
  | zero => rfl
  | succ w ih =>
    rw [fixed, Nat.zero_div, ih, List.replicate_succ']
    rfl

theorem isDigit_of_mem_fixed {w n : ℕ} {c : Char} (hc : c ∈ fixed w n) : c.isDigit := by
  induction w generalizing n with
  | zero => cases hc
  | succ w ih =>
    rcases List.mem_append.mp hc with hc | hc
    · exact ih hc
    · obtain rfl := List.mem_singleton.mp hc
      rw [Nat.isDigit_digitChar]
      exact decide_eq_true (Nat.mod_lt n (by decide))

theorem digitChar_lt : ∀ i < 10, ∀ j < 10, i < j → i.digitChar < j.digitChar := by decide

theorem fixed_lt {w m n : ℕ} (h : m < n) (hn : n < 10 ^ w) : fixed w m < fixed w n := by
  induction w generalizing m n with
  | zero => omega
  | succ w ih =>
    rw [fixed, fixed, append_lt_append (by simp)]
    rcases Nat.lt_or_ge (m / 10) (n / 10) with hlt | hge
    · exact .inl (ih hlt (by omega))
    · have hsame : m / 10 = n / 10 := by omega
      refine .inr ⟨by rw [hsame], ?_⟩
      exact List.Lex.rel (digitChar_lt _ (Nat.mod_lt _ (by decide)) _ (Nat.mod_lt _ (by decide))
        (by omega))

def number (w : ℕ) (x : ℤ) : Text :=
  if x < 0 then '-' :: decimal x.natAbs else (decimal x.toNat).leftpad w '0'

theorem leftpad_decimal {w n : ℕ} (hn : n < 10 ^ (w + 1)) :
    (decimal n).leftpad (w + 1) '0' = fixed (w + 1) n := by
  induction w generalizing n with
  | zero =>
    have hlt : n < 10 := hn
    rw [decimal, Nat.toDigits_of_lt_base hlt, fixed, Nat.mod_eq_of_lt hlt]
    rfl
  | succ w ih =>
    rw [fixed]
    rcases Nat.lt_or_ge n 10 with hlt | hge
    · rw [decimal, Nat.toDigits_of_lt_base hlt, Nat.div_eq_of_lt hlt, fixed_zero,
        Nat.mod_eq_of_lt hlt]
      rfl
    · rw [← ih (by omega), decimal, decimal, Nat.toDigits_of_base_le (by decide) hge,
        List.leftpad, List.leftpad, List.length_append, List.length_singleton,
        Nat.add_sub_add_right, List.append_assoc]

def Fits (w : ℕ) (x : ℤ) : Prop := 0 < w ∧ 0 ≤ x ∧ x < (10 ^ w : ℕ)

variable {w : ℕ} {x y : ℤ}

theorem number_eq (h : Fits w x) : number w x = fixed w x.toNat := by
  obtain ⟨hw, hx, hlt⟩ := h
  obtain ⟨v, rfl⟩ : ∃ v, w = v + 1 := ⟨w - 1, by omega⟩
  rw [number, if_neg (by omega), leftpad_decimal (by omega)]

theorem mem_number {c : Char} (hc : c ∈ number w x) : c.isDigit ∨ c = '-' := by
  unfold number at hc
  split at hc
  · rcases List.mem_cons.mp hc with rfl | hc
    · exact .inr rfl
    · exact .inl (isDigit_of_mem_decimal hc)
  · rcases List.mem_append.mp hc with hc | hc
    · obtain ⟨-, rfl⟩ := List.mem_replicate.mp hc
      exact .inl rfl
    · exact .inl (isDigit_of_mem_decimal hc)

theorem length_number (h : Fits w x) : (number w x).length = w := by
  rw [number_eq h, length_fixed]

theorem number_lt_of_head (h : Fits w x) {c : Char} (hc : '9' < c) (s t : Text) :
    number w x ++ s < c :: t := by
  obtain ⟨v, hv⟩ : ∃ v, w = v + 1 := ⟨w - 1, by have hw := h.1; omega⟩
  obtain ⟨d, r, hdr⟩ := List.exists_cons_of_length_eq_add_one ((length_number h).trans hv)
  have hd : d.isDigit := isDigit_of_mem_fixed (number_eq h ▸ hdr ▸ List.mem_cons_self)
  have hle : d.val ≤ '9'.val := of_decide_eq_true (Bool.and_eq_true_iff.mp hd).2
  rw [hdr]
  exact List.Lex.rel (UInt32.lt_of_le_of_lt hle hc)

theorem number_lt (hx : Fits w x) (hy : Fits w y) (h : x < y) : number w x < number w y := by
  rw [number_eq hx, number_eq hy]
  obtain ⟨-, hx, -⟩ := hx
  obtain ⟨-, -, hy⟩ := hy
  exact fixed_lt (by omega) (by omega)

theorem number_lt_iff (hx : Fits w x) (hy : Fits w y) : number w x < number w y ↔ x < y := by
  refine ⟨?_, number_lt hx hy⟩
  intro h
  rcases lt_trichotomy x y with hlt | rfl | hgt
  · exact hlt
  · exact absurd h (List.lt_irrefl _)
  · exact absurd h (List.lt_asymm (number_lt hy hx hgt))

theorem number_inj (hx : Fits w x) (hy : Fits w y) : number w x = number w y ↔ x = y := by
  refine ⟨?_, fun h ↦ h ▸ rfl⟩
  intro h
  have hxy := mt (number_lt_iff hx hy).mpr (h ▸ List.lt_irrefl _)
  have hyx := mt (number_lt_iff hy hx).mpr (h ▸ List.lt_irrefl _)
  omega

/-- Numbers in given widths, each with a text behind it. -/
def printed : List (ℕ × Text) → List ℤ → Text
  | (w, sep) :: ws, x :: xs => number w x ++ (sep ++ printed ws xs)
  | _, _ => []

theorem printed_lt_iff {ws : List (ℕ × Text)} {xs ys : List ℤ}
    (hx : List.Forall₂ (fun w x ↦ Fits w.1 x) ws xs)
    (hy : List.Forall₂ (fun w x ↦ Fits w.1 x) ws ys) :
    printed ws xs < printed ws ys ↔ xs < ys := by
  induction hx generalizing ys with
  | nil =>
    cases hy
    simp [printed]
  | @cons w x ws xs hwx hx ih =>
    cases hy with
    | cons hwy hy =>
      rw [printed, printed,
        append_lt_append ((length_number hwx).trans (length_number hwy).symm),
        append_lt_append rfl, number_lt_iff hwx hwy, number_inj hwx hwy, ih hy,
        List.cons_lt_cons_iff, or_iff_right (List.lt_irrefl w.2), and_iff_right rfl]

end Digits

section Dates

def isLeap (y : ℤ) : Bool := y % 4 = 0 && y % 100 ≠ 0 || y % 400 = 0

def daysBeforeYear (y : ℤ) : ℤ := 365 * (y - 1) + (y - 1) / 4 - (y - 1) / 100 + (y - 1) / 400

def monthLengths (y : ℤ) : List ℤ :=
  [31, if isLeap y then 29 else 28, 31, 30, 31, 30, 31, 31, 30, 31, 30, 31]

/-- The year of a day, which is counted from the first of year 1. The mean
length of a year is right up to one year. -/
def yearOf (n : ℤ) : ℤ :=
  let y := 400 * n / 146097 + 1
  if n < daysBeforeYear y then y - 1 else if n < daysBeforeYear (y + 1) then y else y + 1

/-- The stretch that a day falls into, of those that follow each other, and its
place there. -/
def place : List ℤ → ℤ → ℤ × ℤ
  | [], d => (0, d)
  | l :: ls, d => if d < l then (0, d) else ((place ls (d - l)).1 + 1, (place ls (d - l)).2)

theorem daysBeforeYear_le {y z : ℤ} (h : y ≤ z) : daysBeforeYear y ≤ daysBeforeYear z := by
  unfold daysBeforeYear
  omega

theorem yearOf_spec (n : ℤ) :
    daysBeforeYear (yearOf n) ≤ n ∧ n < daysBeforeYear (yearOf n + 1) := by
  unfold yearOf
  dsimp only
  split
  · unfold daysBeforeYear at *
    omega
  · split
    · omega
    · unfold daysBeforeYear at *
      omega

theorem le_yearOf_iff {y n : ℤ} : y ≤ yearOf n ↔ daysBeforeYear y ≤ n := by
  obtain ⟨hle, hlt⟩ := yearOf_spec n
  constructor
  · intro h
    exact (daysBeforeYear_le h).trans hle
  · intro h
    by_contra hy
    have hnext : daysBeforeYear (yearOf n + 1) ≤ daysBeforeYear y := daysBeforeYear_le (by omega)
    omega

theorem yearOf_le {m n : ℤ} (h : m ≤ n) : yearOf m ≤ yearOf n :=
  le_yearOf_iff.mpr ((yearOf_spec m).1.trans h)

theorem place_nonneg (ls : List ℤ) (d : ℤ) : 0 ≤ (place ls d).1 := by
  induction ls generalizing d with
  | nil => exact le_rfl
  | cons l ls ih =>
    rw [place]
    split
    · exact le_rfl
    · have hrest := ih (d - l)
      dsimp only
      omega

theorem place_le (ls : List ℤ) (d : ℤ) : (place ls d).1 ≤ ls.length := by
  induction ls generalizing d with
  | nil => exact le_rfl
  | cons l ls ih =>
    rw [place]
    split
    · exact Int.natCast_nonneg _
    · have hrest := ih (d - l)
      rw [List.length_cons]
      push_cast
      omega

theorem place_lt {d e : ℤ} (h : d < e) (ls : List ℤ) :
    (place ls d).1 < (place ls e).1 ∨
      (place ls d).1 = (place ls e).1 ∧ (place ls d).2 < (place ls e).2 := by
  induction ls generalizing d e with
  | nil => exact .inr ⟨rfl, h⟩
  | cons l ls ih =>
    rw [place, place]
    by_cases hd : d < l
    · by_cases he : e < l
      · rw [if_pos hd, if_pos he]
        exact .inr ⟨rfl, h⟩
      · rw [if_pos hd, if_neg he]
        have hrest := place_nonneg ls (e - l)
        exact .inl (by dsimp only; omega)
    · have hrest := ih (d := d - l) (e := e - l) (by omega)
      rw [if_neg hd, if_neg (by omega)]
      dsimp only
      omega

theorem place_bounds {b d : ℤ} {ls : List ℤ} (hls : ∀ l ∈ ls, l ≤ b) (h : 0 ≤ d)
    (hd : d < ls.sum) : 0 ≤ (place ls d).2 ∧ (place ls d).2 < b := by
  induction ls generalizing d with
  | nil => simp at hd; omega
  | cons l ls ih =>
    obtain ⟨hl, hls⟩ := List.forall_mem_cons.mp hls
    rw [List.sum_cons] at hd
    rw [place]
    split
    · exact ⟨h, by dsimp only; omega⟩
    · exact ih hls (by omega) (by omega)

theorem sum_monthLengths (y : ℤ) :
    (monthLengths y).sum = daysBeforeYear (y + 1) - daysBeforeYear y := by
  have hlength : (monthLengths y).sum = if isLeap y then 366 else 365 := by
    unfold monthLengths
    cases isLeap y
    · rfl
    · rfl
  have hleap : isLeap y = true ↔ y % 4 = 0 ∧ y % 100 ≠ 0 ∨ y % 400 = 0 := by simp [isLeap]
  rw [hlength]
  unfold daysBeforeYear
  split
  · next h =>
    have hcase := hleap.mp h
    omega
  · next h =>
    have hcase := mt hleap.mpr h
    omega

theorem sub_daysBeforeYear_bounds (n : ℤ) :
    0 ≤ n - daysBeforeYear (yearOf n) ∧
      n - daysBeforeYear (yearOf n) < (monthLengths (yearOf n)).sum := by
  obtain ⟨hle, hlt⟩ := yearOf_spec n
  rw [sum_monthLengths]
  omega

end Dates

section Time

@[ext] structure Tm where
  tm_year : ℤ
  tm_mon : ℤ
  tm_mday : ℤ
  tm_hour : ℤ
  tm_min : ℤ
  tm_sec : ℤ
  deriving DecidableEq

def monthDay (n : ℤ) : ℤ × ℤ := place (monthLengths (yearOf n)) (n - daysBeforeYear (yearOf n))

/-- Days have 86400 seconds, and day 719162 is the first of January 1970. -/
def gmtime (t : ℤ) : Tm where
  tm_year := yearOf (t / 86400 + 719162) - 1900
  tm_mon := (monthDay (t / 86400 + 719162)).1
  tm_mday := (monthDay (t / 86400 + 719162)).2 + 1
  tm_hour := t % 86400 / 3600
  tm_min := t % 3600 / 60
  tm_sec := t % 60

/-- The clock of a host that is `offset` seconds ahead of UTC. -/
def localtime (offset t : ℤ) : Tm := gmtime (t + offset)

def Tm.fields (p : Tm) : List ℤ :=
  [p.tm_year + 1900, p.tm_mon + 1, p.tm_mday, p.tm_hour, p.tm_min, p.tm_sec]

theorem gmtime_lt {t u : ℤ} (h : t < u) : (gmtime t).fields < (gmtime u).fields := by
  have hday : t / 86400 ≤ u / 86400 := Int.ediv_le_ediv (by decide) h.le
  have hyear : yearOf (t / 86400 + 719162) ≤ yearOf (u / 86400 + 719162) := yearOf_le (by omega)
  simp only [Tm.fields, gmtime, List.cons_lt_cons_iff, List.not_lt_nil, and_false, or_false]
  rcases hyear.lt_or_eq with hlt | hsame
  · exact .inl (by omega)
  rcases hday.lt_or_eq with hlt | heq
  · have hplace : (monthDay (t / 86400 + 719162)).1 < (monthDay (u / 86400 + 719162)).1 ∨
        (monthDay (t / 86400 + 719162)).1 = (monthDay (u / 86400 + 719162)).1 ∧
          (monthDay (t / 86400 + 719162)).2 < (monthDay (u / 86400 + 719162)).2 := by
      unfold monthDay
      rw [hsame]
      exact place_lt (by omega) _
    omega
  · rw [heq]
    omega

theorem gmtime_lt_iff {t u : ℤ} : (gmtime t).fields < (gmtime u).fields ↔ t < u := by
  refine ⟨?_, gmtime_lt⟩
  intro h
  rcases lt_trichotomy t u with hlt | rfl | hgt
  · exact hlt
  · exact absurd h (List.lt_irrefl _)
  · exact absurd h (List.lt_asymm (gmtime_lt hgt))

theorem gmtime_year_le {t u : ℤ} (h : t ≤ u) : (gmtime t).tm_year ≤ (gmtime u).tm_year := by
  have hyear : yearOf (t / 86400 + 719162) ≤ yearOf (u / 86400 + 719162) :=
    yearOf_le (by omega)
  exact Int.sub_le_sub_right hyear 1900

theorem le_gmtime_year_iff {y t : ℤ} :
    y ≤ (gmtime t).tm_year + 1900 ↔ daysBeforeYear y ≤ t / 86400 + 719162 := by
  rw [← le_yearOf_iff, gmtime, Int.sub_add_cancel]

theorem gmtime_bounds (t : ℤ) :
    (0 ≤ (gmtime t).tm_mon ∧ (gmtime t).tm_mon ≤ 12) ∧
      (0 < (gmtime t).tm_mday ∧ (gmtime t).tm_mday ≤ 31) ∧
      (0 ≤ (gmtime t).tm_hour ∧ (gmtime t).tm_hour < 24) ∧
      (0 ≤ (gmtime t).tm_min ∧ (gmtime t).tm_min < 60) ∧
      0 ≤ (gmtime t).tm_sec ∧ (gmtime t).tm_sec < 60 := by
  have hlengths : ∀ l ∈ monthLengths (yearOf (t / 86400 + 719162)), l ≤ 31 := by
    unfold monthLengths
    split
    · decide
    · decide
  obtain ⟨hle, hlt⟩ := sub_daysBeforeYear_bounds (t / 86400 + 719162)
  obtain ⟨hmday, hmday'⟩ := place_bounds hlengths hle hlt
  refine ⟨⟨place_nonneg _ _, place_le _ _⟩, ?_, ?_⟩
  · exact ⟨Int.lt_add_one_of_le hmday, hmday'⟩
  · dsimp only [gmtime]
    omega

end Time

section Format

/-- The conversions that print a field in full; others are left as they stand. -/
def conversion (p : Tm) : Char → Text
  | 'Y' => number 4 (p.tm_year + 1900)
  | 'm' => number 2 (p.tm_mon + 1)
  | 'd' => number 2 p.tm_mday
  | 'H' => number 2 p.tm_hour
  | 'M' => number 2 p.tm_min
  | 'S' => number 2 p.tm_sec
  | c => ['%', c]

def expand (p : Tm) : Text → Text
  | '%' :: c :: f => conversion p c ++ expand p f
  | c :: f => c :: expand p f
  | [] => []

/-- `strftime` into a buffer of `size` bytes, whose content is undefined when the
text does not fit. -/
def strftime (size : ℕ) (f : Text) (p : Tm) : Option Text := sprintf size (expand p f)

theorem expand_conversion (p : Tm) (c : Char) (f : Text) :
    expand p ('%' :: c :: f) = conversion p c ++ expand p f := rfl

theorem expand_plain (p : Tm) {c : Char} (hc : c ≠ '%') (f : Text) :
    expand p (c :: f) = c :: expand p f := by
  rw [expand]
  intro _ _ h _
  exact hc h

theorem expand_append {s : Text} (hs : '%' ∉ s) (f : Text) (p : Tm) :
    expand p (s ++ f) = s ++ expand p f := by
  induction s with
  | nil => rfl
  | cons c s ih =>
    obtain ⟨hc, hs⟩ := not_or.mp (mt List.mem_cons.mpr hs)
    rw [List.cons_append, List.cons_append, expand_plain p (Ne.symm hc), ih hs]

theorem strftime_eq {size : ℕ} {f : Text} {p : Tm} (h : (expand p f).length < size) :
    strftime size f p = some (expand p f) := if_pos h

example : gmtime 951782399 = ⟨100, 1, 28, 23, 59, 59⟩ := by decide

example : gmtime 951782400 = ⟨100, 1, 29, 0, 0, 0⟩ := by decide

end Format

end FingerMove.Calendar
