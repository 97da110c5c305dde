import Mathlib.Data.List.TakeWhile
import Mathlib.Data.Int.Order.Basic
import Mathlib.Algebra.Ring.Int.Defs
import Mathlib.Algebra.Ring.Nat

namespace FingerMove.CText

abbrev Text := List Char

def cstr (t : Text) : Text := t.takeWhile (· ≠ '\x00')

/-- At most `n` bytes, up to and including the first newline, and the rest. -/
def takeLine : ℕ → Text → Text × Text
  | 0, s => ([], s)
  | _ + 1, [] => ([], [])
  | n + 1, c :: s =>
    if c = '\n' then ([c], s) else (c :: (takeLine n s).1, (takeLine n s).2)

def fgets (size : ℕ) (s : Text) : Text × Text := takeLine (size - 1) s

def readsUpTo (size : ℕ) : ℕ → Text → List Text
  | 0, _ => []
  | fuel + 1, s =>
    if s = [] then [] else (fgets size s).1 :: readsUpTo size fuel (fgets size s).2

/-- `while (fgets(..))` over a whole file: a read takes a byte or more. -/
def reads (size : ℕ) (s : Text) : List Text := readsUpTo size s.length s

/-- `sprintf` into a buffer of `size` bytes; writing past its end is undefined. -/
def sprintf (size : ℕ) (t : Text) : Option Text := if t.length < size then some t else none

def isSpace (c : Char) : Bool := c = ' ' || (9 ≤ c.toNat && c.toNat ≤ 13)

def decimal (n : ℕ) : Text := Nat.toDigits 10 n

def digits (t : Text) : ℕ := Nat.ofDigitChars 10 (t.takeWhile Char.isDigit) 0

def signed : Text → ℤ
  | '-' :: t => -digits t
  | '+' :: t => digits t
  | t => digits t

/-- `atoi` as `(int)strtol(t, 0, 10)`: saturated to 64 bits, then cut to 32. -/
def atoi (t : Text) : ℤ :=
  (max (-2 ^ 63) (min (2 ^ 63 - 1) (signed (t.dropWhile isSpace)))).bmod (2 ^ 32)

def strtok (c : Char) (t : Text) : Option (Text × Text) :=
  match t.dropWhile (· = c) with
  | [] => none
  | t => some (t.takeWhile (· ≠ c), (t.dropWhile (· ≠ c)).drop 1)

def find (t : Text) (c : Char) (pos : ℕ) : Option ℕ :=
  if c ∈ t.drop pos then some (pos + (t.drop pos).idxOf c) else none

def substr (t : Text) (pos len : ℕ) : Text := (t.drop pos).take len

section Reads

variable {size : ℕ}

theorem takeLine_append (n : ℕ) (s : Text) : (takeLine n s).1 ++ (takeLine n s).2 = s := by
  induction n generalizing s with
  | zero => rfl
  | succ n ih =>
    cases s with
    | nil => rfl
    | cons c s =>
      simp only [takeLine]
      split
      · rfl
      · simp [ih s]

theorem takeLine_length_le (n : ℕ) (s : Text) : (takeLine n s).1.length ≤ n := by
  induction n generalizing s with
  | zero => rfl
  | succ n ih =>
    cases s with
    | nil => simp [takeLine]
    | cons c s =>
      simp only [takeLine]
      split
      · simp
      · simpa using ih s

theorem takeLine_newline (n : ℕ) (s : Text) : '\n' ∉ (takeLine n s).1.dropLast := by
  induction n generalizing s with
  | zero => simp [takeLine]
  | succ n ih =>
    cases s with
    | nil => simp [takeLine]
    | cons c s =>
      simp only [takeLine]
      split
      · simp
      · next hc =>
        rcases eq_or_ne (takeLine n s).1 [] with he | he
        · simp [he]
        · rw [List.dropLast_cons_of_ne_nil he]
          simpa [Ne.symm hc] using ih s

theorem takeLine_rest_lt {n : ℕ} (hn : 0 < n) {s : Text} (hs : s ≠ []) :
    (takeLine n s).2.length < s.length := by
  obtain ⟨n, rfl⟩ := Nat.exists_eq_succ_of_ne_zero hn.ne'
  obtain ⟨c, s, rfl⟩ := List.exists_cons_of_ne_nil hs
  simp only [takeLine]
  split
  · simp
  · have h := congrArg List.length (takeLine_append n s)
    simp only [List.length_append] at h
    simp only [List.length_cons]
    omega

theorem takeLine_line {n : ℕ} {body rest : Text} (hb : '\n' ∉ body) (hn : body.length < n) :
    takeLine n (body ++ '\n' :: rest) = (body ++ ['\n'], rest) := by
  induction body generalizing n with
  | nil =>
    obtain ⟨n, rfl⟩ := Nat.exists_eq_succ_of_ne_zero (Nat.pos_iff_ne_zero.mp hn)
    simp [takeLine]
  | cons c body ih =>
    obtain ⟨n, rfl⟩ := Nat.exists_eq_succ_of_ne_zero (Nat.ne_of_gt (Nat.zero_lt_of_lt hn))
    have hc : c ≠ '\n' := by rintro rfl; simp at hb
    rw [List.cons_append, takeLine, ih (by simp_all) (by simpa using hn)]
    simp [hc]

theorem takeLine_last {n : ℕ} {body : Text} (hb : '\n' ∉ body) (hn : body.length ≤ n) :
    takeLine n body = (body, []) := by
  induction body generalizing n with
  | nil => cases n <;> rfl
  | cons c body ih =>
    obtain ⟨n, rfl⟩ := Nat.exists_eq_succ_of_ne_zero (Nat.ne_of_gt (Nat.zero_lt_of_lt hn))
    obtain ⟨hc, hb⟩ := not_or.mp (List.mem_cons.not.mp hb)
    rw [takeLine, if_neg (Ne.symm hc), ih hb (Nat.le_of_succ_le_succ hn)]

theorem fgets_rest_lt (hsize : 1 < size) {s : Text} (hs : s ≠ []) :
    (fgets size s).2.length < s.length :=
  takeLine_rest_lt (by omega) hs

theorem readsUpTo_enough (hsize : 1 < size) {fuel : ℕ} {s : Text} (hf : s.length ≤ fuel) :
    readsUpTo size fuel s = reads size s := by
  induction fuel using Nat.strong_induction_on generalizing s with
  | _ fuel ih =>
    by_cases hs : s = []
    · subst hs
      cases fuel <;> simp [readsUpTo, reads]
    · have hlt := fgets_rest_lt hsize hs
      have hpos := List.length_pos_iff.mpr hs
      obtain ⟨fuel, rfl⟩ := Nat.exists_eq_succ_of_ne_zero (show fuel ≠ 0 by omega)
      obtain ⟨m, hm⟩ := Nat.exists_eq_succ_of_ne_zero hpos.ne'
      rw [reads, hm, readsUpTo, readsUpTo, if_neg hs, if_neg hs]
      have hrest : (fgets size s).2.length ≤ m := by omega
      rw [ih fuel (Nat.lt_succ_self _) (hrest.trans (by omega))]
      -- the rest is shorter than either fuel, so both give its reads
      by_cases h : m < fuel + 1
      · rw [ih m h hrest]
      · omega

theorem reads_nil : reads size [] = [] := rfl

theorem reads_cons (hsize : 1 < size) {s : Text} (hs : s ≠ []) :
    reads size s = (fgets size s).1 :: reads size (fgets size s).2 := by
  have hlt := fgets_rest_lt hsize hs
  obtain ⟨m, hm⟩ := Nat.exists_eq_succ_of_ne_zero (List.length_pos_iff.mpr hs).ne'
  rw [reads, hm, readsUpTo, if_neg hs, readsUpTo_enough hsize]
  omega

theorem fgets_shape (hsize : 1 < size) {s : Text} (hs : s ≠ []) :
    (fgets size s).1 ≠ [] ∧ (fgets size s).1.length < size ∧ '\n' ∉ (fgets size s).1.dropLast := by
  have hlen : (fgets size s).1.length ≤ size - 1 := takeLine_length_le (size - 1) s
  refine ⟨?_, by omega, takeLine_newline (size - 1) s⟩
  intro he
  have happ : (fgets size s).1 ++ (fgets size s).2 = s := takeLine_append (size - 1) s
  have hlt := fgets_rest_lt hsize hs
  rw [he, List.nil_append] at happ
  rw [happ] at hlt
  exact Nat.lt_irrefl _ hlt

theorem reads_shape (hsize : 1 < size) {s l : Text} (hl : l ∈ reads size s) :
    l ≠ [] ∧ l.length < size ∧ '\n' ∉ l.dropLast := by
  induction hn : s.length using Nat.strong_induction_on generalizing s with
  | _ n ih =>
    by_cases hs : s = []
    · subst hs
      simp [reads_nil] at hl
    · rw [reads_cons hsize hs] at hl
      rcases List.mem_cons.mp hl with rfl | hl
      · exact fgets_shape hsize hs
      · exact ih _ (hn ▸ fgets_rest_lt hsize hs) hl rfl

/-- A line of a text file that one `fgets` reads whole. -/
def IsLine (size : ℕ) (l : Text) : Prop :=
  l.length < size ∧ ∃ body, '\n' ∉ body ∧ l = body ++ ['\n']

theorem reads_flatten {ls : List Text} (h : ∀ l ∈ ls, IsLine size l) :
    reads size ls.flatten = ls := by
  induction ls with
  | nil => rfl
  | cons l ls ih =>
    obtain ⟨hlen, body, hb, rfl⟩ := h l List.mem_cons_self
    have hlt : body.length < size - 1 := by
      simp only [List.length_append, List.length_singleton] at hlen
      omega
    have hget : fgets size ((body ++ ['\n']) ++ ls.flatten) = (body ++ ['\n'], ls.flatten) := by
      rw [List.append_assoc]
      exact takeLine_line hb hlt
    rw [List.flatten_cons, reads_cons (by omega) (by simp), hget,
      ih (fun l hl ↦ h l (List.mem_cons_of_mem _ hl))]

theorem reads_last {body : Text} (hne : body ≠ []) (hb : '\n' ∉ body) (hlt : body.length < size) :
    reads size body = [body] := by
  have hpos := List.length_pos_iff.mpr hne
  have hget : fgets size body = (body, []) := takeLine_last hb (by omega)
  rw [reads_cons (by omega) hne, hget, reads_nil]

theorem flatten_reads (hsize : 1 < size) (s : Text) : (reads size s).flatten = s := by
  induction hn : s.length using Nat.strong_induction_on generalizing s with
  | _ n ih =>
    by_cases hs : s = []
    · subst hs
      rfl
    · rw [reads_cons hsize hs, List.flatten_cons, ih _ (hn ▸ fgets_rest_lt hsize hs) _ rfl]
      exact takeLine_append (size - 1) s

end Reads

section Lines

def lines : Text → List Text
  | [] => []
  | c :: t =>
    if c = '\n' then [c] :: lines t else
      match lines t with
      | [] => [[c]]
      | l :: ls => (c :: l) :: ls

/-- A text that ends with a newline if it is not empty. -/
def Complete (t : Text) : Prop := ∀ c ∈ t.getLast?, c = '\n'

instance (t : Text) : Decidable (Complete t) :=
  decidable_of_iff (t.getLast?.all (· = '\n') = true) (by simp [Complete, Option.all_eq_true])

theorem complete_nil : Complete [] := fun _ hc ↦ nomatch hc

theorem lines_eq_nil {t : Text} (h : lines t = []) : t = [] := by
  cases t with
  | nil => rfl
  | cons c t =>
    simp only [lines] at h
    split at h
    · cases h
    · split at h <;> cases h

theorem lines_append {t : Text} (h : Complete t) (u : Text) :
    lines (t ++ u) = lines t ++ lines u := by
  induction t with
  | nil => rfl
  | cons c t ih =>
    rw [List.cons_append, lines, lines]
    cases t with
    | nil =>
      have hc : c = '\n' := h c rfl
      rw [if_pos hc, if_pos hc]
      rfl
    | cons d t =>
      rw [ih fun e he ↦ h e (by rwa [List.getLast?_cons_cons])]
      split
      · rfl
      · cases hl : lines (d :: t) with
        | nil => exact absurd (lines_eq_nil hl) (List.cons_ne_nil _ _)
        | cons l ls => rfl

theorem Complete.append {t u : Text} (ht : Complete t) (hu : Complete u) : Complete (t ++ u) := by
  intro c hc
  rw [List.getLast?_append] at hc
  cases hl : u.getLast? with
  | none =>
    rw [hl] at hc
    exact ht c hc
  | some d =>
    rw [hl] at hc
    exact hu c (hl ▸ hc)

theorem Complete.of_append {t u : Text} (h : Complete (t ++ u)) : Complete u := by
  intro c hc
  apply h
  rw [List.getLast?_append, hc]
  rfl

theorem lines_flatten {ts : List Text} (h : ∀ t ∈ ts, Complete t) :
    lines ts.flatten = ts.flatMap lines := by
  induction ts with
  | nil => rfl
  | cons t ts ih =>
    obtain ⟨ht, hts⟩ := List.forall_mem_cons.mp h
    rw [List.flatten_cons, lines_append ht, ih hts, List.flatMap_cons]

theorem flatten_lines (t : Text) : (lines t).flatten = t := by
  induction t with
  | nil => rfl
  | cons c t ih =>
    rw [lines]
    split
    · rw [List.flatten_cons, ih]
      rfl
    · cases hl : lines t with
      | nil =>
        rw [lines_eq_nil hl]
        rfl
      | cons l ls =>
        rw [hl] at ih
        rw [← ih]
        rfl

theorem getLast?_of_mem_lines {t l : Text} (h : Complete t) (hl : l ∈ lines t) :
    l.getLast? = some '\n' := by
  induction t generalizing l with
  | nil => simp [lines] at hl
  | cons c t ih =>
    have ht : Complete t := Complete.of_append (t := [c]) h
    rw [lines] at hl
    split at hl
    · next hc =>
      rcases List.mem_cons.mp hl with rfl | hl
      · rw [hc]
        rfl
      · exact ih ht hl
    · next hc =>
      cases hls : lines t with
      | nil =>
        rw [lines_eq_nil hls] at h
        exact absurd (h c rfl) hc
      | cons m ms =>
        rw [hls] at hl ih
        rcases List.mem_cons.mp hl with rfl | hl
        · rw [List.getLast?_cons, ih ht List.mem_cons_self]
          rfl
        · exact ih ht (List.mem_cons_of_mem m hl)

theorem takeLine_complete {t : Text} (h : Complete t) (ht : t ≠ []) (n : ℕ) (u : Text) :
    takeLine n (t ++ u) = ((takeLine n t).1, (takeLine n t).2 ++ u) := by
  induction n generalizing t with
  | zero => rfl
  | succ n ih =>
    obtain ⟨c, t, rfl⟩ := List.exists_cons_of_ne_nil ht
    rw [List.cons_append, takeLine, takeLine]
    split
    · rfl
    · next hc =>
      have hne : t ≠ [] := by
        rintro rfl
        exact hc (h c rfl)
      rw [ih (Complete.of_append (t := [c]) h) hne]

theorem reads_append {size : ℕ} (hsize : 1 < size) {t : Text} (h : Complete t) (u : Text) :
    reads size (t ++ u) = reads size t ++ reads size u := by
  induction hn : t.length using Nat.strong_induction_on generalizing t with
  | _ n ih =>
    by_cases ht : t = []
    · subst ht
      rfl
    · have hne : t ++ u ≠ [] := by simp [ht]
      have hget : fgets size (t ++ u) = ((fgets size t).1, (fgets size t).2 ++ u) :=
        takeLine_complete h ht (size - 1) u
      have hrest : Complete (fgets size t).2 := by
        apply Complete.of_append (t := (fgets size t).1)
        rwa [fgets, takeLine_append]
      rw [reads_cons hsize hne, reads_cons hsize ht, hget,
        ih _ (hn ▸ fgets_rest_lt hsize ht) hrest rfl, List.cons_append]

theorem reads_flatMap {size : ℕ} (hsize : 1 < size) {ts : List Text}
    (h : ∀ t ∈ ts, Complete t) : reads size ts.flatten = ts.flatMap (reads size) := by
  induction ts with
  | nil => rfl
  | cons t ts ih =>
    obtain ⟨ht, hts⟩ := List.forall_mem_cons.mp h
    rw [List.flatten_cons, reads_append hsize ht, ih hts, List.flatMap_cons]

theorem lines_of_noNewline {b : Text} (hne : b ≠ []) (hb : '\n' ∉ b) : lines b = [b] := by
  induction b with
  | nil => exact absurd rfl hne
  | cons c b ih =>
    obtain ⟨hc, hb⟩ := not_or.mp (List.mem_cons.not.mp hb)
    rw [lines, if_neg (Ne.symm hc)]
    cases b with
    | nil => rfl
    | cons d b => rw [ih (List.cons_ne_nil d b) hb]

theorem exists_complete_append (t : Text) :
    ∃ u b, t = u ++ b ∧ Complete u ∧ '\n' ∉ b := by
  induction t with
  | nil => exact ⟨[], [], rfl, complete_nil, List.not_mem_nil⟩
  | cons c t ih =>
    obtain ⟨u, b, rfl, hu, hb⟩ := ih
    by_cases hne : u = []
    · subst hne
      rcases eq_or_ne c '\n' with rfl | hc
      · exact ⟨['\n'], b, rfl, fun c hc ↦ (Option.some.inj hc).symm, hb⟩
      · exact ⟨[], c :: b, rfl, hu, by simp [Ne.symm hc, hb]⟩
    · refine ⟨c :: u, b, rfl, ?_, hb⟩
      intro d hd
      apply hu d
      obtain ⟨e, u, rfl⟩ := List.exists_cons_of_ne_nil hne
      rwa [List.getLast?_cons_cons] at hd

theorem reads_lines {size : ℕ} (hsize : 1 < size) (t : Text) :
    (lines t).flatMap (reads size) = reads size t := by
  obtain ⟨u, b, rfl, hu, hb⟩ := exists_complete_append t
  have hlines : (lines u).flatMap (reads size) = reads size u := by
    rw [← reads_flatMap hsize, flatten_lines]
    intro l hl c hc
    rw [getLast?_of_mem_lines hu hl] at hc
    exact (Option.some.inj hc).symm
  rw [lines_append hu, List.flatMap_append, hlines, reads_append hsize hu]
  rcases eq_or_ne b [] with rfl | hne
  · rfl
  · rw [lines_of_noNewline hne hb, List.flatMap_singleton]

theorem subset_of_mem_lines {t l : Text} (hl : l ∈ lines t) : l ⊆ t := by
  intro c hc
  rw [← flatten_lines t]
  exact List.mem_flatten_of_mem hl hc

theorem newline_of_mem_lines {t l : Text} (hl : l ∈ lines t) : '\n' ∉ l.dropLast := by
  induction t generalizing l with
  | nil => simp [lines] at hl
  | cons c t ih =>
    rw [lines] at hl
    split at hl
    · rcases List.mem_cons.mp hl with rfl | hl
      · exact List.not_mem_nil
      · exact ih hl
    · next hc =>
      cases hls : lines t with
      | nil =>
        rw [hls] at hl
        rw [List.mem_singleton.mp hl]
        exact List.not_mem_nil
      | cons m ms =>
        rw [hls] at hl ih
        rcases List.mem_cons.mp hl with rfl | hl
        · have hm := ih List.mem_cons_self
          cases m with
          | nil => exact List.not_mem_nil
          | cons d m =>
            rw [List.dropLast_cons_cons]
            simp [Ne.symm hc, hm]
        · exact ih (List.mem_cons_of_mem m hl)

def piece (size : ℕ) (l : Text) (k : ℕ) : Text := (l.drop ((size - 1) * k)).take (size - 1)

theorem takeLine_of_newline {l : Text} (h : '\n' ∉ l.dropLast) (n : ℕ) :
    takeLine n l = (l.take n, l.drop n) := by
  induction n generalizing l with
  | zero => rfl
  | succ n ih =>
    match l with
    | [] => rfl
    | [c] =>
      rw [takeLine]
      split <;> cases n <;> rfl
    | c :: d :: l =>
      rw [List.dropLast_cons_cons] at h
      obtain ⟨hc, hl⟩ := not_or.mp (List.mem_cons.not.mp h)
      rw [takeLine, if_neg (Ne.symm hc), ih hl]
      rfl

theorem piece_succ {size : ℕ} (l : Text) (k : ℕ) :
    piece size l (k + 1) = piece size (l.drop (size - 1)) k := by
  rw [piece, piece, List.drop_drop, Nat.mul_succ, Nat.add_comm]

theorem reads_filterMap {α : Type*} {size : ℕ} (hsize : 1 < size) {f : Text → Option α}
    (hf : f [] = none) {l : Text} (h : '\n' ∉ l.dropLast) {n : ℕ} (hn : l.length ≤ n) :
    (reads size l).filterMap f = (List.range n).filterMap fun k ↦ f (piece size l k) := by
  induction n generalizing l with
  | zero =>
    rw [List.length_eq_zero_iff.mp (Nat.le_zero.mp hn)]
    rfl
  | succ n ih =>
    rcases eq_or_ne l [] with rfl | hl
    · simp [reads_nil, piece, hf]
    · have hget : fgets size l = (l.take (size - 1), l.drop (size - 1)) :=
        takeLine_of_newline h (size - 1)
      have hdrop : '\n' ∉ (l.drop (size - 1)).dropLast := by
        intro hmem
        have hne : l.drop (size - 1) ≠ [] := by
          intro he
          rw [he] at hmem
          cases hmem
        rw [← List.take_append_drop (size - 1) l, List.dropLast_append_of_ne_nil hne] at h
        exact h (List.mem_append_right _ hmem)
      have hlt := fgets_rest_lt hsize hl
      simp only [hget] at hlt
      rw [reads_cons hsize hl, hget, List.range_succ_eq_map, List.filterMap_cons,
        List.filterMap_cons, List.filterMap_map, ih hdrop (by omega)]
      simp only [Function.comp_def, piece_succ]
      rw [piece, Nat.mul_zero, List.drop_zero]

end Lines

section Numbers

theorem dropWhile_append {p : Char → Bool} (t u : Text) :
    (t ++ u).dropWhile p = if t.dropWhile p = [] then u.dropWhile p else t.dropWhile p ++ u := by
  rw [List.dropWhile_append]
  simp [List.isEmpty_iff]

theorem takeWhile_stop {p : Char → Bool} {c : Char} (hc : p c = false) (t u : Text) :
    (t ++ c :: u).takeWhile p = t.takeWhile p := by
  induction t with
  | nil => simp [hc]
  | cons d t ih => simp [List.takeWhile_cons, ih]

theorem digits_append {c : Char} (hc : c.isDigit = false) (t u : Text) :
    digits (t ++ c :: u) = digits t := by
  rw [digits, takeWhile_stop hc, digits]

theorem signed_digits {c : Char} (h : c ≠ '-') (h' : c ≠ '+') (t : Text) :
    signed (c :: t) = digits (c :: t) := by
  unfold signed
  split <;> simp_all

theorem signed_append {c : Char} (hc : c.isDigit = false) {t : Text} (ht : t ≠ []) (u : Text) :
    signed (t ++ c :: u) = signed t := by
  obtain ⟨d, t, rfl⟩ := List.exists_cons_of_ne_nil ht
  rw [List.cons_append]
  by_cases hminus : d = '-'
  · subst hminus
    simp only [signed, digits_append hc]
  · by_cases hplus : d = '+'
    · subst hplus
      simp only [signed, digits_append hc]
    · rw [signed_digits hminus hplus, signed_digits hminus hplus, ← List.cons_append,
        digits_append hc]

theorem atoi_append {c : Char} {u : Text} (hc : c.isDigit = false)
    (hu : signed ((c :: u).dropWhile isSpace) = 0) (t : Text) : atoi (t ++ c :: u) = atoi t := by
  unfold atoi
  rw [dropWhile_append]
  split
  · next ht => rw [hu, ht]; rfl
  · next ht => rw [signed_append hc ht]

theorem atoi_bar (t u : Text) : atoi (t ++ '|' :: u) = atoi t :=
  atoi_append rfl rfl t

theorem atoi_newline (t : Text) : atoi (t ++ ['\n']) = atoi t :=
  atoi_append rfl rfl t

theorem decimal_ne_nil (n : ℕ) : decimal n ≠ [] := Nat.toDigits_ne_nil

theorem isDigit_of_mem_decimal {n : ℕ} {c : Char} (hc : c ∈ decimal n) : c.isDigit :=
  Nat.isDigit_of_mem_toDigits (by decide) (by decide) hc

theorem digits_decimal (n : ℕ) {u : Text} (hu : ∀ c ∈ u.head?, c.isDigit = false) :
    digits (decimal n ++ u) = n := by
  have htake : (decimal n ++ u).takeWhile Char.isDigit = decimal n := by
    rw [List.takeWhile_append_of_pos fun _ hc ↦ isDigit_of_mem_decimal hc]
    cases u with
    | nil => simp
    | cons c u => simp [hu c rfl]
  rw [digits, htake]
  exact Nat.ofDigitChars_ten_toDigits

theorem atoi_decimal {n : ℕ} (hn : n < 2 ^ 31) {u : Text} (hu : ∀ c ∈ u.head?, c.isDigit = false) :
    atoi (decimal n ++ u) = n := by
  have hvalue := digits_decimal n hu
  obtain ⟨c, t, hct⟩ := List.exists_cons_of_ne_nil (decimal_ne_nil n)
  have hc : c.isDigit := isDigit_of_mem_decimal (n := n) (by rw [hct]; exact List.mem_cons_self)
  obtain ⟨hlow, hhigh⟩ := Char.isDigit_iff_toNat.mp hc
  simp only [Char.reduceToNat] at hlow hhigh
  have hspace : isSpace c = false := by
    have hne : c ≠ ' ' := by rintro rfl; simp at hlow
    simp only [isSpace, hne, decide_false, Bool.false_or, Bool.and_eq_false_iff,
      decide_eq_false_iff_not]
    omega
  have hminus : c ≠ '-' := by rintro rfl; simp at hc
  have hplus : c ≠ '+' := by rintro rfl; simp at hc
  have hsigned : signed ((decimal n ++ u).dropWhile isSpace) = n := by
    rw [hct] at hvalue ⊢
    rw [List.cons_append, List.dropWhile_cons, hspace] at *
    simpa [signed_digits hminus hplus] using congrArg (fun k : ℕ ↦ (k : ℤ)) hvalue
  rw [atoi, hsigned, min_eq_right (by omega), max_eq_right (by omega)]
  exact Int.bmod_eq_of_le (by omega) (by omega)

end Numbers

section Tokens

variable {c : Char} {t u : Text}

theorem dropWhile_eq_self (ht : t ≠ []) (hc : c ∉ t) (v : Text) :
    (t ++ v).dropWhile (· = c) = t ++ v := by
  obtain ⟨d, t, rfl⟩ := List.exists_cons_of_ne_nil ht
  have hd : d ≠ c := fun he ↦ hc (he ▸ List.mem_cons_self)
  simp [hd]

theorem strtok_token (ht : t ≠ []) (hc : c ∉ t) : strtok c (t ++ c :: u) = some (t, u) := by
  have hall : ∀ d ∈ t, decide (d ≠ c) = true := by
    intro d hd
    simpa using fun he : d = c ↦ hc (he ▸ hd)
  rw [strtok, dropWhile_eq_self ht hc]
  obtain ⟨d, t, rfl⟩ := List.exists_cons_of_ne_nil ht
  simp only [List.cons_append]
  rw [← List.cons_append, List.takeWhile_append_of_pos hall, List.dropWhile_append_of_pos hall]
  simp

theorem strtok_last (ht : t ≠ []) (hc : c ∉ t) : strtok c t = some (t, []) := by
  have hall : ∀ d ∈ t, decide (d ≠ c) = true := by
    intro d hd
    simpa using fun he : d = c ↦ hc (he ▸ hd)
  have hdrop := dropWhile_eq_self ht hc []
  rw [List.append_nil] at hdrop
  rw [strtok, hdrop]
  obtain ⟨d, t, rfl⟩ := List.exists_cons_of_ne_nil ht
  simp only [List.takeWhile_eq_self_iff.mpr hall, List.dropWhile_eq_nil_iff.mpr hall]
  rfl

theorem strtok_nil : strtok c [] = none := rfl

theorem strtok_skip : strtok c (c :: t) = strtok c t := by
  rw [strtok, List.dropWhile_cons_of_pos (by simp), strtok]

theorem strtok_name {r : Text} (h : strtok c t = some (u, r)) : u ≠ [] ∧ c ∉ u := by
  unfold strtok at h
  split at h
  · cases h
  · next hne =>
    obtain ⟨rfl, -⟩ := Prod.mk.inj (Option.some.inj h)
    have hhead := List.head?_dropWhile_not (· = c) t
    obtain ⟨d, v, hv⟩ := List.exists_cons_of_ne_nil hne
    rw [hv] at hhead ⊢
    have hd : d ≠ c := by simpa using hhead
    refine ⟨by simp [hd], fun hmem ↦ ?_⟩
    simpa using List.mem_takeWhile_imp hmem

/-- What is in the buffer after the first call gives the same name once more. -/
theorem strtok_again {r : Text} (h : strtok c t = some (u, r)) :
    strtok c (t.takeWhile (· = c) ++ u) = some (u, []) := by
  obtain ⟨hu, hc⟩ := strtok_name h
  have hskip : ∀ p : Text, (∀ d ∈ p, d = c) → strtok c (p ++ u) = strtok c u := by
    intro p hp
    induction p with
    | nil => rfl
    | cons d p ih =>
      obtain ⟨rfl, hp⟩ := List.forall_mem_cons.mp hp
      rw [List.cons_append, strtok_skip, ih hp]
  rw [hskip _ fun d hd ↦ by simpa using List.mem_takeWhile_imp hd, strtok_last hu hc]

theorem strtok_split {r : Text} (h : strtok c t = some (u, r)) (hr : r ≠ []) :
    ∃ p, t = p ++ u ++ c :: r := by
  unfold strtok at h
  split at h
  · cases h
  · obtain ⟨rfl, rfl⟩ := Prod.mk.inj (Option.some.inj h)
    generalize hv : t.dropWhile (· = c) = v at hr ⊢
    obtain ⟨d, w, hw⟩ : ∃ d w, v.dropWhile (· ≠ c) = d :: w :=
      List.exists_cons_of_ne_nil fun he ↦ hr (by rw [he, List.drop_nil])
    have hd : d = c := by
      have hhead := List.head?_dropWhile_not (· ≠ c) v
      rw [hw] at hhead
      simpa using hhead
    refine ⟨t.takeWhile (· = c), ?_⟩
    have hsplit := List.takeWhile_append_dropWhile (p := (· ≠ c)) (l := v)
    rw [hw, hd] at hsplit
    rw [hw, List.drop_one, List.tail_cons, List.append_assoc, hsplit, ← hv,
      List.takeWhile_append_dropWhile]

theorem substr_find {p q : ℕ} (h : find t c p = some q) :
    substr t p (q - p) = (t.drop p).takeWhile (· ≠ c) := by
  unfold find at h
  split at h
  · next hc =>
    obtain rfl := Option.some.inj h
    rw [substr, Nat.add_sub_cancel_left]
    generalize t.drop p = v at hc
    induction v with
    | nil => simp
    | cons d v ih =>
      rcases eq_or_ne d c with rfl | hd
      · simp
      · rw [List.idxOf_cons, beq_false_of_ne hd, cond_false, List.take_succ_cons,
          ih (by simpa [Ne.symm hd] using hc)]
        simp [hd]
  · cases h

end Tokens

end FingerMove.CText
