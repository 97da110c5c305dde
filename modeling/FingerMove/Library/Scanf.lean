import FingerMove.Library.CText
import Mathlib.Algebra.Group.Nat.Even

namespace FingerMove.CText

def scanString (t : Text) : Option (Text × Text) :=
  match t.dropWhile isSpace with
  | [] => none
  | u => some (u.takeWhile (!isSpace ·), u.dropWhile (!isSpace ·))

def tokensUpTo : ℕ → Text → List Text
  | 0, _ => []
  | fuel + 1, t =>
    match scanString t with
    | none => []
    | some (x, u) => x :: tokensUpTo fuel u

def tokens (t : Text) : List Text := tokensUpTo t.length t

/-- The contents of two buffers as `fscanf(fp, "%s%s", ..)` leaves them when it
does not return -1, and the rest of the file: where there is one token only,
the second buffer keeps what it held. -/
def scanPair (size : ℕ) (held : Option Text) (t : Text) :
    Option (Option (Text × Option Text × Text)) := do
  let some (x, t) := scanString t | return none
  let x ← sprintf size x
  let some (y, t) := scanString t | return some (x, held, [])
  let y ← sprintf size y
  return some (x, some y, t)

/-- `while (-1 != fscanf(fp, "%s%s", ..))`: the body gets the two buffers, changes
the state and says what it leaves in the second buffer. -/
def forPairs {σ : Type} (size : ℕ)
    (body : Text → Option Text → σ → Option (Option Text × σ)) :
    ℕ → Option Text → Text → σ → Option (Option Text × σ)
  | 0, held, _, s => some (held, s)
  | fuel + 1, held, t, s => do
    let some (x, y, t) ← scanPair size held t | return (held, s)
    let (held, s) ← body x y s
    forPairs size body fuel held t s

def pairs {α : Type*} : List α → List (α × α)
  | x :: y :: l => (x, y) :: pairs l
  | _ => []

section Tokens

variable {t u x : Text}

theorem scanString_lt (h : scanString t = some (x, u)) : u.length < t.length := by
  unfold scanString at h
  split at h
  · cases h
  · next v hv =>
    obtain ⟨rfl, rfl⟩ := Prod.mk.inj (Option.some.inj h)
    obtain ⟨c, w, hw⟩ := List.exists_cons_of_ne_nil hv
    have hc : isSpace c = false := by
      have hhead := List.head?_dropWhile_not isSpace t
      rw [hw] at hhead
      simpa using hhead
    have hle : (t.dropWhile isSpace).length ≤ t.length := (List.dropWhile_suffix _).length_le
    have hrest : (w.dropWhile (!isSpace ·)).length ≤ w.length :=
      (List.dropWhile_suffix _).length_le
    rw [hw, List.dropWhile_cons_of_pos (by simp [hc])]
    rw [hw, List.length_cons] at hle
    omega

theorem tokensUpTo_enough {fuel : ℕ} (h : t.length ≤ fuel) : tokensUpTo fuel t = tokens t := by
  induction fuel using Nat.strong_induction_on generalizing t with
  | _ fuel ih =>
    cases hscan : scanString t with
    | none =>
      rw [tokens]
      cases fuel <;> cases t.length <;> simp [tokensUpTo, hscan]
    | some r =>
      obtain ⟨x, u⟩ := r
      have hlt := scanString_lt hscan
      obtain ⟨fuel, rfl⟩ := Nat.exists_eq_succ_of_ne_zero (show fuel ≠ 0 by omega)
      obtain ⟨m, hm⟩ := Nat.exists_eq_succ_of_ne_zero (show t.length ≠ 0 by omega)
      rw [tokens, hm, tokensUpTo, tokensUpTo, hscan]
      simp only []
      rw [ih fuel (Nat.lt_succ_self _) (by omega)]
      by_cases hlast : m < fuel + 1
      · rw [ih m hlast (by omega)]
      · omega

theorem tokens_of_none (h : scanString t = none) : tokens t = [] := by
  rw [tokens]
  cases t.length <;> simp [tokensUpTo, h]

theorem tokens_cons (h : scanString t = some (x, u)) : tokens t = x :: tokens u := by
  have hlt := scanString_lt h
  obtain ⟨m, hm⟩ := Nat.exists_eq_succ_of_ne_zero (show t.length ≠ 0 by omega)
  rw [tokens, hm, tokensUpTo, h]
  simp only []
  rw [tokensUpTo_enough (by omega)]

end Tokens

section Loop

variable {σ : Type} {size : ℕ} {held : Option Text} {t : Text}
variable {body : Text → Option Text → σ → Option (Option Text × σ)}

theorem scanPair_nil (h : tokens t = []) : scanPair size held t = some none := by
  cases hscan : scanString t with
  | none => simp [scanPair, hscan]
  | some r =>
    rw [tokens_cons hscan] at h
    cases h

theorem scanPair_single {x : Text} (h : tokens t = [x]) (hx : x.length < size) :
    scanPair size held t = some (some (x, held, [])) := by
  cases hscan : scanString t with
  | none => simp [tokens_of_none hscan] at h
  | some r =>
    obtain ⟨y, u⟩ := r
    rw [tokens_cons hscan] at h
    obtain ⟨rfl, hu⟩ := List.cons.inj h
    cases hnext : scanString u with
    | none => simp [scanPair, hscan, hnext, sprintf, hx]
    | some r => simp [tokens_cons hnext] at hu

theorem scanPair_cons (held : Option Text) {x y : Text} {l : List Text} (h : tokens t = x :: y :: l)
    (hx : x.length < size) (hy : y.length < size) :
    ∃ u, scanPair size held t = some (some (x, some y, u)) ∧ tokens u = l ∧
      u.length < t.length := by
  cases hscan : scanString t with
  | none => simp [tokens_of_none hscan] at h
  | some r =>
    obtain ⟨z, u⟩ := r
    rw [tokens_cons hscan] at h
    obtain ⟨rfl, hu⟩ := List.cons.inj h
    cases hnext : scanString u with
    | none => simp [tokens_of_none hnext] at hu
    | some r =>
      obtain ⟨w, v⟩ := r
      rw [tokens_cons hnext] at hu
      obtain ⟨rfl, hv⟩ := List.cons.inj hu
      have hlt := scanString_lt hscan
      have hlt' := scanString_lt hnext
      refine ⟨v, ?_, hv, by omega⟩
      simp [scanPair, hscan, hnext, sprintf, hx, hy]

theorem forPairs_stop {fuel : ℕ} {s : σ} (h : scanPair size held t = some none) :
    forPairs size body (fuel + 1) held t s = some (held, s) := by
  rw [forPairs, h]
  rfl

theorem forPairs_step {fuel : ℕ} {s : σ} {x u : Text} {y : Option Text}
    (h : scanPair size held t = some (some (x, y, u))) :
    forPairs size body (fuel + 1) held t s =
      (body x y s).bind fun r ↦ forPairs size body fuel r.1 u r.2 := by
  rw [forPairs, h]
  rfl

theorem forPairs_even {fuel : ℕ} {s : σ} (hshort : ∀ x ∈ tokens t, x.length < size)
    (heven : Even (tokens t).length) (hfuel : t.length ≤ fuel) :
    (forPairs size body fuel held t s).map Prod.snd =
      (pairs (tokens t)).foldlM (fun s p ↦ (body p.1 (some p.2) s).map Prod.snd) s := by
  induction fuel generalizing held t s with
  | zero =>
    obtain rfl := List.length_eq_zero_iff.mp (Nat.le_zero.mp hfuel)
    rfl
  | succ fuel ih =>
    match htokens : tokens t with
    | [] =>
      rw [forPairs_stop (scanPair_nil htokens)]
      rfl
    | [x] => simp [htokens] at heven
    | x :: y :: l =>
      rw [htokens] at hshort heven
      obtain ⟨u, hu, rfl, hlt⟩ :=
        scanPair_cons held htokens (hshort x (by simp)) (hshort y (by simp))
      have hrest : Even (tokens u).length := by simpa [Nat.even_add_one] using heven
      rw [forPairs_step hu, pairs, List.foldlM_cons]
      cases hbody : body x (some y) s with
      | none => rfl
      | some r => exact ih (fun z hz ↦ hshort z (by simp [hz])) hrest (by omega)

theorem forPairs_count {μ : σ → ℕ}
    (hbody : ∀ x y s v s', body x y s = some (v, s') → μ s' = μ s + 1)
    {fuel : ℕ} {s s' : σ} {held' : Option Text} (hshort : ∀ x ∈ tokens t, x.length < size)
    (hfuel : t.length ≤ fuel) (h : forPairs size body fuel held t s = some (held', s')) :
    μ s' = μ s + ((tokens t).length + 1) / 2 := by
  induction fuel generalizing held t s with
  | zero =>
    obtain rfl := List.length_eq_zero_iff.mp (Nat.le_zero.mp hfuel)
    obtain ⟨-, rfl⟩ := Prod.mk.inj (Option.some.inj h)
    rfl
  | succ fuel ih =>
    match htokens : tokens t with
    | [] =>
      rw [forPairs_stop (scanPair_nil htokens)] at h
      obtain ⟨-, rfl⟩ := Prod.mk.inj (Option.some.inj h)
      rfl
    | [x] =>
      rw [forPairs_step (scanPair_single htokens (hshort x (by simp [htokens])))] at h
      obtain ⟨⟨v, r⟩, hr, h⟩ := Option.bind_eq_some_iff.mp h
      have hrest := ih (t := []) (by simp [tokens, tokensUpTo]) (Nat.zero_le _) h
      rw [hrest, hbody x held s v r hr, tokens_of_none rfl]
      simp
    | x :: y :: l =>
      rw [htokens] at hshort
      obtain ⟨u, hu, rfl, hlt⟩ :=
        scanPair_cons held htokens (hshort x (by simp)) (hshort y (by simp))
      rw [forPairs_step hu] at h
      obtain ⟨⟨v, r⟩, hr, h⟩ := Option.bind_eq_some_iff.mp h
      have hrest := ih (fun z hz ↦ hshort z (by simp [hz])) (by omega) h
      rw [hrest, hbody x (some y) s v r hr, List.length_cons, List.length_cons]
      omega

theorem length_pairs {α : Type*} (l : List α) : (pairs l).length = l.length / 2 := by
  induction l using pairs.induct with
  | case1 x y l ih =>
    rw [pairs, List.length_cons, ih, List.length_cons, List.length_cons]
    omega
  | case2 l hl =>
    match l with
    | [] => simp [pairs]
    | [x] => simp [pairs]
    | x :: y :: l => exact absurd rfl (hl x y l)

end Loop

end FingerMove.CText
