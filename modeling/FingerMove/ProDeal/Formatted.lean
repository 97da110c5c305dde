import FingerMove.ProDeal.ReadBack
import FingerMove.ProDeal.Returns

namespace FingerMove.ProDeal

open CText Directory Tally

def topTexts (limit : ℕ) (cnt : ℤ) : ℕ → List Text → List Text
  | _, [] => []
  | count, line :: lines =>
    if limit ≤ count then []
    else match splitLine line with
      | none => []
      | some (songid, num) =>
        if num ≤ cnt then []
        else (songid ++ ".afp\n".toList) :: topTexts limit cnt (count + 1) lines

def botTexts (limit : ℕ) : ℕ → List Text → List Text
  | _, [] => []
  | count, line :: lines =>
    if limit ≤ count then []
    else match splitLine line with
      | none => []
      | some (songid, _) => (songid ++ ['\n']) :: botTexts limit (count + 1) lines

section Formatted

variable {limit count : ℕ} {cnt thr : ℤ} {lines out : List Text} {es : List (Text × ℕ)}

theorem topLoop_texts (h : topLoop limit cnt count lines = some out) :
    out = topTexts limit cnt count lines := by
  induction lines generalizing count out with
  | nil => exact (Option.some.inj h).symm
  | cons line lines ih =>
    rw [topLoop] at h
    rw [topTexts]
    split at h
    · next hfull =>
      rw [if_pos hfull]
      exact (Option.some.inj h).symm
    · next hfull =>
      obtain ⟨⟨songid, num⟩, hsplit, h⟩ := Option.bind_eq_some_iff.mp h
      rw [if_neg hfull, hsplit]
      simp only at h ⊢
      split at h
      · next hlow =>
        rw [if_pos hlow]
        exact (Option.some.inj h).symm
      · next hlow =>
        obtain ⟨text, htext, h⟩ := Option.bind_eq_some_iff.mp h
        obtain ⟨rest, hrest, h⟩ := Option.bind_eq_some_iff.mp h
        obtain rfl := Option.some.inj h
        obtain ⟨-, htext⟩ := Option.ite_none_right_eq_some.mp htext
        obtain rfl := Option.some.inj htext
        rw [if_neg hlow, ih hrest]

theorem botSongs_texts {t : ℤ} (h : botSongs limit count thr lines = some (out, t)) :
    out = botTexts limit count lines ∧ ∀ t ∈ out, t.length < MAX_LINE_LEN := by
  induction lines generalizing count thr out t with
  | nil =>
    obtain ⟨rfl, -⟩ := Prod.mk.inj (Option.some.inj h)
    exact ⟨rfl, fun _ ht ↦ nomatch ht⟩
  | cons line lines ih =>
    rw [botSongs] at h
    rw [botTexts]
    split at h
    · next hfull =>
      obtain ⟨rfl, -⟩ := Prod.mk.inj (Option.some.inj h)
      rw [if_pos hfull]
      exact ⟨rfl, fun _ ht ↦ nomatch ht⟩
    · next hfull =>
      obtain ⟨⟨songid, num⟩, hsplit, h⟩ := Option.bind_eq_some_iff.mp h
      obtain ⟨text, htext, h⟩ := Option.bind_eq_some_iff.mp h
      obtain ⟨⟨rest, t'⟩, hrest, h⟩ := Option.bind_eq_some_iff.mp h
      obtain ⟨rfl, -⟩ := Prod.mk.inj (Option.some.inj h)
      obtain ⟨hfits, htext⟩ := Option.ite_none_right_eq_some.mp htext
      obtain rfl := Option.some.inj htext
      obtain ⟨rfl, hall⟩ := ih hrest
      rw [if_neg hfull, hsplit]
      exact ⟨rfl, List.forall_mem_cons.mpr ⟨hfits, hall⟩⟩

theorem splitLine_countText {x : Text × ℕ} (h : Entry x) :
    splitLine (countText x) = if x.1 = [] then none else some (x.1, (x.2 : ℤ)) := by
  split
  · next he =>
    obtain ⟨id, n⟩ := x
    obtain rfl : id = [] := he
    exact splitLine_empty n
  · next hne => exact h.split hne

theorem topTexts_entries (h : ∀ x ∈ es, Entry x) : topTexts limit cnt count (es.map countText) =
    ((es.take (limit - count)).takeWhile fun x ↦ x.1 ≠ [] ∧ cnt < x.2).map topText := by
  induction es generalizing count with
  | nil => simp [topTexts]
  | cons x es ih =>
    obtain ⟨hx, hes⟩ := List.forall_mem_cons.mp h
    rw [List.map_cons, topTexts, splitLine_countText hx]
    by_cases hfull : limit ≤ count
    · simp [hfull, Nat.sub_eq_zero_of_le hfull]
    · rw [if_neg hfull, show limit - count = (limit - (count + 1)) + 1 by omega,
        List.take_succ_cons, List.takeWhile_cons]
      by_cases hne : x.1 = []
      · simp [hne]
      · by_cases hlow : (x.2 : ℤ) ≤ cnt
        · simp [hne, hlow, not_lt.mpr hlow]
        · simp [hne, hlow, not_le.mp hlow, ih hes, topText]

theorem botTexts_entries (h : ∀ x ∈ es, Entry x) : botTexts limit count (es.map countText) =
    ((es.take (limit - count)).takeWhile fun x ↦ x.1 ≠ []).map botText := by
  induction es generalizing count with
  | nil => simp [botTexts]
  | cons x es ih =>
    obtain ⟨hx, hes⟩ := List.forall_mem_cons.mp h
    rw [List.map_cons, botTexts, splitLine_countText hx]
    by_cases hfull : limit ≤ count
    · simp [hfull, Nat.sub_eq_zero_of_le hfull]
    · rw [if_neg hfull, show limit - count = (limit - (count + 1)) + 1 by omega,
        List.take_succ_cons, List.takeWhile_cons]
      by_cases hne : x.1 = []
      · simp [hne]
      · simp [hne, ih hes, botText]

theorem topAfpFile_texts {o : Opens} {org dst dst' : Folder} {r : ℤ}
    (h : topAfpFile o limit org dst cnt = some (r, dst')) (hr : r ≠ -1) :
    ∃ logs, org.files.lookup fltLogsFile = some logs ∧
      dst'.files.lookup topAfpsFile =
        some (topTexts limit cnt 0 (reads MAX_LINE_LEN logs)).flatten ∧
      ∀ t ∈ topTexts limit cnt 0 (reads MAX_LINE_LEN logs), t.length < MAX_LINE_LEN := by
  obtain ⟨logs, out, hlogs, hout, -, rfl⟩ := topAfpFile_ok h hr
  have hfits := (topLoop_eq hout).2
  obtain rfl := topLoop_texts hout
  exact ⟨logs, hlogs, lookup_write_self _, hfits⟩

theorem botAfpFile_texts {o : Opens} {org dst dst' : Folder}
    (h : botAfpFile o limit org dst = some (thr, dst')) (hr : thr ≠ -1) :
    ∃ names logs, org.files.lookup fltLogsFile = some logs ∧
      dst'.files.lookup botAfpsFile =
        some (names ++ botTexts limit names.length (reads MAX_LINE_LEN logs)).flatten ∧
      ∀ t ∈ botTexts limit names.length (reads MAX_LINE_LEN logs), t.length < MAX_LINE_LEN := by
  obtain ⟨afps, logs, songs, -, hlogs, hsongs, rfl⟩ := botAfpFile_ok h hr
  obtain ⟨rfl, hfits⟩ := botSongs_texts hsongs
  exact ⟨_, logs, hlogs, lookup_write_self _, hfits⟩

end Formatted

section Fits

variable {σ : Sorter (Text × ℕ)} {afp logs wrk : Folder}

theorem length_countText (x : Text × ℕ) :
    (countText x).length = x.1.length + (decimal x.2).length + 2 := by
  simp only [countText, List.length_append, List.length_cons, List.length_nil]
  omega

theorem length_topText (x : Text × ℕ) : (topText x).length = x.1.length + 5 := List.length_append

theorem length_botText (x : Text × ℕ) : (botText x).length = x.1.length + 1 := List.length_append

theorem countLine_defined_iff (x : Text × ℕ) : (∃ t, countLine x = some t) ↔
    x.2 < 2 ^ 31 ∧ x.1.length + (decimal x.2).length ≤ 1021 := by
  have hlength := length_countText x
  rw [countLine_eq, MAX_LINE_LEN]
  split
  · next h => exact iff_of_true ⟨_, rfl⟩ ⟨h.1, by omega⟩
  · next h => exact iff_of_false (fun ⟨_, ht⟩ ↦ nomatch ht) fun hx ↦ h ⟨hx.1, by omega⟩

/-- The lines of a round stay within the buffers exactly when each counted id
leaves room for its tally, and each song that `topAfpFile` comes to for `.afp`;
those of `botAfpFile` always do. -/
theorem formatted_fits_iff (o : Opens) (σ : Sorter (Text × ℕ)) (afp logs wrk : Folder)
    (GROUP_LIMIT CACHE_LIMIT : ℕ) (thr : ℤ) :
    ((∀ x ∈ tally (countedIds o logs), ∃ t, countLine x = some t) ↔
      ∀ id ∈ countedIds o logs, (countedIds o logs).count id < 2 ^ 31 ∧
        id.length + (decimal ((countedIds o logs).count id)).length ≤ 1021) ∧
    (∀ p : Prepared σ 0 afp logs wrk,
      (∀ t ∈ topTexts GROUP_LIMIT thr 0 p.kept, t.length ≤ 1023) ↔
        ∀ x ∈ (p.passed.take GROUP_LIMIT).takeWhile fun x ↦ x.1 ≠ [] ∧ thr < x.2,
          x.1.length ≤ 1018) ∧
    ∀ (p : Prepared σ 1 afp logs wrk) (count : ℕ),
      ∀ t ∈ botTexts CACHE_LIMIT count p.kept, t.length ≤ 1023 := by
  refine ⟨?_, ?_, ?_⟩
  · simp only [countLine_defined_iff]
    constructor
    · intro h id hid
      exact h (id, (countedIds o logs).count id) (mem_tally.mpr ⟨hid, rfl⟩)
    · intro h x hx
      obtain ⟨hid, hcount⟩ := mem_tally.mp hx
      rw [hcount]
      exact h x.1 hid
  · intro p
    rw [p.kept_eq, topTexts_entries p.passed_entry, List.forall_mem_map, Nat.sub_zero]
    refine forall₂_congr fun x _ ↦ ?_
    rw [length_topText]
    omega
  · intro p count t ht
    rw [p.kept_eq, botTexts_entries p.passed_entry] at ht
    obtain ⟨x, hx, rfl⟩ := List.mem_map.mp ht
    have hmem := List.mem_of_mem_take ((List.takeWhile_prefix _).subset hx)
    have hfits := (p.passed_entry x hmem).fits
    rw [length_countText, MAX_LINE_LEN] at hfits
    rw [length_botText]
    omega

def longId : Text := List.replicate 1018 '0' ++ ['5']

def longLogs : Folder :=
  ⟨"log".toList, AList.singleton serverLog ("$$|".toList ++ longId ++ "|\n".toList)⟩

theorem top_line_too_long : ∃ p : Prepared (insertion _) 0 (.ofList "afp" [("5.afp", "x")])
    longLogs (.ofList "wrk" []), ∃ t ∈ topTexts 1 0 0 p.kept, t.length = 1024 := by
  have hids : countedIds allOpen longLogs = [longId] := by decide +kernel
  have hwithin : Within (.ofList "afp" [("5.afp", "x")]) longLogs (.ofList "wrk" []) := by
    refine ⟨by decide, by decide, by decide, ?_⟩
    rw [hids]
    decide +kernel
  obtain ⟨p, hp, -⟩ : ∃ p : Prepared (insertion _) 0 (.ofList "afp" [("5.afp", "x")])
    longLogs (.ofList "wrk" []), p.counts = allOpen ∧ _ := hwithin.prepared
  have hpids : p.ids = [longId] := by rw [Prepared.ids, hp, hids]
  have hpassed : p.passed = [(longId, 1)] := by
    rw [Prepared.passed, hpids]
    decide +kernel
  refine ⟨p, topText (longId, 1), ?_, by decide +kernel⟩
  rw [p.kept_eq, topTexts_entries p.passed_entry, hpassed]
  exact List.mem_singleton.mpr rfl

end Fits

end FingerMove.ProDeal
