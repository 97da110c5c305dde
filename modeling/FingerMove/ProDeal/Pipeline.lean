import Mathlib.Data.List.Infix
import FingerMove.ProDeal.Stages

namespace FingerMove.ProDeal

open CText Directory Tally

section Checked

variable {α β : Type*} {p : α → Prop} [DecidablePred p] {f : α → Option β} {g : α → β}
variable {l : List α}

theorem mapM_eq_ite (h : ∀ x, f x = if p x then some (g x) else none) (l : List α) :
    l.mapM f = if ∀ x ∈ l, p x then some (l.map g) else none := by
  induction l with
  | nil => rfl
  | cons x l ih =>
    rw [List.mapM_cons, h, ih]
    by_cases hx : p x
    · by_cases hl : ∀ y ∈ l, p y
      · rw [if_pos hx, if_pos hl, if_pos (List.forall_mem_cons.mpr ⟨hx, hl⟩)]
        rfl
      · rw [if_pos hx, if_neg hl, if_neg fun hxl ↦ hl (List.forall_mem_cons.mp hxl).2]
        rfl
    · rw [if_neg hx, if_neg fun hxl ↦ hx (List.forall_mem_cons.mp hxl).1]
      rfl

theorem mapM_checked (h : ∀ x, f x = if p x then some (g x) else none) {ys : List β}
    (hl : l.mapM f = some ys) : (∀ x ∈ l, p x) ∧ ys = l.map g := by
  rw [mapM_eq_ite h, Option.ite_none_right_eq_some] at hl
  exact ⟨hl.1, (Option.some.inj hl.2).symm⟩

theorem mapM_of_checked (h : ∀ x, f x = if p x then some (g x) else none) (hl : ∀ x ∈ l, p x) :
    l.mapM f = some (l.map g) := by
  rw [mapM_eq_ite h, if_pos hl]

end Checked

theorem cstr_eq_self {t : Text} (h : '\x00' ∉ t) : cstr t = t := by
  rw [cstr, List.takeWhile_eq_self_iff]
  intro c hc
  simpa using fun he : c = '\x00' ↦ h (he ▸ hc)

theorem file_of_text (f : FileName) : FileName.ofC f.text = f :=
  FileName.ext (cstr_eq_self f.noNul)

theorem cstr_isPrefix (t : Text) : cstr t <+: t := List.takeWhile_prefix _

theorem find_eq_some {t : Text} {c : Char} {p q : ℕ} (h : find t c p = some q) :
    p ≤ q ∧ t[q]? = some c := by
  unfold find at h
  split at h
  · next hc =>
    obtain rfl := Option.some.inj h
    refine ⟨Nat.le_add_right _ _, ?_⟩
    have hlt := List.idxOf_lt_length_iff.mpr hc
    rw [← List.getElem?_drop, List.getElem?_eq_getElem hlt, List.getElem_idxOf hlt]
  · cases h

theorem mem_dropLast_of_take {t : Text} {c : Char} {q : ℕ} (hq : q < t.length)
    (h : c ∈ t.take q) : c ∈ t.dropLast := by
  rw [List.dropLast_eq_take]
  exact (List.take_prefix_take_left (by omega)).subset h

structure IsId (t : Text) : Prop where
  noBar : '|' ∉ t
  noNewline : '\n' ∉ t
  noNul : '\x00' ∉ t

theorem songId_isId {line id : Text} (hline : '\n' ∉ line.dropLast) (h : songId line = some id) :
    IsId id := by
  simp only [songId, Option.bind_eq_bind, Option.bind_eq_some_iff] at h
  obtain ⟨_, _, p, hp, q, hq, h⟩ := h
  split at h
  · cases h
  · obtain rfl := Option.some.inj h
    obtain ⟨hle, hbar⟩ := find_eq_some hq
    rw [Nat.sub_sub]
    have hcut : substr (cstr line) (p + 1) (q - (p + 1)) ⊆ (cstr line).take q := by
      rw [substr, ← List.drop_take]
      exact List.drop_subset _ _
    constructor
    · intro hmem
      rw [substr_find hq] at hmem
      simpa using List.mem_takeWhile_imp hmem
    · intro hmem
      apply hline
      have hlt := (List.getElem?_eq_some_iff.mp hbar).1
      refine mem_dropLast_of_take (hlt.trans_le (cstr_isPrefix line).length_le) ?_
      exact ((cstr_isPrefix line).take q).subset (hcut hmem)
    · intro hmem
      apply not_mem_cstr line
      exact List.take_subset _ _ (hcut hmem)

theorem isId_of_counted {o : Opens} {org : Folder} {id : Text} (h : id ∈ countedIds o org) :
    IsId id := by
  simp only [countedIds, List.mem_flatMap, List.mem_filterMap] at h
  obtain ⟨t, _, line, hline, hid⟩ := h
  exact songId_isId (reads_shape (by decide) hline).2.2 hid

section Lines

def countText (x : Text × ℕ) : Text := x.1 ++ '|' :: decimal x.2 ++ ['\n']

def nameText (n : FileName) : Text := n.text ++ ['\n']

/-- A tally whose line is read back as it was written. -/
structure Entry (x : Text × ℕ) : Prop where
  isId : IsId x.1
  lt : x.2 < 2 ^ 31
  fits : (countText x).length < MAX_LINE_LEN

variable {x : Text × ℕ}

theorem countLine_eq (x : Text × ℕ) : countLine x =
    if x.2 < 2 ^ 31 ∧ (countText x).length < MAX_LINE_LEN then some (countText x) else none := by
  unfold countLine guard sprintf
  by_cases hx : x.2 < 2 ^ 31
  · rw [if_pos hx]
    simp only [hx, true_and]
    rfl
  · have hnot : ¬ (x.2 < 2 ^ 31 ∧ (countText x).length < MAX_LINE_LEN) := fun h ↦ hx h.1
    rw [if_neg hx, if_neg hnot]
    rfl

theorem not_mem_decimal {c : Char} (hc : c.isDigit = false) (n : ℕ) : c ∉ decimal n := by
  intro h
  simp [isDigit_of_mem_decimal h] at hc

theorem Entry.isLine (h : Entry x) : IsLine MAX_LINE_LEN (countText x) :=
  ⟨h.fits, x.1 ++ '|' :: decimal x.2,
    by simp [h.isId.noNewline, not_mem_decimal (c := '\n') rfl], rfl⟩

theorem Entry.cstr_eq (h : Entry x) : cstr (countText x) = countText x :=
  cstr_eq_self (by simp [countText, h.isId.noNul, not_mem_decimal (c := '\x00') rfl])

theorem atoi_countText (x : Text × ℕ) : atoi (countText x) = atoi x.1 := by
  rw [countText, List.append_assoc, List.cons_append, atoi_bar]

theorem Entry.split (h : Entry x) (hne : x.1 ≠ []) :
    splitLine (countText x) = some (x.1, (x.2 : ℤ)) := by
  have hval : strtok '|' (decimal x.2 ++ ['\n']) = some (decimal x.2 ++ ['\n'], []) :=
    strtok_last (by simp) (by simp [not_mem_decimal (c := '|') rfl])
  have hnum : atoi (decimal x.2 ++ ['\n']) = x.2 := atoi_decimal h.lt (by simp)
  rw [splitLine, h.cstr_eq, countText, List.append_assoc, List.cons_append,
    strtok_token hne h.isId.noBar]
  simp [hval, hnum]

theorem nameText_isLine {n : FileName} (hn : '\n' ∉ n.text)
    (hl : (nameText n).length < MAX_LINE_LEN) : IsLine MAX_LINE_LEN (nameText n) :=
  ⟨hl, n.text, hn, rfl⟩

theorem nameText_injective : Function.Injective nameText := fun _ _ h ↦
  FileName.ext (List.append_cancel_right h)

theorem cstr_nameText (n : FileName) : cstr (nameText n) = nameText n :=
  cstr_eq_self (by simp [nameText, n.noNul])

theorem atoi_nameText (n : FileName) : atoi (nameText n) = atoi n.text := atoi_newline n.text

end Lines

theorem topLoop_eq {limit count : ℕ} {cnt : ℤ} {lines out : List Text}
    (h : topLoop limit cnt count lines = some out) :
    out = (((lines.take (limit - count)).filterMap splitLine).takeWhile fun x ↦ cnt < x.2).map
        (fun x ↦ x.1 ++ ".afp\n".toList) ∧ ∀ line ∈ out, line.length < MAX_LINE_LEN := by
  induction lines generalizing count out with
  | nil =>
    obtain rfl := Option.some.inj h
    simp
  | cons line lines ih =>
    simp only [topLoop] at h
    split at h
    · next hle =>
      obtain rfl := Option.some.inj h
      simp [Nat.sub_eq_zero_of_le hle]
    · next hlt =>
      obtain ⟨⟨songid, num⟩, hsplit, h⟩ := Option.bind_eq_some_iff.mp h
      rw [show limit - count = (limit - (count + 1)) + 1 by omega, List.take_succ_cons,
        List.filterMap_cons_some hsplit]
      split at h
      · next hle =>
        obtain rfl := Option.some.inj h
        simp [not_lt.mpr hle]
      · next hgt =>
        simp only [Option.bind_eq_bind, Option.bind_eq_some_iff, Option.pure_def,
          Option.some.injEq, sprintf, Option.ite_none_right_eq_some] at h
        obtain ⟨_, ⟨hlen, rfl⟩, rest, hrest, rfl⟩ := h
        obtain ⟨rfl, hfits⟩ := ih hrest
        rw [List.takeWhile_cons_of_pos (by simpa using hgt), List.map_cons]
        exact ⟨rfl, List.forall_mem_cons.mpr ⟨hlen, hfits⟩⟩

section Results

variable {o : Opens} {σ : Sorter (Text × ℕ)} {org dst dst' d : Folder} {ok : Bool} {n : FileName}

theorem call_ok {r : ℤ} {k : Option (ℤ × Folder)}
    (h : (if !ok then some (-1, dst) else k) = some (r, dst')) (hr : r ≠ -1) :
    k = some (r, dst') := by
  split at h
  · simp [Ne.symm hr] at h
  · exact h

theorem call_opened {r : ℤ} {k : Option (ℤ × Folder)}
    (h : (if !ok then some (-1, dst) else k) = some (r, dst')) (hr : r ≠ -1) : ok = true := by
  cases ok with
  | false => exact absurd (Prod.mk.inj (Option.some.inj h)).1.symm hr
  | true => rfl

theorem read_ok {r : ℤ} {k : Text → Option (ℤ × Folder)}
    (h : ((d.fopenR ok n).bind fun
      | some t => k t
      | _ => some (-1, dst)) = some (r, dst')) (hr : r ≠ -1) :
    ∃ t, d.files.lookup n = some t ∧ k t = some (r, dst') := by
  obtain ⟨_ | t, ht, h⟩ := Option.bind_eq_some_iff.mp h
  · simp [Ne.symm hr] at h
  · exact ⟨t, (fopenR_some ht).2, h⟩

theorem write_ok {r : ℤ} {k : Option (ℤ × Folder)}
    (h : ((d.fopenW ok n).bind fun b ↦ if !b then some (-1, dst) else k) = some (r, dst'))
    (hr : r ≠ -1) : k = some (r, dst') := by
  obtain ⟨b, -, h⟩ := Option.bind_eq_some_iff.mp h
  exact call_ok h hr

theorem getAfpName_ok (h : getAfpName o org dst = some (0, dst')) :
    dst' = dst.write afpNameFile (org.files.keys.map nameText).flatten ∧
      ∀ n ∈ org.files.keys, (nameText n).length < MAX_LINE_LEN := by
  have h := write_ok (call_ok h (by decide)) (by decide)
  obtain ⟨lines, hlines, h⟩ := Option.bind_eq_some_iff.mp h
  obtain ⟨-, rfl⟩ := Prod.mk.inj (Option.some.inj h)
  obtain ⟨hlen, rfl⟩ := mapM_checked (fun _ ↦ rfl) hlines
  exact ⟨rfl, hlen⟩

theorem strictWeak_order (flg : ℤ) : StrictWeak (if flg = 0 then cmp else lmp) := by
  split
  · exact strictWeak_key fun x : Text × ℕ ↦ OrderDual.toDual x.2
  · exact strictWeak_key fun x : Text × ℕ ↦ x.2

theorem cntSrhNums_ok {flg : ℤ} (h : cntSrhNums o σ org dst flg = some (0, dst')) :
    let veccnt := σ.sort (if flg = 0 then cmp else lmp) (tally (countedIds o org))
    dst' = dst.write logNumCount (veccnt.map countText).flatten ∧ ∀ x ∈ veccnt, Entry x := by
  have h := write_ok (call_ok h (by decide)) (by decide)
  obtain ⟨_, -, h⟩ := Option.bind_eq_some_iff.mp h
  obtain ⟨lines, hlines, h⟩ := Option.bind_eq_some_iff.mp h
  obtain ⟨-, rfl⟩ := Prod.mk.inj (Option.some.inj h)
  obtain ⟨hlen, rfl⟩ := mapM_checked countLine_eq hlines
  refine ⟨rfl, ?_⟩
  intro x hx
  have hmem := (σ.perm _ _ (strictWeak_order flg)).subset hx
  exact ⟨isId_of_counted (mem_tally.mp hmem).1, (hlen x hx).1, (hlen x hx).2⟩

theorem fltLogFile_ok (h : fltLogFile o org dst = some (0, dst')) :
    ∃ afps logs, org.files.lookup afpNameFile = some afps ∧
      org.files.lookup logNumCount = some logs ∧
      dst' = dst.write fltLogsFile (filtered afps logs).flatten := by
  obtain ⟨afps, hafps, h⟩ := read_ok h (by decide)
  obtain ⟨logs, hlogs, h⟩ := read_ok h (by decide)
  have h := write_ok h (by decide)
  obtain ⟨-, rfl⟩ := Prod.mk.inj (Option.some.inj h)
  exact ⟨afps, logs, hafps, hlogs, rfl⟩

theorem topAfpFile_ok {limit : ℕ} {cnt r : ℤ} (h : topAfpFile o limit org dst cnt = some (r, dst'))
    (hr : r ≠ -1) : ∃ logs out, org.files.lookup fltLogsFile = some logs ∧
      topLoop limit cnt 0 (reads MAX_LINE_LEN logs) = some out ∧ r = out.length ∧
      dst' = dst.write topAfpsFile out.flatten := by
  obtain ⟨logs, hlogs, h⟩ := read_ok h hr
  have h := write_ok h hr
  obtain ⟨out, hout, h⟩ := Option.bind_eq_some_iff.mp h
  obtain ⟨rfl, rfl⟩ := Prod.mk.inj (Option.some.inj h)
  exact ⟨logs, out, hlogs, hout, rfl, rfl⟩

theorem botAfpFile_ok {limit : ℕ} {thr : ℤ} (h : botAfpFile o limit org dst = some (thr, dst'))
    (hr : thr ≠ -1) : ∃ afps logs songs, org.files.lookup afpNameFile = some afps ∧
      org.files.lookup fltLogsFile = some logs ∧
      botSongs limit (botNames limit (numbers logs) 0 (reads MAX_LINE_LEN afps)).length 0
        (reads MAX_LINE_LEN logs) = some (songs, thr) ∧
      dst' = dst.write botAfpsFile
        (botNames limit (numbers logs) 0 (reads MAX_LINE_LEN afps) ++ songs).flatten := by
  obtain ⟨afps, hafps, h⟩ := read_ok h hr
  obtain ⟨logs, hlogs, h⟩ := read_ok h hr
  have h := write_ok h hr
  obtain ⟨⟨songs, t⟩, hsongs, h⟩ := Option.bind_eq_some_iff.mp h
  obtain ⟨rfl, rfl⟩ := Prod.mk.inj (Option.some.inj h)
  exact ⟨afps, logs, songs, hafps, hlogs, hsongs, rfl⟩

end Results

end FingerMove.ProDeal
