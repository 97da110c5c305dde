import FingerMove.ProDeal.Round

namespace FingerMove.ProDeal

open CText Directory Tally

variable {σ : Sorter (Text × ℕ)} {flg : ℤ} {afp logs wrk : Folder}

/-- Each line that `fltLogFile` kept is one that `cntSrhNums` wrote, and the two
`strtok` calls of its readers give back the id and the tally. -/
def ReadsBack (p : Prepared σ flg afp logs wrk) : Prop :=
  ∀ line ∈ p.kept, ∃ id ∈ p.ids, line = countText (id, p.ids.count id) ∧
    splitLine line = some (id, (p.ids.count id : ℤ))

def Prepared.passed (p : Prepared σ flg afp logs wrk) : List (Text × ℕ) :=
  (σ.sort (if flg = 0 then cmp else lmp) (tally p.ids)).filter fun x ↦
    atoi x.1 ∈ Prepared.listed afp

theorem Prepared.passed_entry (p : Prepared σ flg afp logs wrk) : ∀ x ∈ p.passed, Entry x := by
  intro x hx
  obtain ⟨hid, hcount⟩ := p.mem_sorted.mp (List.mem_of_mem_filter hx)
  have hentry := p.entry_of_counted hid
  rwa [← hcount] at hentry

theorem Prepared.kept_eq (p : Prepared σ flg afp logs wrk) : p.kept = p.passed.map countText := by
  rw [Prepared.kept, p.lookup_ready.2, Option.getD_some]
  exact reads_flatten (List.forall_mem_map.mpr fun x hx ↦ (p.passed_entry x hx).isLine)

theorem Prepared.mem_kept (p : Prepared σ flg afp logs wrk) {line : Text} : line ∈ p.kept ↔
    ∃ id ∈ p.ids, atoi id ∈ Prepared.listed afp ∧ line = countText (id, p.ids.count id) := by
  rw [p.kept_eq, List.mem_map]
  constructor
  · intro h
    obtain ⟨x, hx, he⟩ := h
    obtain ⟨hx, hlisted⟩ := List.mem_filter.mp hx
    obtain ⟨hid, hcount⟩ := p.mem_sorted.mp hx
    exact ⟨x.1, hid, of_decide_eq_true hlisted, by rw [← hcount, ← he]⟩
  · intro h
    obtain ⟨id, hid, hlisted, he⟩ := h
    have hx : (id, p.ids.count id) ∈ σ.sort (if flg = 0 then cmp else lmp) (tally p.ids) :=
      p.mem_sorted.mpr ⟨hid, rfl⟩
    exact ⟨(id, p.ids.count id), List.mem_filter.mpr ⟨hx, decide_eq_true hlisted⟩, he.symm⟩

theorem splitLine_empty (n : ℕ) : splitLine (countText ([], n)) = none := by
  have hcstr : cstr (countText ([], n)) = countText ([], n) :=
    cstr_eq_self (by simp [countText, not_mem_decimal (c := '\x00') rfl])
  have htok : strtok '|' (countText ([], n)) = some (decimal n ++ ['\n'], []) := by
    rw [countText, List.nil_append, List.cons_append, strtok_skip]
    exact strtok_last (by simp) (by simp [not_mem_decimal (c := '|') rfl])
  rw [splitLine, hcstr, htok]
  rfl

/-- The readers get back what was written exactly as long as no empty id is
counted, or no listed name passes it through the filter. -/
theorem reads_back_iff (p : Prepared σ flg afp logs wrk) :
    ReadsBack p ↔ [] ∉ p.ids ∨ 0 ∉ Prepared.listed afp := by
  constructor
  · intro h
    by_contra hcon
    obtain ⟨hid, hzero⟩ := not_or.mp hcon
    obtain ⟨id, -, he, hsplit⟩ :=
      h _ (p.mem_kept.mpr ⟨[], not_not.mp hid, not_not.mp hzero, rfl⟩)
    rw [splitLine_empty] at hsplit
    cases hsplit
  · intro h line hline
    obtain ⟨id, hid, hlisted, rfl⟩ := p.mem_kept.mp hline
    refine ⟨id, hid, rfl, (p.entry_of_counted hid).split ?_⟩
    rintro rfl
    exact h.elim (absurd hid) (absurd hlisted)

def emptyId (flg : ℤ) : Prepared (insertion _) flg (.ofList "afp" [("0.afp", "x")])
    (.ofList "log" [("server.log", "$$||\n")]) (.ofList "wrk" []) where
  names := allOpen
  counts := allOpen
  filter := allOpen
  named := .ofList "wrk" [("afpNameFile.tmp", "0.afp\n")]
  counted := .ofList "wrk" [("logNumCount.tmp", "|1\n"), ("afpNameFile.tmp", "0.afp\n")]
  ready := .ofList "wrk" [("fltLogsFile.tmp", "|1\n"), ("logNumCount.tmp", "|1\n"),
    ("afpNameFile.tmp", "0.afp\n")]
  getAfpName_ok := rfl
  cntSrhNums_ok := by
    by_cases hflg : flg = 0
    · subst hflg
      rfl
    · simp only [cntSrhNums, if_neg hflg]
      rfl
  fltLogFile_ok := rfl

/-- The kept line of an empty id makes both readers pass a null pointer. -/
theorem reads_back_fails_emptyId : ¬ ReadsBack (emptyId 0) ∧
    topAfpFile allOpen 5 (emptyId 0).ready (emptyId 0).ready 0 = none ∧
    ¬ ReadsBack (emptyId 1) ∧
    botAfpFile allOpen 5 (emptyId 1).ready (emptyId 1).ready = none := by
  have hkept : ∀ flg, ¬ ReadsBack (emptyId flg) := by
    intro flg h
    obtain ⟨id, -, -, hsplit⟩ := h "|1\n".toList (List.mem_singleton.mpr rfl)
    have hnone : splitLine "|1\n".toList = none := rfl
    rw [hnone] at hsplit
    cases hsplit
  exact ⟨hkept 0, rfl, hkept 1, rfl⟩

end FingerMove.ProDeal
