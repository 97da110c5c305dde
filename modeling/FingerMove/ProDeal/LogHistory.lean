import FingerMove.Library.Machine
import FingerMove.Library.Total
import FingerMove.ProDeal.Pipeline
import Mathlib.Tactic.Abel

namespace FingerMove.ProDeal.LogHistory

open CText Directory Machine

/-- DAT_DIR and LOG_DIR, the names used for archives, all lines ever appended,
and the lines of the archives that were removed for their age. -/
structure State where
  dat : Folder
  log : Folder
  used : List FileName
  appended : Multiset Text
  removed : Multiset Text

inductive Label
  | append (t : Text)
  | rotate (n : FileName)
  | run (s : Text)

def records (t : Text) : Multiset Text := lines t

def expired (s : Text) (log : Folder) : Multiset Text :=
  ∑ n ∈ log.files.keys.toFinset with n.text < s ∧ n ≠ serverLog, weight records log.files n

def step (s : State) : Label → Option State
  | .append t => do
    guard ('\x00' ∉ t ∧ Complete t)
    let old ← s.dat.files.lookup serverLog
    return { s with
      dat := s.dat.write serverLog (old ++ t)
      appended := s.appended + records t }
  | .rotate n => do
    guard (n ≠ serverLog ∧ n ∉ s.used)
    let files := (renameTo s.dat.files serverLog n).insert serverLog []
    return { s with dat := { s.dat with files }, used := n :: s.used }
  | .run cutoff => do
    let (_, dat, log) ← movLogFile allOpen cutoff s.dat s.log
    return { s with dat, log, removed := s.removed + expired cutoff s.log }

def concat (d : Folder) : Text := (d.files.entries.map fun e ↦ e.2).flatten

def init (dat log : Text) : State where
  dat := ⟨dat, (∅ : Dir FileName Text).insert serverLog []⟩
  log := ⟨log, ∅⟩
  used := []
  appended := 0
  removed := 0

section Run

variable {o : Opens} {org dst org' dst' : Folder} {s : Text} {r : ℤ} {m n : FileName}

def arrives (org : Folder) (n : FileName) : Option Text :=
  if n = serverLog then
    (org.files.lookup n).map fun t ↦ ((reads MAX_LINE_LEN t).map cstr).flatten
  else org.files.lookup n

theorem flatten_map_cstr {t : Text} (h : '\x00' ∉ t) :
    ((reads MAX_LINE_LEN t).map cstr).flatten = t := by
  have hflat : (reads MAX_LINE_LEN t).flatten = t := flatten_reads (by decide) t
  have hsame : ∀ l ∈ reads MAX_LINE_LEN t, cstr l = l := by
    intro l hl
    apply cstr_eq_self
    intro hmem
    apply h
    rw [← hflat]
    exact List.mem_flatten_of_mem hl hmem
  rw [List.map_congr_left hsame, List.map_id', hflat]

theorem arrives_congr {n : FileName} (h : org'.files.lookup n = org.files.lookup n) :
    arrives org' n = arrives org n := by
  rw [arrives, arrives, h]

theorem movLog_lookup_ne (h : movLog o (org, dst) n = some (org', dst')) (hm : m ≠ n) :
    org'.files.lookup m = org.files.lookup m ∧ dst'.files.lookup m = dst.files.lookup m := by
  obtain ⟨_, -, h⟩ := Option.bind_eq_some_iff.mp h
  split at h
  · obtain ⟨rfl, rfl⟩ := Prod.mk.inj (Option.some.inj h)
    exact ⟨(lookup_rename_fst _ _ _ _).trans (if_neg hm),
      (lookup_rename_snd _ _ _ _).trans (if_neg fun hmn ↦ hm hmn.1)⟩
  · split at h
    · obtain ⟨_, -, h⟩ := Option.bind_eq_some_iff.mp h
      obtain ⟨rfl, rfl⟩ := Prod.mk.inj (Option.some.inj h)
      exact ⟨rfl, lookup_write_ne hm _⟩
    · obtain ⟨rfl, rfl⟩ := Prod.mk.inj (Option.some.inj h)
      exact ⟨rfl, rfl⟩

theorem movLog_lookup_self (h : movLog o (org, dst) n = some (org', dst')) (hn : n ≠ serverLog) :
    org'.files.lookup n = none ∧
      dst'.files.lookup n = (org.files.lookup n).or (dst.files.lookup n) := by
  obtain ⟨_, -, h⟩ := Option.bind_eq_some_iff.mp h
  simp only [ne_eq, hn, not_false_eq_true, if_true] at h
  obtain ⟨rfl, rfl⟩ := Prod.mk.inj (Option.some.inj h)
  refine ⟨(lookup_rename_fst _ _ _ _).trans (if_pos rfl), (lookup_rename_snd _ _ _ _).trans ?_⟩
  cases hfile : org.files.lookup n with
  | none => simp [AList.lookup_eq_none.mp hfile]
  | some t =>
    have hmem : n ∈ org.files := AList.lookup_isSome.mp (by rw [hfile]; rfl)
    simp [hmem]

theorem movLog_lookup (h : movLog allOpen (org, dst) n = some (org', dst')) (m : FileName) :
    org'.files.lookup m = (if m = n ∧ n ≠ serverLog then none else org.files.lookup m) ∧
      dst'.files.lookup m =
        if m = n then (arrives org n).or (dst.files.lookup m) else dst.files.lookup m := by
  rcases eq_or_ne m n with rfl | hm
  · rcases eq_or_ne m serverLog with rfl | hserver
    · obtain ⟨_, -, h⟩ := Option.bind_eq_some_iff.mp h
      simp only [ne_eq, not_true, if_false, allOpen, if_true] at h
      cases hlog : org.files.lookup serverLog with
      | none =>
        rw [hlog] at h
        obtain ⟨rfl, rfl⟩ := Prod.mk.inj (Option.some.inj h)
        simp [arrives, hlog]
      | some t =>
        rw [hlog] at h
        obtain ⟨_, -, h⟩ := Option.bind_eq_some_iff.mp h
        obtain ⟨rfl, rfl⟩ := Prod.mk.inj (Option.some.inj h)
        simp [arrives, hlog]
    · obtain ⟨horg, hdst⟩ := movLog_lookup_self h hserver
      simp [horg, hdst, arrives, hserver]
  · obtain ⟨horg, hdst⟩ := movLog_lookup_ne h hm
    simp [horg, hdst, hm]

theorem movLogs_lookup {ns : List FileName}
    (h : ns.foldlM (movLog allOpen) (org, dst) = some (org', dst')) (m : FileName) :
    org'.files.lookup m = (if m ∈ ns ∧ m ≠ serverLog then none else org.files.lookup m) ∧
      dst'.files.lookup m =
        if m ∈ ns then (arrives org m).or (dst.files.lookup m) else dst.files.lookup m := by
  induction ns generalizing org dst with
  | nil =>
    obtain ⟨rfl, rfl⟩ := Prod.mk.inj (Option.some.inj h)
    simp
  | cons n ns ih =>
    obtain ⟨⟨o, d⟩, hn, h⟩ := Option.bind_eq_some_iff.mp h
    obtain ⟨horg, hdst⟩ := ih h
    obtain ⟨horg', hdst'⟩ := movLog_lookup hn m
    rw [horg, hdst, hdst']
    rcases eq_or_ne m n with rfl | hm
    · rcases eq_or_ne m serverLog with hserver | hserver
      · have hsame : o.files.lookup m = org.files.lookup m := by simpa [hserver] using horg'
        have hagain : (arrives org m).or ((arrives org m).or (dst.files.lookup m)) =
            (arrives org m).or (dst.files.lookup m) := by
          cases arrives org m <;> rfl
        rw [hsame, arrives_congr hsame, if_pos rfl, hagain]
        simp [hserver]
      · have hgone : o.files.lookup m = none := by simpa [hserver] using horg'
        have harrives : arrives o m = none := by rw [arrives, if_neg hserver, hgone]
        simp [hserver, hgone, harrives]
    · have hsame : o.files.lookup m = org.files.lookup m := by simpa [hm] using horg'
      rw [hsame, arrives_congr hsame]
      simp [hm]

def removeOld (s : Text) (dst : Folder) : Folder :=
  { dst with
    files := (dst.files.keys.filter (·.text < s)).foldl (fun d n ↦ d.erase n) dst.files }

theorem removeOld_lookup (s : Text) (dst : Folder) (m : FileName) :
    (removeOld s dst).files.lookup m = if m.text < s then none else dst.files.lookup m := by
  rw [removeOld, lookup_eraseAll]
  by_cases hm : m ∈ dst.files.keys
  · simp [hm]
  · simp [hm, lookup_eq_none_of_keys hm]

theorem movLogFile_cases (h : movLogFile o s org dst = some (r, org', dst')) :
    o.call 0 = false ∧ dst' = dst ∨ o.call 0 = true ∧
      (o.call 1 = false ∧ dst' = removeOld s dst ∨ o.call 1 = true ∧
        org.files.keys.foldlM (movLog o) (org, removeOld s dst) = some (org', dst')) := by
  cases hdst : o.call 0 with
  | false =>
    simp only [movLogFile, hdst] at h
    obtain ⟨-, h⟩ := Prod.mk.inj (Option.some.inj h)
    exact .inl ⟨rfl, (Prod.mk.inj h).2.symm⟩
  | true =>
    simp only [movLogFile, hdst] at h
    obtain ⟨_, -, h⟩ := Option.bind_eq_some_iff.mp h
    refine .inr ⟨rfl, ?_⟩
    cases horg : o.call 1 with
    | false =>
      simp only [horg] at h
      obtain ⟨-, h⟩ := Prod.mk.inj (Option.some.inj h)
      exact .inl ⟨rfl, (Prod.mk.inj h).2.symm⟩
    | true =>
      simp only [horg] at h
      obtain ⟨⟨a, b⟩, hrun, h⟩ := Option.bind_eq_some_iff.mp h
      obtain ⟨-, h⟩ := Prod.mk.inj (Option.some.inj h)
      obtain ⟨rfl, rfl⟩ := Prod.mk.inj h
      exact .inr ⟨rfl, hrun⟩

theorem movLogFile_lookup (h : movLogFile allOpen s org dst = some (r, org', dst'))
    (m : FileName) :
    org'.files.lookup m = (if m = serverLog then org.files.lookup m else none) ∧
      dst'.files.lookup m =
        (arrives org m).or (if m.text < s then none else dst.files.lookup m) := by
  obtain ⟨hclosed, -⟩ | ⟨-, ⟨hclosed, -⟩ | ⟨-, hrun⟩⟩ := movLogFile_cases h
  · cases hclosed
  · cases hclosed
  obtain ⟨horg, hdst⟩ := movLogs_lookup hrun m
  rw [horg, hdst, removeOld_lookup]
  by_cases hm : m ∈ org.files.keys
  · refine ⟨?_, by rw [if_pos hm]⟩
    rcases eq_or_ne m serverLog with hserver | hserver
    · simp [hserver]
    · simp [hserver, hm]
  · have hnone := lookup_eq_none_of_keys hm
    have harrives : arrives org m = none := by simp [arrives, hnone]
    simp [hm, hnone, harrives]

theorem movLog_returns (ho : o.call 2 = true) (h : org.fits n = true ∧ dst.fits n = true) :
    ∃ a b, movLog o (org, dst) n = some (a, b) ∧ a.path = org.path ∧ b.path = dst.path := by
  have hfits : (org.fits n && dst.fits n) = true := Bool.and_eq_true_iff.mpr h
  rcases eq_or_ne n serverLog with rfl | hn
  · cases hlog : if o.file serverLog = true then org.files.lookup serverLog else none with
    | none =>
      refine ⟨org, dst, ?_, rfl, rfl⟩
      simp [movLog, guard, hfits, hlog]
    | some t =>
      refine ⟨org, dst.write serverLog ((reads MAX_LINE_LEN t).map cstr).flatten, ?_, rfl, rfl⟩
      simp [movLog, ho, guard, hfits, hlog]
  · refine ⟨{ org with files := (rename org.files dst.files n).1 },
      { dst with files := (rename org.files dst.files n).2 }, ?_, rfl, rfl⟩
    simp [movLog, guard, hfits, hn]

theorem movLogs_return (ho : o.call 2 = true) {ns : List FileName}
    (h : ∀ n ∈ ns, org.fits n = true ∧ dst.fits n = true) :
    ∃ r, ns.foldlM (movLog o) (org, dst) = some r := by
  induction ns generalizing org dst with
  | nil => exact ⟨(org, dst), rfl⟩
  | cons n ns ih =>
    obtain ⟨hn, hns⟩ := List.forall_mem_cons.mp h
    obtain ⟨a, b, hmov, ha, hb⟩ := movLog_returns ho hn
    have hrest : ∀ m ∈ ns, a.fits m = true ∧ b.fits m = true := by
      intro m hm
      rw [Folder.fits_congr ha, Folder.fits_congr hb]
      exact hns m hm
    obtain ⟨r, hr⟩ := ih hrest
    refine ⟨r, ?_⟩
    rw [List.foldlM_cons, hmov]
    exact hr

theorem movLogFile_returns (ho : o.call 2 = true) (h : ∀ n, n ∈ org.files ∨ n ∈ dst.files →
    org.fits n = true ∧ dst.fits n = true) : ∃ r, movLogFile o s org dst = some r := by
  have hold : ((dst.files.keys.filter (·.text < s)).all dst.fits) = true := by
    rw [List.all_eq_true]
    intro n hn
    exact (h n (.inr (AList.mem_keys.mpr (List.mem_of_mem_filter hn)))).2
  obtain ⟨⟨a, b⟩, hr⟩ : ∃ r, org.files.keys.foldlM (movLog o) (org, removeOld s dst) = some r :=
    movLogs_return ho fun n hn ↦ h n (.inl (AList.mem_keys.mpr hn))
  have hguard : guard (((dst.files.keys.filter (·.text < s)).all dst.fits) = true) = some () :=
    if_pos hold
  cases hdst : o.call 0 with
  | false => exact ⟨(-1, org, dst), by simp [movLogFile, hdst]⟩
  | true =>
    cases horg : o.call 1 with
    | false =>
      refine ⟨(-1, org, removeOld s dst), ?_⟩
      simp only [movLogFile, hdst, horg, hguard]
      rfl
    | true =>
      refine ⟨(0, a, b), ?_⟩
      simp only [movLogFile, hdst, horg, hguard]
      exact Option.bind_eq_some_iff.mpr ⟨(a, b), hr, rfl⟩

end Run

structure Inv (s : State) : Prop where
  server : serverLog ∈ s.dat.files
  named : ∀ n, n ≠ serverLog → n ∈ s.dat.files ∨ n ∈ s.log.files → n ∈ s.used
  apart : ∀ n, n ≠ serverLog → n ∈ s.dat.files → n ∉ s.log.files
  dat_ok : ∀ n t, s.dat.files.lookup n = some t → '\x00' ∉ t ∧ Complete t
  log_ok : ∀ n t, s.log.files.lookup n = some t → Complete t
  once : total records s.dat.files + total records (s.log.files.erase serverLog) + s.removed =
    s.appended

theorem inv_init (dat log : Text) : Inv (init dat log) := by
  have hdat : ∀ n t, (init dat log).dat.files.lookup n = some t → t = [] := by
    intro n t h
    rcases eq_or_ne n serverLog with rfl | hn
    · exact (Option.some.inj (h.symm.trans (AList.lookup_insert _))).symm ▸ rfl
    · cases (AList.lookup_insert_ne hn).symm.trans h
  constructor
  · exact (AList.mem_insert _).mpr (.inl rfl)
  · intro n hn hmem
    rcases hmem with hmem | hmem
    · exact absurd ((AList.mem_insert _).mp hmem) (by simp [hn])
    · exact absurd hmem (AList.notMem_empty n)
  · exact fun n _ _ ↦ AList.notMem_empty n
  · intro n t h
    rw [hdat n t h]
    decide
  · intro n t h
    cases h
  · rfl

section Step

variable {s t : State}

theorem Inv.append (h : Inv s) {text : Text} (ht : step s (.append text) = some t) : Inv t := by
  obtain ⟨_, hguard, ht⟩ := Option.bind_eq_some_iff.mp ht
  obtain ⟨old, hold, ht⟩ := Option.bind_eq_some_iff.mp ht
  obtain ⟨hnul, hcomplete⟩ : '\x00' ∉ text ∧ Complete text := by simpa [guard] using hguard
  obtain rfl := Option.some.inj ht
  obtain ⟨holdNul, holdComplete⟩ := h.dat_ok _ _ hold
  have hnew : records (old ++ text) = records old + records text := by
    rw [records, lines_append holdComplete, ← Multiset.coe_add, ← records, ← records]
  constructor
  · exact (AList.mem_insert _).mpr (.inl rfl)
  · intro n hn hmem
    exact h.named n hn (hmem.imp_left fun hm ↦ ((AList.mem_insert _).mp hm).resolve_left hn)
  · intro n hn hmem
    exact h.apart n hn (((AList.mem_insert _).mp hmem).resolve_left hn)
  · intro n u hu
    rcases eq_or_ne n serverLog with rfl | hn
    · obtain rfl := Option.some.inj (hu.symm.trans (lookup_write_self _))
      exact ⟨by simp [holdNul, hnul], holdComplete.append hcomplete⟩
    · exact h.dat_ok n u ((lookup_write_ne hn _).symm.trans hu)
  · exact h.log_ok
  · have honce := h.once
    rw [← total_erase_add hold] at honce
    simp only [Folder.write, total_insert, hnew, ← honce]
    abel

theorem Inv.rotate (h : Inv s) {n : FileName} (ht : step s (.rotate n) = some t) : Inv t := by
  obtain ⟨_, hguard, ht⟩ := Option.bind_eq_some_iff.mp ht
  obtain ⟨hserver, hused⟩ : n ≠ serverLog ∧ n ∉ s.used := by simpa [guard] using hguard
  obtain rfl := Option.some.inj ht
  obtain ⟨old, hold⟩ := Option.isSome_iff_exists.mp (AList.lookup_isSome.mpr h.server)
  have hdat : n ∉ s.dat.files := fun hm ↦ hused (h.named n hserver (.inl hm))
  have hlog : n ∉ s.log.files := fun hm ↦ hused (h.named n hserver (.inr hm))
  have hlookup : ∀ m, ((renameTo s.dat.files serverLog n).insert serverLog []).lookup m =
      if m = serverLog then some [] else if m = n then some old else s.dat.files.lookup m := by
    intro m
    split
    · next hm => rw [hm, AList.lookup_insert]
    · next hm => rw [AList.lookup_insert_ne hm, lookup_renameTo hdat, if_neg hm, hold]
  have hmem : ∀ m, m ≠ serverLog → m ∈ (renameTo s.dat.files serverLog n).insert serverLog [] →
      m = n ∨ m ∈ s.dat.files := by
    intro m hm h
    rw [← AList.lookup_isSome, hlookup, if_neg hm] at h
    split at h
    · next hn => exact .inl hn
    · exact .inr (AList.lookup_isSome.mp h)
  constructor
  · exact (AList.mem_insert _).mpr (.inl rfl)
  · intro m hm hin
    rcases hin with hin | hin
    · obtain rfl | hin := hmem m hm hin
      · exact List.mem_cons_self
      · exact List.mem_cons_of_mem n (h.named m hm (.inl hin))
    · exact List.mem_cons_of_mem n (h.named m hm (.inr hin))
  · intro m hm hin
    obtain rfl | hin := hmem m hm hin
    · exact hlog
    · exact h.apart m hm hin
  · intro m u hu
    have hu := (hlookup m).symm.trans hu
    split at hu
    · obtain rfl := Option.some.inj hu
      decide
    · split at hu
      · obtain rfl := Option.some.inj hu
        exact h.dat_ok _ _ hold
      · exact h.dat_ok m u hu
  · exact h.log_ok
  · have hn : ((renameTo s.dat.files serverLog n).insert serverLog []).lookup n = some old := by
      rw [hlookup, if_neg hserver, if_pos rfl]
    have hrest : total records (((renameTo s.dat.files serverLog n).insert serverLog []).erase n) =
        total records (s.dat.files.erase serverLog) := by
      apply total_congr
      intro m
      rw [weight_erase, weight_erase, weight, hlookup]
      rcases eq_or_ne m n with rfl | hm
      · rw [if_pos rfl, weight_of_notMem hdat, ite_self]
      · rw [if_neg hm, if_neg hm]
        split
        · rfl
        · rfl
    have honce := h.once
    rw [← total_erase_add hold, ← hrest, total_erase_add hn] at honce
    exact honce

theorem expired_eq_sum {log : Folder} {c : Text} {S : Finset FileName}
    (h : ∀ n ∈ log.files, n ∈ S) :
    expired c log =
      ∑ n ∈ S, if n.text < c ∧ n ≠ serverLog then weight records log.files n else 0 := by
  rw [expired, Finset.sum_filter]
  apply Finset.sum_subset
  · intro n hn
    exact h n (AList.mem_keys.mpr (List.mem_toFinset.mp hn))
  · intro n _ hn
    rw [weight_of_notMem, ite_self]
    intro hmem
    exact hn (List.mem_toFinset.mpr (AList.mem_keys.mp hmem))

theorem step_run {c : Text} (ht : step s (.run c) = some t) :
    t.used = s.used ∧ t.appended = s.appended ∧ t.removed = s.removed + expired c s.log := by
  obtain ⟨_, -, ht⟩ := Option.bind_eq_some_iff.mp ht
  obtain rfl := Option.some.inj ht
  exact ⟨rfl, rfl, rfl⟩

theorem Inv.run_lookup (h : Inv s) {c : Text} (ht : step s (.run c) = some t) (n : FileName) :
    t.dat.files.lookup n = (if n = serverLog then s.dat.files.lookup n else none) ∧
      t.log.files.lookup n =
        (s.dat.files.lookup n).or (if n.text < c then none else s.log.files.lookup n) := by
  obtain ⟨⟨r, dat, log⟩, hrun, ht⟩ := Option.bind_eq_some_iff.mp ht
  obtain rfl := Option.some.inj ht
  have harrives : arrives s.dat n = s.dat.files.lookup n := by
    unfold arrives
    split
    · cases hn : s.dat.files.lookup n with
      | none => rfl
      | some u => rw [Option.map_some, flatten_map_cstr (h.dat_ok n u hn).1]
    · rfl
  have hlookup := movLogFile_lookup hrun n
  rw [harrives] at hlookup
  exact hlookup

theorem Inv.run_weight (h : Inv s) {c : Text} (ht : step s (.run c) = some t) (n : FileName) :
    weight records t.dat.files n + weight records (t.log.files.erase serverLog) n +
        (if n.text < c ∧ n ≠ serverLog then weight records s.log.files n else 0) =
      weight records s.dat.files n + weight records (s.log.files.erase serverLog) n := by
  obtain ⟨hdat, hlog⟩ := h.run_lookup ht n
  rw [weight_erase, weight_erase]
  rcases eq_or_ne n serverLog with hn | hn
  · rw [weight, hdat]
    simp [hn, weight]
  · have hgone : weight records t.dat.files n = 0 := by
      rw [weight, hdat, if_neg hn]
      rfl
    rw [if_neg hn, if_neg hn, hgone]
    by_cases hmem : n ∈ s.dat.files
    · obtain ⟨u, hu⟩ := Option.isSome_iff_exists.mp (AList.lookup_isSome.mpr hmem)
      rw [weight_of_notMem (h.apart n hn hmem), weight, hlog, weight, hu]
      simp
    · rw [weight, hlog, AList.lookup_eq_none.mpr hmem, weight_of_notMem hmem]
      by_cases hold : n.text < c
      · simp [hold, hn]
      · simp [hold, weight]

theorem Inv.run (h : Inv s) {c : Text} (ht : step s (.run c) = some t) : Inv t := by
  obtain ⟨hused, happended, hremoved⟩ := step_run ht
  have hlookup := h.run_lookup ht
  have hrest : ∀ n, n ≠ serverLog → n ∉ t.dat.files := by
    intro n hn
    rw [← AList.lookup_eq_none, (hlookup n).1, if_neg hn]
  have hserver : serverLog ∈ t.dat.files := by
    rw [← AList.lookup_isSome, (hlookup serverLog).1, if_pos rfl]
    exact AList.lookup_isSome.mpr h.server
  have hold : ∀ n u, t.log.files.lookup n = some u →
      s.dat.files.lookup n = some u ∨ s.log.files.lookup n = some u := by
    intro n u hu
    rw [(hlookup n).2, Option.or_eq_some_iff] at hu
    refine hu.imp_right ?_
    intro hlog
    obtain ⟨-, hlog⟩ := hlog
    split at hlog
    · cases hlog
    · exact hlog
  have hmem : ∀ n, n ∈ t.log.files → n ∈ s.dat.files ∨ n ∈ s.log.files := by
    intro n hn
    obtain ⟨u, hu⟩ := Option.isSome_iff_exists.mp (AList.lookup_isSome.mpr hn)
    exact (hold n u hu).imp (fun hu ↦ AList.lookup_isSome.mp (by rw [hu]; rfl))
      (fun hu ↦ AList.lookup_isSome.mp (by rw [hu]; rfl))
  refine ⟨hserver, ?_, fun n hn hin ↦ absurd hin (hrest n hn), ?_, ?_, ?_⟩
  · intro n hn hin
    rw [hused]
    exact h.named n hn (hmem n (hin.resolve_left (hrest n hn)))
  · intro n u hu
    rw [(hlookup n).1] at hu
    split at hu
    · exact h.dat_ok n u hu
    · cases hu
  · intro n u hu
    exact (hold n u hu).elim (fun hu ↦ (h.dat_ok n u hu).2) (h.log_ok n u)
  · let S := s.dat.files.keys.toFinset ∪ s.log.files.keys.toFinset
    have hdat : ∀ n ∈ s.dat.files, n ∈ S := fun n hn ↦
      Finset.mem_union_left _ (List.mem_toFinset.mpr (AList.mem_keys.mp hn))
    have hlog : ∀ n ∈ s.log.files, n ∈ S := fun n hn ↦
      Finset.mem_union_right _ (List.mem_toFinset.mpr (AList.mem_keys.mp hn))
    have hdat' : ∀ n ∈ t.dat.files, n ∈ S := by
      intro n hn
      rcases eq_or_ne n serverLog with rfl | hne
      · exact hdat _ h.server
      · exact absurd hn (hrest n hne)
    have hlog' : ∀ n ∈ t.log.files.erase serverLog, n ∈ S := fun n hn ↦
      (hmem n (AList.mem_erase.mp hn).2).elim (hdat n) (hlog n)
    have hsum : total records t.dat.files + total records (t.log.files.erase serverLog) +
        expired c s.log =
          total records s.dat.files + total records (s.log.files.erase serverLog) := by
      rw [total_eq_sum hdat', total_eq_sum hlog', expired_eq_sum hlog, total_eq_sum hdat,
        total_eq_sum fun n hn ↦ hlog n (AList.mem_erase.mp hn).2, ← Finset.sum_add_distrib,
        ← Finset.sum_add_distrib, ← Finset.sum_add_distrib]
      exact Finset.sum_congr rfl fun n _ ↦ h.run_weight ht n
    rw [hremoved, happended, ← h.once, ← hsum]
    abel

theorem step_inv (h : Inv s) {e : Label} (ht : step s e = some t) : Inv t := by
  cases e with
  | append text => exact h.append ht
  | rotate n => exact h.rotate ht
  | run c => exact h.run ht

theorem Inv.run_total (h : Inv s) {c : Text} (ht : step s (.run c) = some t) :
    total records t.dat.files + total records (t.log.files.erase serverLog) =
      total records t.log.files := by
  have hlookup := h.run_lookup ht
  obtain ⟨u, hu⟩ := Option.isSome_iff_exists.mp (AList.lookup_isSome.mpr h.server)
  have hdat : t.dat.files.lookup serverLog = some u := by
    rw [(hlookup serverLog).1, if_pos rfl, hu]
  have hlog : t.log.files.lookup serverLog = some u := by
    rw [(hlookup serverLog).2, hu]
    rfl
  have hrest : total records (t.dat.files.erase serverLog) = 0 := by
    apply Finset.sum_eq_zero
    intro n _
    rw [weight_erase]
    split
    · rfl
    · next hn =>
      rw [weight, (hlookup n).1, if_neg hn]
      rfl
  rw [← total_erase_add hlog, ← total_erase_add hdat, hrest, add_zero]

end Step

section Tallied

def songs (line : Text) : List Text := (reads MAX_LINE_LEN line).filterMap songId

variable {d : Folder}

theorem files_complete (h : ∀ n t, d.files.lookup n = some t → Complete t) :
    ∀ t ∈ d.files.entries.map fun e ↦ e.2, Complete t := by
  intro t ht
  obtain ⟨e, he, rfl⟩ := List.mem_map.mp ht
  exact h e.1 e.2 (AList.mem_lookup_iff.mpr he)

theorem lines_concat (h : ∀ n t, d.files.lookup n = some t → Complete t) :
    (lines (concat d) : Multiset Text) = total records d.files := by
  rw [concat, lines_flatten (files_complete h), total_eq_entries]
  generalize d.files.entries = l
  induction l with
  | nil => rfl
  | cons e l ih =>
    rw [List.map_cons, List.flatMap_cons, ← Multiset.coe_add, ih, List.map_cons, List.sum_cons]
    rfl

theorem countedIds_eq (h : ∀ n t, d.files.lookup n = some t → Complete t) :
    countedIds allOpen d = (lines (concat d)).flatMap songs := by
  have hkeys : (d.files.keys.filterMap fun n ↦ d.files.lookup n) =
      d.files.entries.map fun e ↦ e.2 := by
    rw [AList.keys, List.keys, List.filterMap_map, ← List.filterMap_eq_map]
    apply List.filterMap_congr
    intro e he
    exact AList.mem_lookup_iff.mpr he
  have hcomplete := files_complete h
  rw [countedIds]
  simp only [allOpen, if_true]
  rw [hkeys, concat, lines_flatten hcomplete, List.flatMap_assoc]
  apply List.flatMap_congr
  intro t ht
  rw [← reads_lines (by decide) t, List.filterMap_flatMap]
  rfl

end Tallied

theorem step_run_returns {s : State} {c : Text} (h : ∀ n, n ∈ s.dat.files ∨ n ∈ s.log.files →
    s.dat.fits n = true ∧ s.log.fits n = true) : ∃ t, step s (.run c) = some t := by
  obtain ⟨⟨r, dat, log⟩, hr⟩ := @movLogFile_returns allOpen s.dat s.log c rfl h
  exact ⟨{ s with dat, log, removed := s.removed + expired c s.log },
    Option.bind_eq_some_iff.mpr ⟨(r, dat, log), hr, rfl⟩⟩

theorem once_after_run {s t : State} (h : Inv s) {c : Text} (ht : step s (.run c) = some t) :
    (lines (concat t.log) : Multiset Text) + t.removed = t.appended ∧
      (countedIds allOpen t.log : Multiset Text) + t.removed.bind (fun line ↦ songs line) =
        t.appended.bind fun line ↦ songs line := by
  have hinv := h.run ht
  have hlines : (lines (concat t.log) : Multiset Text) + t.removed = t.appended := by
    rw [lines_concat hinv.log_ok, ← h.run_total ht]
    exact hinv.once
  refine ⟨hlines, ?_⟩
  rw [← hlines, Multiset.add_bind, countedIds_eq hinv.log_ok, Multiset.coe_bind]

/-- A run of `movLogFile` whose names fit in the paths returns. After every run
LOG_DIR has each line once that was ever appended, less those of the archives
removed for their age, and `cntSrhNums` finds in them just the songs of these
lines. -/
theorem lines_counted_once (dat log : Text) (es : List Label) (c : Text) :
    (∀ s, exec step (init dat log) es = some s →
      (∀ n, n ∈ s.dat.files ∨ n ∈ s.log.files → s.dat.fits n = true ∧ s.log.fits n = true) →
        ∃ t, exec step (init dat log) (es ++ [.run c]) = some t) ∧
    ∀ t, exec step (init dat log) (es ++ [.run c]) = some t →
      (lines (concat t.log) : Multiset Text) + t.removed = t.appended ∧
        (countedIds allOpen t.log : Multiset Text) + t.removed.bind (fun line ↦ songs line) =
          t.appended.bind fun line ↦ songs line := by
  refine ⟨?_, ?_⟩
  · intro s hs hfits
    obtain ⟨t, ht⟩ : ∃ t, step s (.run c) = some t := step_run_returns hfits
    refine ⟨t, ?_⟩
    rw [exec_append hs]
    exact Option.bind_eq_some_iff.mpr ⟨t, ht, rfl⟩
  · intro t h
    obtain ⟨s, hs, ht⟩ := exec_concat h
    have hinv : Inv s := exec_invariant (G := fun _ ↦ True) (fun _ _ _ hi _ ↦ step_inv hi)
      (inv_init dat log) (fun _ _ ↦ trivial) hs
    exact once_after_run hinv ht

def week : List Label :=
  [.append "$$|7|a\n$$|8|b\n".toList, .run "2024-05-01_04-00-00.log".toList,
    .append "$$|7|c\n".toList, .rotate (.ofC "2024-05-08_00-00-00.log".toList),
    .append "$$|9|d\n".toList, .run "2024-05-02_04-00-00.log".toList]

theorem lines_counted_once_week : ∃ t,
    exec step (init "dat".toList "log".toList) (week ++ [.run "2024-05-09_04-00-00.log".toList]) =
      some t ∧ (lines (concat t.log) : Multiset Text) + t.removed = t.appended ∧
      (countedIds allOpen t.log : Multiset Text) + t.removed.bind (fun line ↦ songs line) =
        t.appended.bind fun line ↦ songs line := by
  have hruns : (exec step (init "dat".toList "log".toList)
      (week ++ [.run "2024-05-09_04-00-00.log".toList])).isSome := by decide +kernel
  obtain ⟨t, ht⟩ := Option.isSome_iff_exists.mp hruns
  exact ⟨t, ht, (lines_counted_once _ _ _ _).2 t ht⟩

end FingerMove.ProDeal.LogHistory
