import FingerMove.Library.Calendar
import FingerMove.ProDeal.LogHistory

namespace FingerMove.ProDeal.Retention

open CText Directory Calendar LogHistory

def stamp : Text := "%Y-%m-%d_%H-%M-%S.log".toList

def runlog : Text := "../runlog/".toList

def FORMAT : Text := runlog ++ stamp

/-- What a rotation at `T` calls the old log, in the directory of the log. -/
def archive (offset T : ℤ) : Option FileName := do
  let fname ← strftime 79 FORMAT (localtime offset T)
  return .ofC (fname.drop runlog.length)

def movLogFileAt (o : Opens) (now : ℤ) (org dst : Folder) : Option (ℤ × Folder × Folder) := do
  let s ← strftime MAX_NAME_LEN stamp (gmtime (now - 3600 * 24 * 6))
  movLogFile o s org dst

def InYears (p : Tm) : Prop := 1000 ≤ p.tm_year + 1900 ∧ p.tm_year + 1900 ≤ 9999

/-- A directory with `server.log` and the archives of the rotations at `S`. -/
def Holds (offset : ℤ) (S : Set ℤ) (d : Folder) : Prop :=
  ∀ n, n ∈ d.files ↔ n = serverLog ∨ ∃ T ∈ S, archive offset T = some n

section Names

def FourDigits (p : Tm) : Prop := 0 ≤ p.tm_year + 1900 ∧ p.tm_year + 1900 < 10000

theorem InYears.fourDigits {p : Tm} (h : InYears p) : FourDigits p := by
  obtain ⟨hle, hge⟩ := h
  exact ⟨by omega, by omega⟩

def layout : List (ℕ × Text) :=
  [(4, ['-']), (2, ['-']), (2, ['_']), (2, ['-']), (2, ['-']), (2, ".log".toList)]

theorem expand_stamp (p : Tm) : expand p stamp = printed layout p.fields := by
  have hformat : stamp = ['%', 'Y', '-', '%', 'm', '-', '%', 'd', '_', '%', 'H', '-', '%', 'M',
    '-', '%', 'S', '.', 'l', 'o', 'g'] := by decide
  rw [hformat]
  simp (disch := decide) only [expand_conversion, expand_plain, conversion, layout, Tm.fields,
    printed]
  rfl

theorem expand_runlog (p : Tm) : expand p FORMAT = runlog ++ expand p stamp :=
  expand_append (by decide) stamp p

variable {t u : ℤ}

theorem layout_fits (h : FourDigits (gmtime t)) :
    List.Forall₂ (fun w x ↦ Fits w.1 x) layout (gmtime t).fields := by
  obtain ⟨hmon, hmday, hhour, hmin, hsec⟩ := gmtime_bounds t
  unfold FourDigits at h
  simp only [layout, Tm.fields, List.forall₂_cons, Fits, List.forall₂_nil_left_iff, and_true]
  omega

theorem stamp_lt_iff (ht : FourDigits (gmtime t)) (hu : FourDigits (gmtime u)) :
    expand (gmtime t) stamp < expand (gmtime u) stamp ↔ t < u := by
  rw [expand_stamp, expand_stamp, printed_lt_iff (layout_fits ht) (layout_fits hu),
    gmtime_lt_iff]

theorem length_stamp (ht : FourDigits (gmtime t)) :
    (expand (gmtime t) stamp).length = 23 := by
  have hfits := layout_fits ht
  simp only [layout, Tm.fields, List.forall₂_cons] at hfits
  obtain ⟨hyear, hmon, hmday, hhour, hmin, hsec, -⟩ := hfits
  simp [expand_stamp, layout, Tm.fields, printed, length_number hyear, length_number hmon,
    length_number hmday, length_number hhour, length_number hmin, length_number hsec]

theorem noNul_stamp (p : Tm) : '\x00' ∉ expand p stamp := by
  have hnumber : ∀ w x, '\x00' ∉ number w x := fun w x h ↦ by
    rcases mem_number h with h | h
    · cases h
    · cases h
  simp [expand_stamp, layout, Tm.fields, printed, hnumber]

theorem stamp_lt_server (ht : FourDigits (gmtime t)) :
    expand (gmtime t) stamp < serverLog.text := by
  obtain ⟨hyear, -⟩ := List.forall₂_cons.mp (layout_fits ht)
  rw [expand_stamp]
  exact number_lt_of_head hyear (by decide) _ "erver.log".toList

theorem archive_text {offset T : ℤ} {n : FileName} (h : archive offset T = some n) :
    n.text = expand (localtime offset T) stamp := by
  obtain ⟨fname, hfname, h⟩ := Option.bind_eq_some_iff.mp h
  obtain rfl := Option.some.inj h
  obtain ⟨-, hfname⟩ := Option.ite_none_right_eq_some.mp hfname
  rw [← Option.some.inj hfname, expand_runlog, FileName.ofC, List.drop_left]
  exact cstr_eq_self (noNul_stamp _)

theorem archive_isSome {offset T : ℤ} (h : FourDigits (localtime offset T)) :
    ∃ n, archive offset T = some n := by
  have hlength : (expand (localtime offset T) FORMAT).length < 79 := by
    rw [expand_runlog, List.length_append, localtime, length_stamp h]
    decide
  rw [archive, strftime_eq hlength]
  exact ⟨_, rfl⟩

theorem cutoff_fourDigits {now : ℤ} (h : InYears (gmtime now)) :
    FourDigits (gmtime (now - 3600 * 24 * 6)) := by
  obtain ⟨hle, hge⟩ := h
  have hfirst : daysBeforeYear 1000 = 364877 := by decide
  have hzero : daysBeforeYear 0 = -366 := by decide
  have hnow := le_gmtime_year_iff.mp hle
  have hyear : (gmtime (now - 3600 * 24 * 6)).tm_year ≤ (gmtime now).tm_year :=
    gmtime_year_le (by omega)
  refine ⟨le_gmtime_year_iff.mpr ?_, by omega⟩
  omega

end Names

section Kept

variable {o : Opens} {org dst org' dst' : Folder} {s : Text} {r : ℤ} {m n : FileName}

theorem movLogs_lookup {ns : List FileName}
    (h : ns.foldlM (movLog o) (org, dst) = some (org', dst')) (hm : m ≠ serverLog) :
    dst'.files.lookup m =
      if m ∈ ns then (org.files.lookup m).or (dst.files.lookup m) else dst.files.lookup m := by
  induction ns generalizing org dst with
  | nil =>
    obtain ⟨-, rfl⟩ := Prod.mk.inj (Option.some.inj h)
    simp
  | cons n ns ih =>
    obtain ⟨⟨a, b⟩, hn, h⟩ := Option.bind_eq_some_iff.mp h
    rw [ih h]
    rcases eq_or_ne m n with rfl | hne
    · obtain ⟨ha, hb⟩ := movLog_lookup_self hn hm
      simp [ha, hb]
    · obtain ⟨ha, hb⟩ := movLog_lookup_ne hn hne
      simp [ha, hb, hne]

theorem movLog_server (h : movLog o (org, dst) n = some (org', dst'))
    (hserver : serverLog ∈ dst.files) : serverLog ∈ dst'.files := by
  rcases eq_or_ne serverLog n with rfl | hn
  · obtain ⟨_, -, h⟩ := Option.bind_eq_some_iff.mp h
    simp only [ne_eq, not_true_eq_false, if_false] at h
    split at h
    · obtain ⟨_, -, h⟩ := Option.bind_eq_some_iff.mp h
      obtain ⟨-, rfl⟩ := Prod.mk.inj (Option.some.inj h)
      exact (AList.mem_insert _).mpr (.inl rfl)
    · obtain ⟨-, rfl⟩ := Prod.mk.inj (Option.some.inj h)
      exact hserver
  · rw [← AList.lookup_isSome, (movLog_lookup_ne h hn).2]
    exact AList.lookup_isSome.mpr hserver

theorem movLogs_server {ns : List FileName}
    (h : ns.foldlM (movLog o) (org, dst) = some (org', dst'))
    (hserver : serverLog ∈ dst.files) : serverLog ∈ dst'.files := by
  induction ns generalizing org dst with
  | nil =>
    obtain ⟨-, rfl⟩ := Prod.mk.inj (Option.some.inj h)
    exact hserver
  | cons n ns ih =>
    obtain ⟨⟨a, b⟩, hn, h⟩ := Option.bind_eq_some_iff.mp h
    exact ih h (movLog_server hn hserver)

def moved (o : Opens) (org : Folder) (n : FileName) : Option Text :=
  if o.call 0 = true ∧ o.call 1 = true then org.files.lookup n else none

theorem movLogFile_kept (h : movLogFile o s org dst = some (r, org', dst')) (hm : m ≠ serverLog) :
    dst'.files.lookup m = (moved o org m).or
      (if o.call 0 = true ∧ m.text < s then none else dst.files.lookup m) := by
  obtain ⟨hdst, rfl⟩ | ⟨hdst, ⟨horg, rfl⟩ | ⟨horg, hrun⟩⟩ := movLogFile_cases h
  · simp [moved, hdst]
  · simp [moved, hdst, horg, removeOld_lookup]
  · have hmoved : moved o org m = org.files.lookup m := if_pos ⟨hdst, horg⟩
    rw [movLogs_lookup hrun hm, removeOld_lookup, hmoved]
    by_cases hkeys : m ∈ org.files.keys
    · simp [hkeys, hdst]
    · simp [hkeys, hdst, lookup_eq_none_of_keys hkeys]

theorem movLogFile_server (h : movLogFile o s org dst = some (r, org', dst'))
    (hs : ¬serverLog.text < s) (hserver : serverLog ∈ dst.files) : serverLog ∈ dst'.files := by
  have hkept : serverLog ∈ (removeOld s dst).files := by
    rw [← AList.lookup_isSome, removeOld_lookup, if_neg hs]
    exact AList.lookup_isSome.mpr hserver
  obtain ⟨-, rfl⟩ | ⟨-, ⟨-, rfl⟩ | ⟨-, hrun⟩⟩ := movLogFile_cases h
  · exact hserver
  · exact hkept
  · exact movLogs_server hrun hkept

theorem or_ite_eq_iff {α : Type*} {a : Option α} {x : α} {p q : Prop} [Decidable p]
    [Decidable q] :
    (a.or (if p then none else some x) = a.or (if q then none else some x)) ↔
      a.isSome ∨ (p ↔ q) := by
  cases a with
  | some y => simp
  | none =>
    by_cases hp : p
    · by_cases hq : q
      · simp [hp, hq]
      · simp [hp, hq]
    · by_cases hq : q
      · simp [hp, hq]
      · simp [hp, hq]

variable {offset now T : ℤ}

theorem movLogFileAt_eq (hnow : InYears (gmtime now)) : movLogFileAt o now org dst =
    movLogFile o (expand (gmtime (now - 3600 * 24 * 6)) stamp) org dst := by
  have hlength : (expand (gmtime (now - 3600 * 24 * 6)) stamp).length < MAX_NAME_LEN := by
    rw [length_stamp (cutoff_fourDigits hnow)]
    decide
  rw [movLogFileAt, strftime_eq hlength]
  rfl

theorem archive_lt_cutoff_iff (hnow : InYears (gmtime now)) (hT : InYears (localtime offset T))
    (hn : archive offset T = some n) :
    n.text < expand (gmtime (now - 3600 * 24 * 6)) stamp ↔ T + offset < now - 6 * 86400 := by
  have hsix : now - 3600 * 24 * 6 = now - 6 * 86400 := by omega
  rw [archive_text hn, localtime, stamp_lt_iff hT.fourDigits (cutoff_fourDigits hnow), hsix]

theorem archive_ne_server (hT : InYears (localtime offset T)) (hn : archive offset T = some n) :
    n ≠ serverLog := by
  rintro rfl
  have hstamp := stamp_lt_server hT.fourDigits
  rw [← localtime, ← archive_text hn] at hstamp
  exact List.lt_irrefl _ hstamp

end Kept

/-- `movLogFile` at `now` returns when its paths fit and the copy of the live log
can be opened. It keeps `server.log`, and before it moves the files of DAT_DIR in
it removes just the archives older than six days, if and only if the offset moves
none of them over the cutoff (and LOG_DIR can be opened when one is that old). -/
theorem archives_kept_iff (o : Opens) (offset now : ℤ) (S : Set ℤ) (org dst : Folder)
    (hS : ∀ T ∈ S, InYears (localtime offset T)) (hnow : InYears (gmtime now))
    (hdst : Holds offset S dst) :
    (o.call 2 = true → (∀ n, n ∈ org.files ∨ n ∈ dst.files →
      org.fits n = true ∧ dst.fits n = true) → ∃ r, movLogFileAt o now org dst = some r) ∧
    ∀ r org' dst', movLogFileAt o now org dst = some (r, org', dst') →
      ((serverLog ∈ dst'.files ∧
        ∀ T ∈ S, ∃ n, archive offset T = some n ∧
          dst'.files.lookup n = (moved o org n).or
            (if T < now - 6 * 86400 then none else dst.files.lookup n)) ↔
      ∀ T ∈ S, ∀ n, archive offset T = some n → (moved o org n).isSome ∨
        (o.call 0 = true ∧ T + offset < now - 6 * 86400 ↔ T < now - 6 * 86400)) := by
  rw [movLogFileAt_eq hnow]
  refine ⟨fun ho hfits ↦ movLogFile_returns ho hfits, ?_⟩
  intro r org' dst' h
  have hserver : serverLog ∈ dst'.files :=
    movLogFile_server h (List.lt_asymm (stamp_lt_server (cutoff_fourDigits hnow)))
      ((hdst _).mpr (.inl rfl))
  have hkept : ∀ T ∈ S, ∀ n, archive offset T = some n →
      (dst'.files.lookup n = (moved o org n).or
          (if T < now - 6 * 86400 then none else dst.files.lookup n) ↔
        (moved o org n).isSome ∨
          (o.call 0 = true ∧ T + offset < now - 6 * 86400 ↔ T < now - 6 * 86400)) := by
    intro T hT n hn
    obtain ⟨t, ht⟩ := Option.isSome_iff_exists.mp
      (AList.lookup_isSome.mpr ((hdst n).mpr (.inr ⟨T, hT, hn⟩)))
    rw [movLogFile_kept h (archive_ne_server (hS T hT) hn), ht, or_ite_eq_iff,
      archive_lt_cutoff_iff hnow (hS T hT) hn]
  constructor
  · rintro ⟨-, hall⟩ T hT n hn
    obtain ⟨m, hm, hlookup⟩ := hall T hT
    obtain rfl := Option.some.inj (hm.symm.trans hn)
    exact (hkept T hT m hn).mp hlookup
  · intro hcond
    refine ⟨hserver, fun T hT ↦ ?_⟩
    obtain ⟨n, hn⟩ := archive_isSome (hS T hT).fourDigits
    exact ⟨n, hn, (hkept T hT n hn).mpr (hcond T hT n hn)⟩

def aprilLogs (name : String) : Folder :=
  .ofList "log" [("server.log", "a\n"), (name, "b\n")]

theorem mem_aprilLogs {name : String} {n : FileName} :
    n ∈ (aprilLogs name).files ↔ n = serverLog ∨ n = .ofC name.toList := by
  rw [← AList.lookup_isSome, aprilLogs, Folder.ofList, AList.lookup_to_alist, List.dlookup_isSome,
    ← List.mem_pair]
  rfl

theorem holds_aprilLogs {offset T : ℤ} {name : String}
    (h : archive offset T = some (.ofC name.toList)) : Holds offset {T} (aprilLogs name) := by
  intro n
  rw [mem_aprilLogs]
  constructor
  · rintro (hn | hn)
    · exact .inl hn
    · exact .inr ⟨T, rfl, hn ▸ h⟩
  · rintro (hn | ⟨_, rfl, hn⟩)
    · exact .inl hn
    · exact .inr (Option.some.inj (hn.symm.trans h))

theorem archives_kept_iff_utc : ∃ r org' dst',
    movLogFileAt allOpen 1714550400 (.ofList "dat" []) (aprilLogs "2024-04-25_07-59-59.log") =
      some (r, org', dst') ∧
    serverLog ∈ dst'.files ∧ .ofC "2024-04-25_07-59-59.log".toList ∉ dst'.files := by
  have hname : archive 0 1714031999 = some (.ofC "2024-04-25_07-59-59.log".toList) := by
    decide +kernel
  obtain ⟨hruns, hiff⟩ := archives_kept_iff allOpen 0 1714550400 {1714031999} (.ofList "dat" [])
    (aprilLogs "2024-04-25_07-59-59.log") (by rintro _ rfl; exact ⟨by decide, by decide⟩)
    ⟨by decide, by decide⟩ (holds_aprilLogs hname)
  obtain ⟨⟨r, org', dst'⟩, hr⟩ := hruns rfl fun n hn ↦ by
    rcases mem_aprilLogs.mp (hn.resolve_left (AList.notMem_empty n)) with rfl | rfl
    · exact ⟨by decide, by decide⟩
    · exact ⟨by decide, by decide⟩
  obtain ⟨hserver, hkept⟩ := (hiff r org' dst' hr).mpr fun T _ _ _ ↦ .inr (by simp [allOpen])
  obtain ⟨n, hn, hlookup⟩ := hkept 1714031999 rfl
  obtain rfl := Option.some.inj (hn.symm.trans hname)
  exact ⟨r, org', dst', hr, hserver, AList.lookup_eq_none.mp hlookup⟩

/-- Eight hours ahead of UTC an archive stays eight hours too long. -/
theorem archive_kept_too_long :
    InYears (localtime 28800 1714031999) ∧ InYears (gmtime 1714550400) ∧
      Holds 28800 {1714031999} (aprilLogs "2024-04-25_15-59-59.log") ∧
      1714031999 < (1714550400 : ℤ) - 6 * 86400 ∧
      ((movLogFileAt allOpen 1714550400 (.ofList "dat" [])
        (aprilLogs "2024-04-25_15-59-59.log")).map fun x ↦
          x.2.2.files.lookup (.ofC "2024-04-25_15-59-59.log".toList)) =
        some (some "b\n".toList) := by
  have hname : archive 28800 1714031999 = some (.ofC "2024-04-25_15-59-59.log".toList) := by
    decide +kernel
  refine ⟨⟨by decide, by decide⟩, ⟨by decide, by decide⟩, holds_aprilLogs hname, by decide, ?_⟩
  decide +kernel

end FingerMove.ProDeal.Retention
