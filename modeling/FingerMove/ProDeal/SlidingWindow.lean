import FingerMove.ProDeal.Retention

namespace FingerMove.ProDeal.SlidingWindow

open CText Directory Machine Calendar Retention LogHistory

structure Segment where
  T : ℤ
  text : Text

/-- What a log has been through: the lines since the last rotation, and the rotated
logs, the newest first, before the first count of the searches and after it. -/
structure History where
  live : Text
  fresh : List Segment
  moved : List Segment

inductive Event
  | append (t : Text)
  | rotate (T : ℤ)
  | run (now : ℤ)

def History.record (h : History) : Event → History
  | .append t => { h with live := h.live ++ t }
  | .rotate T => { h with live := [], fresh := ⟨T, h.live⟩ :: h.fresh }
  | .run _ => { h with fresh := [], moved := h.fresh ++ h.moved }

def history (es : List Event) : History := es.foldl History.record ⟨[], [], []⟩

/-- The rotated logs that a count at `now` is to see: the new ones, and those that
are no older than six days. -/
def History.recent (h : History) (offset now : ℤ) : List Segment :=
  h.fresh ++ h.moved.filter fun g ↦ now - 6 * 86400 ≤ g.T + offset

def Timed (offset : ℤ) : ℤ → ℤ → List Event → Prop
  | _, _, [] => True
  | last, ran, .append t :: es => '\x00' ∉ t ∧ Complete t ∧ Timed offset last ran es
  | last, ran, .rotate T :: es =>
    last < T ∧ InYears (localtime offset T) ∧ Timed offset T ran es
  | last, ran, .run now :: es => ran ≤ now ∧ InYears (gmtime now) ∧ Timed offset last now es

def label (offset : ℤ) : Event → Option Label
  | .append t => some (.append t)
  | .rotate T => (archive offset T).map .rotate
  | .run now => (strftime MAX_NAME_LEN stamp (gmtime (now - 3600 * 24 * 6))).map .run

def step (offset : ℤ) (s : State) (e : Event) : Option State :=
  (label offset e).bind (LogHistory.step s)

def Archived (offset : ℤ) (gs : List Segment) (n : FileName) (t : Text) : Prop :=
  ∃ g ∈ gs, archive offset g.T = some n ∧ g.text = t

/-- DAT_DIR and LOG_DIR as the history of the log makes them. -/
structure Refines (offset last ran : ℤ) (h : History) (s : State) : Prop where
  inv : Inv s
  live : s.dat.files.lookup serverLog = some h.live
  dat : ∀ n, n ≠ serverLog → ∀ t, s.dat.files.lookup n = some t ↔ Archived offset h.fresh n t
  log : ∀ n, n ≠ serverLog → ∀ t, s.log.files.lookup n = some t → Archived offset h.moved n t
  held : ∀ g ∈ h.moved, ran - 6 * 86400 ≤ g.T + offset → ∀ n, archive offset g.T = some n →
    s.log.files.lookup n = some g.text
  years : ∀ g ∈ h.fresh ++ h.moved, InYears (localtime offset g.T)
  order : (h.fresh ++ h.moved).Pairwise fun g g' ↦ g'.T < g.T
  last : ∀ g ∈ h.fresh ++ h.moved, g.T ≤ last
  used : ∀ n ∈ s.used, ∃ g ∈ h.fresh ++ h.moved, archive offset g.T = some n
  paths : s.dat.path.length + 24 < MAX_NAME_LEN ∧ s.log.path.length + 24 < MAX_NAME_LEN

section Names

variable {offset T U : ℤ} {n : FileName}

theorem archive_inj (hT : InYears (localtime offset T)) (hU : InYears (localtime offset U))
    (h : archive offset T = some n) (h' : archive offset U = some n) : T = U := by
  have hsame : expand (localtime offset T) stamp = expand (localtime offset U) stamp := by
    rw [← archive_text h, ← archive_text h']
  rcases lt_trichotomy T U with hlt | heq | hgt
  · have hlocal : T + offset < U + offset := by omega
    have hstamp := (stamp_lt_iff hT.fourDigits hU.fourDigits).mpr hlocal
    exact absurd (hsame ▸ hstamp) (List.lt_irrefl _)
  · exact heq
  · have hlocal : U + offset < T + offset := by omega
    have hstamp := (stamp_lt_iff hU.fourDigits hT.fourDigits).mpr hlocal
    exact absurd (hsame ▸ hstamp) (List.lt_irrefl _)

end Names

section Paths

variable {o : Opens} {org dst org' dst' : Folder} {c : Text} {r : ℤ} {n : FileName}

theorem movLog_path (h : movLog o (org, dst) n = some (org', dst')) :
    org'.path = org.path ∧ dst'.path = dst.path := by
  obtain ⟨_, -, h⟩ := Option.bind_eq_some_iff.mp h
  split at h
  · obtain ⟨rfl, rfl⟩ := Prod.mk.inj (Option.some.inj h)
    exact ⟨rfl, rfl⟩
  · split at h
    · obtain ⟨_, -, h⟩ := Option.bind_eq_some_iff.mp h
      obtain ⟨rfl, rfl⟩ := Prod.mk.inj (Option.some.inj h)
      exact ⟨rfl, rfl⟩
    · obtain ⟨rfl, rfl⟩ := Prod.mk.inj (Option.some.inj h)
      exact ⟨rfl, rfl⟩

theorem movLogs_path {ns : List FileName}
    (h : ns.foldlM (movLog o) (org, dst) = some (org', dst')) :
    org'.path = org.path ∧ dst'.path = dst.path := by
  induction ns generalizing org dst with
  | nil =>
    obtain ⟨rfl, rfl⟩ := Prod.mk.inj (Option.some.inj h)
    exact ⟨rfl, rfl⟩
  | cons n ns ih =>
    obtain ⟨⟨a, b⟩, hn, h⟩ := Option.bind_eq_some_iff.mp h
    obtain ⟨ha, hb⟩ := movLog_path hn
    obtain ⟨horg, hdst⟩ := ih h
    exact ⟨horg.trans ha, hdst.trans hb⟩

theorem movLogFile_path (h : movLogFile allOpen c org dst = some (r, org', dst')) :
    org'.path = org.path ∧ dst'.path = dst.path := by
  obtain ⟨hclosed, -⟩ | ⟨-, ⟨hclosed, -⟩ | ⟨-, hrun⟩⟩ := movLogFile_cases h
  · cases hclosed
  · cases hclosed
  · have hpath := movLogs_path hrun
    exact hpath

theorem fits_of_length {d : Folder} (hd : d.path.length + 24 < MAX_NAME_LEN)
    (hn : n.text.length ≤ 23) : d.fits n = true := by
  have hlength : (d.path ++ '/' :: n.text).length < MAX_NAME_LEN := by
    rw [List.length_append, List.length_cons]
    omega
  simp only [Folder.fits, sprintf, if_pos hlength]
  rfl

end Paths

section Steps

variable {offset last ran : ℤ} {h : History} {s : State}

theorem refines_init (offset last ran : ℤ) {dat log : Text} (hdat : dat.length + 24 < MAX_NAME_LEN)
    (hlog : log.length + 24 < MAX_NAME_LEN) :
    Refines offset last ran (history []) (init dat log) where
  inv := inv_init dat log
  live := AList.lookup_insert _
  dat n hn t := by
    constructor
    · intro h
      cases (AList.lookup_insert_ne hn).symm.trans h
    · rintro ⟨g, hg, -⟩
      cases hg
  log n hn t ht := by cases ht
  held g hg := by cases hg
  years g hg := by cases hg
  order := .nil
  last g hg := by cases hg
  used n hn := by cases hn
  paths := ⟨hdat, hlog⟩

theorem Refines.append (hr : Refines offset last ran h s) {t : Text} (hnul : '\x00' ∉ t)
    (ht : Complete t) : ∃ s', step offset s (.append t) = some s' ∧
      Refines offset last ran (h.record (.append t)) s' := by
  have hguard : guard ('\x00' ∉ t ∧ Complete t) = some () := if_pos ⟨hnul, ht⟩
  let s' : State := { s with
    dat := s.dat.write serverLog (h.live ++ t)
    appended := s.appended + records t }
  have hs' : LogHistory.step s (.append t) = some s' := by
    simp only [LogHistory.step, hguard, hr.live]
    rfl
  refine ⟨s', hs', hr.inv.append hs', lookup_write_self _, ?_, hr.log, hr.held, hr.years, hr.order,
    hr.last, hr.used, hr.paths⟩
  intro n hn u
  have hsame : s'.dat.files.lookup n = s.dat.files.lookup n := lookup_write_ne hn _
  rw [hsame]
  exact hr.dat n hn u

theorem Refines.unused (hr : Refines offset last ran h s) {T : ℤ} {n : FileName} (hlast : last < T)
    (hT : InYears (localtime offset T)) (hn : archive offset T = some n) : n ∉ s.used := by
  intro hused
  obtain ⟨g, hg, hname⟩ := hr.used n hused
  have hsame : g.T = T := archive_inj (hr.years g hg) hT hname hn
  have hle := hr.last g hg
  omega

theorem archived_cons {g : Segment} {gs : List Segment} {n : FileName} {t : Text} :
    Archived offset (g :: gs) n t ↔
      (archive offset g.T = some n ∧ g.text = t) ∨ Archived offset gs n t := by
  simp [Archived]

theorem Refines.rotate (hr : Refines offset last ran h s) {T : ℤ} (hlast : last < T)
    (hT : InYears (localtime offset T)) : ∃ s', step offset s (.rotate T) = some s' ∧
      Refines offset T ran (h.record (.rotate T)) s' := by
  obtain ⟨n, hn⟩ := archive_isSome hT.fourDigits
  have hserver : n ≠ serverLog := archive_ne_server hT hn
  have hunused : n ∉ s.used := hr.unused hlast hT hn
  have hfree : n ∉ s.dat.files := fun hm ↦ hunused (hr.inv.named n hserver (.inl hm))
  have hguard : guard (n ≠ serverLog ∧ n ∉ s.used) = some () := if_pos ⟨hserver, hunused⟩
  let files := (renameTo s.dat.files serverLog n).insert serverLog []
  let s' : State := { s with dat := { s.dat with files }, used := n :: s.used }
  have hs' : LogHistory.step s (.rotate n) = some s' := by
    simp only [LogHistory.step, hguard]
    rfl
  have hstep : step offset s (.rotate T) = some s' := by
    rw [step, label, hn]
    exact hs'
  have hlookup : ∀ m, m ≠ serverLog → files.lookup m =
      if m = n then some h.live else s.dat.files.lookup m := by
    intro m hm
    rw [AList.lookup_insert_ne hm, lookup_renameTo hfree, if_neg hm, hr.live]
  refine ⟨s', hstep, hr.inv.rotate hs', AList.lookup_insert _, ?_, hr.log, hr.held, ?_, ?_, ?_, ?_,
    hr.paths⟩
  · intro m hm t
    rw [show s'.dat.files.lookup m = _ from hlookup m hm]
    change _ ↔ Archived offset (⟨T, h.live⟩ :: h.fresh) m t
    rw [archived_cons, ← hr.dat m hm t, hn]
    rcases eq_or_ne m n with rfl | hmn
    · simp [AList.lookup_eq_none.mpr hfree]
    · simp [hmn, hmn.symm]
  · intro g hg
    rcases List.mem_cons.mp hg with rfl | hg
    · exact hT
    · exact hr.years g hg
  · exact List.pairwise_cons.mpr ⟨fun g hg ↦ (hr.last g hg).trans_lt hlast, hr.order⟩
  · intro g hg
    rcases List.mem_cons.mp hg with rfl | hg
    · exact le_rfl
    · exact (hr.last g hg).trans hlast.le
  · intro m hm
    rcases List.mem_cons.mp hm with rfl | hm
    · exact ⟨⟨T, h.live⟩, List.mem_cons_self, hn⟩
    · obtain ⟨g, hg, hname⟩ := hr.used m hm
      exact ⟨g, List.mem_cons_of_mem _ hg, hname⟩

theorem Refines.name_length (hr : Refines offset last ran h s) {n : FileName}
    (hn : n ∈ s.dat.files ∨ n ∈ s.log.files) : n.text.length ≤ 23 := by
  rcases eq_or_ne n serverLog with rfl | hserver
  · decide
  · obtain ⟨g, hg, hname⟩ := hr.used n (hr.inv.named n hserver hn)
    rw [archive_text hname]
    exact (length_stamp (hr.years g hg).fourDigits).le

theorem Refines.run_log (hr : Refines offset last ran h s) {now : ℤ} (hran : ran ≤ now)
    (hnow : InYears (gmtime now)) {t : State}
    (ht : LogHistory.step s (.run (expand (gmtime (now - 3600 * 24 * 6)) stamp)) = some t)
    {n : FileName} (hn : n ≠ serverLog) (u : Text) :
    t.log.files.lookup n = some u ↔ Archived offset (h.recent offset now) n u := by
  rw [(hr.inv.run_lookup ht n).2, Option.or_eq_some_iff]
  constructor
  · rintro (hdat | ⟨-, hlog⟩)
    · obtain ⟨g, hg, hname⟩ := (hr.dat n hn u).mp hdat
      exact ⟨g, List.mem_append_left _ hg, hname⟩
    · split at hlog
      · cases hlog
      · next hrecent =>
        obtain ⟨g, hg, hname, htext⟩ := hr.log n hn u hlog
        rw [archive_lt_cutoff_iff hnow (hr.years g (List.mem_append_right _ hg)) hname] at hrecent
        refine ⟨g, List.mem_append_right _ (List.mem_filter.mpr ⟨hg, ?_⟩), hname, htext⟩
        exact decide_eq_true (not_lt.mp hrecent)
  · rintro ⟨g, hg, hname, htext⟩
    rcases List.mem_append.mp hg with hg | hg
    · exact .inl ((hr.dat n hn u).mpr ⟨g, hg, hname, htext⟩)
    · obtain ⟨hg, hrecent⟩ := List.mem_filter.mp hg
      have hrecent := of_decide_eq_true hrecent
      have hyears := hr.years g (List.mem_append_right _ hg)
      have hkept : ¬ n.text < expand (gmtime (now - 3600 * 24 * 6)) stamp := by
        rw [archive_lt_cutoff_iff hnow hyears hname]
        omega
      refine .inr ⟨?_, ?_⟩
      · -- a new archive has another name
        cases hdat : s.dat.files.lookup n with
        | none => rfl
        | some v =>
          obtain ⟨g', hg', hname', -⟩ := (hr.dat n hn v).mp hdat
          have hsame : g'.T = g.T :=
            archive_inj (hr.years g' (List.mem_append_left _ hg')) hyears hname' hname
          have hlater := (List.pairwise_append.mp hr.order).2.2 g' hg' g hg
          omega
      · rw [if_neg hkept, ← htext]
        exact hr.held g hg (by omega) n hname

theorem archived_nil (n : FileName) (t : Text) : ¬ Archived offset [] n t := by
  rintro ⟨g, hg, -⟩
  cases hg

theorem Refines.run (hr : Refines offset last ran h s) {now : ℤ} (hran : ran ≤ now)
    (hnow : InYears (gmtime now)) : ∃ s', step offset s (.run now) = some s' ∧
      LogHistory.step s (.run (expand (gmtime (now - 3600 * 24 * 6)) stamp)) = some s' ∧
      Refines offset last now (h.record (.run now)) s' := by
  have hfits : ∀ n, n ∈ s.dat.files ∨ n ∈ s.log.files →
      s.dat.fits n = true ∧ s.log.fits n = true := by
    intro n hn
    have hlength := hr.name_length hn
    exact ⟨fits_of_length hr.paths.1 hlength, fits_of_length hr.paths.2 hlength⟩
  let c := expand (gmtime (now - 3600 * 24 * 6)) stamp
  obtain ⟨t, ht⟩ : ∃ t, LogHistory.step s (.run c) = some t := step_run_returns hfits
  have hcutoff : strftime MAX_NAME_LEN stamp (gmtime (now - 3600 * 24 * 6)) = some c := by
    apply strftime_eq
    rw [length_stamp (cutoff_fourDigits hnow)]
    decide
  have hstep : step offset s (.run now) = some t := by
    rw [step, label, hcutoff]
    exact ht
  have hlookup := hr.inv.run_lookup ht
  refine ⟨t, hstep, ht, hr.inv.run ht, ?_, ?_, ?_, ?_, hr.years, hr.order, hr.last, ?_, ?_⟩
  · rw [(hlookup serverLog).1, if_pos rfl]
    exact hr.live
  · intro n hn u
    rw [(hlookup n).1, if_neg hn]
    exact iff_of_false (by simp) (archived_nil n u)
  · intro n hn u hu
    obtain ⟨g, hg, hname⟩ := (hr.run_log hran hnow ht hn u).mp hu
    exact ⟨g, (List.filter_sublist.append_left h.fresh).subset hg, hname⟩
  · intro g hg hrecent n hname
    have hn : n ≠ serverLog := archive_ne_server (hr.years g hg) hname
    refine (hr.run_log hran hnow ht hn g.text).mpr ⟨g, ?_, hname, rfl⟩
    rcases List.mem_append.mp hg with hg | hg
    · exact List.mem_append_left _ hg
    · exact List.mem_append_right _ (List.mem_filter.mpr ⟨hg, decide_eq_true hrecent⟩)
  · rw [(step_run ht).1]
    exact hr.used
  · obtain ⟨⟨r, dat, log⟩, hmov, ht⟩ := Option.bind_eq_some_iff.mp ht
    obtain rfl := Option.some.inj ht
    obtain ⟨hdat, hlog⟩ := movLogFile_path hmov
    simp only [hdat, hlog]
    exact hr.paths

theorem Refines.exec (hr : Refines offset last ran h s) {es fs : List Event}
    (ht : Timed offset last ran (es ++ fs)) : ∃ s' last' ran', exec (step offset) s es = some s' ∧
      Refines offset last' ran' (es.foldl History.record h) s' ∧ Timed offset last' ran' fs := by
  induction es generalizing s h last ran with
  | nil => exact ⟨s, last, ran, rfl, hr, ht⟩
  | cons e es ih =>
    have hnext : ∃ s' last' ran', step offset s e = some s' ∧
        Refines offset last' ran' (h.record e) s' ∧ Timed offset last' ran' (es ++ fs) := by
      cases e with
      | append t =>
        obtain ⟨hnul, hcomplete, ht⟩ := ht
        obtain ⟨s', hs', hr'⟩ := hr.append hnul hcomplete
        exact ⟨s', last, ran, hs', hr', ht⟩
      | rotate T =>
        obtain ⟨hlast, hyears, ht⟩ := ht
        obtain ⟨s', hs', hr'⟩ := hr.rotate hlast hyears
        exact ⟨s', T, ran, hs', hr', ht⟩
      | run now =>
        obtain ⟨hran, hyears, ht⟩ := ht
        obtain ⟨s', hs', -, hr'⟩ := hr.run hran hyears
        exact ⟨s', last, now, hs', hr', ht⟩
    obtain ⟨s', last', ran', hs', hr', ht'⟩ := hnext
    obtain ⟨t, last'', ran'', hexec, hr'', ht''⟩ := ih hr' ht'
    exact ⟨t, last'', ran'', Option.bind_eq_some_iff.mpr ⟨s', hs', hexec⟩, hr'', ht''⟩

end Steps

section Window

variable {offset last ran : ℤ} {h : History} {s : State}

def History.window (h : History) (offset now : ℤ) : List Text :=
  h.live :: (h.recent offset now).map Segment.text

def name (offset : ℤ) (g : Segment) : FileName := (archive offset g.T).getD serverLog

theorem mem_of_recent {g : Segment} {now : ℤ} (hg : g ∈ h.recent offset now) :
    g ∈ h.fresh ++ h.moved :=
  (List.filter_sublist.append_left h.fresh).subset hg

theorem Refines.name_iff (hr : Refines offset last ran h s) {now : ℤ} {g : Segment}
    (hg : g ∈ h.recent offset now) {n : FileName} :
    name offset g = n ↔ archive offset g.T = some n := by
  obtain ⟨m, hm⟩ := archive_isSome (hr.years g (mem_of_recent hg)).fourDigits
  simp [name, hm]

theorem Refines.name_ne (hr : Refines offset last ran h s) {now : ℤ} {g : Segment}
    (hg : g ∈ h.recent offset now) : name offset g ≠ serverLog := by
  intro hserver
  exact archive_ne_server (hr.years g (mem_of_recent hg)) ((hr.name_iff hg).mp hserver) rfl

theorem Refines.names_nodup (hr : Refines offset last ran h s) (now : ℤ) :
    (serverLog :: (h.recent offset now).map (name offset)).Nodup := by
  rw [List.nodup_cons]
  constructor
  · intro hmem
    obtain ⟨g, hg, hserver⟩ := List.mem_map.mp hmem
    exact hr.name_ne hg hserver
  · rw [List.Nodup, List.pairwise_map]
    refine (hr.order.sublist (List.filter_sublist.append_left h.fresh)).imp_of_mem ?_
    intro g g' hg hg' hlt heq
    have hsame := archive_inj (hr.years g (mem_of_recent hg)) (hr.years g' (mem_of_recent hg'))
      ((hr.name_iff hg).mp heq) ((hr.name_iff hg').mp rfl)
    omega

theorem sum_records (ts : List Text) :
    (ts.map records).sum = ((ts.flatMap lines : List Text) : Multiset Text) := by
  induction ts with
  | nil => rfl
  | cons t ts ih =>
    rw [List.map_cons, List.sum_cons, ih, List.flatMap_cons, ← Multiset.coe_add]
    rfl

theorem Refines.run_total (hr : Refines offset last ran h s) {now : ℤ} (hran : ran ≤ now)
    (hnow : InYears (gmtime now)) {t : State}
    (ht : LogHistory.step s (.run (expand (gmtime (now - 3600 * 24 * 6)) stamp)) = some t) :
    total records t.log.files =
      (((h.window offset now).flatMap lines : List Text) : Multiset Text) := by
  let l := (serverLog, h.live) :: (h.recent offset now).map fun g ↦ (name offset g, g.text)
  have hfst : l.map Prod.fst = serverLog :: (h.recent offset now).map (name offset) := by
    simp [l]
  have hsnd : l.map (fun x ↦ records x.2) = (h.window offset now).map records := by
    simp [l, History.window]
  have hfiles : ∀ n u, t.log.files.lookup n = some u ↔ (n, u) ∈ l := by
    intro n u
    rw [List.mem_cons, List.mem_map]
    rcases eq_or_ne n serverLog with rfl | hn
    · rw [(hr.inv.run_lookup ht serverLog).2, hr.live, Option.some_or, Option.some.injEq]
      constructor
      · rintro rfl
        exact .inl rfl
      · rintro (heq | ⟨g, hg, heq⟩)
        · exact (Prod.mk.inj heq).2.symm
        · exact absurd (Prod.mk.inj heq).1 (hr.name_ne hg)
    · rw [hr.run_log hran hnow ht hn u]
      constructor
      · rintro ⟨g, hg, hname, rfl⟩
        exact .inr ⟨g, hg, by rw [(hr.name_iff hg).mpr hname]⟩
      · rintro (heq | ⟨g, hg, heq⟩)
        · exact absurd (Prod.mk.inj heq).1 hn
        · obtain ⟨hname, htext⟩ := Prod.mk.inj heq
          exact ⟨g, hg, (hr.name_iff hg).mp hname, htext⟩
  rw [total_of_lookup (hfst ▸ hr.names_nodup now) hfiles, hsnd, sum_records]

theorem Refines.counted (hr : Refines offset last ran h s) {now : ℤ} (hran : ran ≤ now)
    (hnow : InYears (gmtime now)) : ∃ t, step offset s (.run now) = some t ∧
      (lines (concat t.log) : Multiset Text) = ((h.window offset now).flatMap lines : List Text) ∧
      (countedIds allOpen t.log : Multiset Text) =
        (((h.window offset now).flatMap lines).flatMap songs : List Text) := by
  obtain ⟨t, hstep, ht, hr'⟩ := hr.run hran hnow
  have hlines : (lines (concat t.log) : Multiset Text) =
      ((h.window offset now).flatMap lines : List Text) := by
    rw [lines_concat hr'.inv.log_ok, hr.run_total hran hnow ht]
  refine ⟨t, hstep, hlines, ?_⟩
  rw [LogHistory.countedIds_eq hr'.inv.log_ok, ← Multiset.coe_bind, hlines, Multiset.coe_bind]

end Window

/-- Rotations at later and later instants never reuse a name, and counts at later and
later instants always return. A count at `now` finds the lines of the live log, of
the logs rotated since the count before it, and of those rotated in the last six
days by the clock of the names, each once, and just the songs of these lines. -/
theorem counts_window (offset start : ℤ) {dat log : Text} {es : List Event} {now : ℤ}
    (hdat : dat.length + 24 < MAX_NAME_LEN) (hlog : log.length + 24 < MAX_NAME_LEN)
    (h : Timed offset start start (es ++ [.run now])) :
    ∃ t, exec (step offset) (init dat log) (es ++ [.run now]) = some t ∧
      (lines (concat t.log) : Multiset Text) =
        (((history es).window offset now).flatMap lines : List Text) ∧
      (countedIds allOpen t.log : Multiset Text) =
        ((((history es).window offset now).flatMap lines).flatMap songs : List Text) := by
  obtain ⟨s, last, ran, hs, hr, hran, hnow, -⟩ := (refines_init offset start start hdat hlog).exec h
  obtain ⟨t, hstep, hlines, hids⟩ := hr.counted hran hnow
  refine ⟨t, ?_, hlines, hids⟩
  rw [exec_append hs]
  exact Option.bind_eq_some_iff.mpr ⟨t, hstep, rfl⟩

def twoRotations : List Event :=
  [.append "$$|7|a\n".toList, .rotate 1714031999, .run 1714032000, .append "$$|8|b\n".toList,
    .rotate 1714464000, .append "$$|9|c\n".toList]

theorem counts_window_twoRotations : ∃ t,
    exec (step 28800) (init "dat".toList "log".toList) (twoRotations ++ [.run 1714636800]) =
      some t ∧
    (countedIds allOpen t.log : Multiset Text) = ["9".toList, "8".toList] := by
  have htimed : Timed 28800 0 0 (twoRotations ++ [.run 1714636800]) :=
    ⟨by decide, by decide, by decide, ⟨by decide, by decide⟩, by decide, ⟨by decide, by decide⟩,
      by decide, by decide, by decide, ⟨by decide, by decide⟩, by decide, by decide, by decide,
      ⟨by decide, by decide⟩, trivial⟩
  obtain ⟨t, ht, -, hids⟩ := counts_window 28800 0 (show "dat".toList.length + 24 < _ by decide)
    (show "log".toList.length + 24 < _ by decide) htimed
  exact ⟨t, ht, hids.trans (by decide +kernel)⟩

end FingerMove.ProDeal.SlidingWindow
