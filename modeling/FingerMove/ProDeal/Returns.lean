import FingerMove.ProDeal.Counts
import FingerMove.ProDeal.Round

namespace FingerMove.ProDeal

open CText Directory Tally

section Calls

variable {d : Folder} {n : FileName} {t : Text}

theorem fopenR_of_lookup (hfits : d.fits n = true) (h : d.files.lookup n = some t) :
    d.fopenR true n = some (some t) := by
  rw [Folder.fopenR, if_pos hfits, if_pos rfl, h]

theorem fopenW_of_fits (hfits : d.fits n = true) : d.fopenW true n = some true := if_pos hfits

end Calls

section Loops

variable {limit count : ℕ} {es : List (Text × ℕ)}

theorem topLoop_returns {cnt : ℤ} (h : ∀ x ∈ es, Entry x ∧ x.1 ≠ [])
    (hfits : ∀ x ∈ es, (topText x).length < MAX_LINE_LEN) :
    ∃ out, topLoop limit cnt count (es.map countText) = some out := by
  induction es generalizing count with
  | nil => exact ⟨[], rfl⟩
  | cons x es ih =>
    obtain ⟨⟨hx, hne⟩, hes⟩ := List.forall_mem_cons.mp h
    obtain ⟨hlen, hlens⟩ := List.forall_mem_cons.mp hfits
    obtain ⟨out, hout⟩ : ∃ out, topLoop limit cnt (count + 1) (es.map countText) = some out :=
      ih hes hlens
    have hline : sprintf MAX_LINE_LEN (x.1 ++ ".afp\n".toList) = some (topText x) := if_pos hlen
    rw [List.map_cons, topLoop]
    by_cases hfull : limit ≤ count
    · exact ⟨[], if_pos hfull⟩
    · rw [if_neg hfull, hx.split hne]
      by_cases hlow : (x.2 : ℤ) ≤ cnt
      · exact ⟨[], if_pos hlow⟩
      · refine ⟨topText x :: out, (if_neg hlow).trans ?_⟩
        rw [hline, hout]
        rfl

theorem botSongs_returns {thr : ℤ} (h : ∀ x ∈ es, Entry x ∧ x.1 ≠ []) :
    ∃ r, botSongs limit count thr (es.map countText) = some r := by
  induction es generalizing count thr with
  | nil => exact ⟨([], thr), rfl⟩
  | cons x es ih =>
    obtain ⟨⟨hx, hne⟩, hes⟩ := List.forall_mem_cons.mp h
    obtain ⟨r, hr⟩ : ∃ r, botSongs limit (count + 1) (x.2 : ℤ) (es.map countText) = some r := ih hes
    rw [List.map_cons, botSongs]
    split
    · exact ⟨([], thr), rfl⟩
    · -- the line it writes is shorter than the one it has read
      have hlen : (x.1 ++ ['\n']).length < MAX_LINE_LEN := by
        have hfits := hx.fits
        simp only [countText, List.length_append, List.length_cons] at hfits ⊢
        omega
      have hline : sprintf MAX_LINE_LEN (x.1 ++ ['\n']) = some (x.1 ++ ['\n']) := if_pos hlen
      rw [hx.split hne, Option.bind_eq_bind, Option.bind_some]
      simp only [hline, hr]
      exact ⟨_, rfl⟩

end Loops

/-- The paths, lines and tallies of the first three stages stay within their
buffers and within `int`. -/
structure Within (afp logs wrk : Folder) : Prop where
  listing : logs.files.keys.all logs.fits = true
  paths : ∀ n ∈ [afpNameFile, logNumCount, fltLogsFile], wrk.fits n = true
  names : ∀ n ∈ afp.files.keys, (nameText n).length < MAX_LINE_LEN
  tallies : ∀ id ∈ countedIds allOpen logs, (countedIds allOpen logs).count id < 2 ^ 31 ∧
    (countText (id, (countedIds allOpen logs).count id)).length < MAX_LINE_LEN

section Rounds

variable {σ : Sorter (Text × ℕ)} {flg : ℤ} {afp logs wrk : Folder}

theorem Within.prepared (h : Within afp logs wrk) : ∃ p : Prepared σ flg afp logs wrk,
    p.counts = allOpen ∧ p.ready.path = wrk.path := by
  obtain ⟨hnamesFit, hcountsFit, hfilterFit⟩ : wrk.fits afpNameFile = true ∧
      wrk.fits logNumCount = true ∧ wrk.fits fltLogsFile = true := by simpa using h.paths
  obtain ⟨named, hnamed, hpath, hnames⟩ : ∃ named, getAfpName allOpen afp wrk = some (0, named) ∧
      named.path = wrk.path ∧ ∃ t, named.files.lookup afpNameFile = some t := by
    have hlines : (afp.files.keys.mapM fun n ↦ sprintf MAX_LINE_LEN (n.text ++ ['\n'])) =
        some (afp.files.keys.map nameText) := mapM_of_checked (fun _ ↦ rfl) h.names
    refine ⟨wrk.write afpNameFile (afp.files.keys.map nameText).flatten, ?_, rfl, _,
      lookup_write_self _⟩
    simp only [getAfpName, allOpen, fopenW_of_fits hnamesFit, hlines]
    rfl
  have hfits : named.fits = wrk.fits := Folder.fits_congr hpath
  obtain ⟨counted, hcounted, hpath', hnames', htallies⟩ : ∃ counted,
      cntSrhNums allOpen σ logs named flg = some (0, counted) ∧ counted.path = wrk.path ∧
        (∃ t, counted.files.lookup afpNameFile = some t) ∧
          ∃ t, counted.files.lookup logNumCount = some t := by
    refine ⟨_, cntSrhNums_eq_some_iff.mpr
      ⟨⟨rfl, rfl, hfits ▸ hcountsFit, h.listing, ?_⟩, rfl⟩, hpath, ?_, _, lookup_write_self _⟩
    · intro x hx
      obtain ⟨hid, hcount⟩ := mem_tally.mp hx
      have htally := h.tallies x.1 hid
      rwa [← hcount] at htally
    · rwa [lookup_write_ne (by decide)]
  have hfits' : counted.fits = wrk.fits := Folder.fits_congr hpath'
  obtain ⟨afps, hafps⟩ := hnames'
  obtain ⟨tallies, htallies⟩ := htallies
  rw [← hfits'] at hnamesFit hcountsFit hfilterFit
  have hready : fltLogFile allOpen counted counted =
      some (0, counted.write fltLogsFile (filtered afps tallies).flatten) := by
    simp only [fltLogFile, allOpen, fopenR_of_lookup hnamesFit hafps,
      fopenR_of_lookup hcountsFit htallies, fopenW_of_fits hfilterFit]
    rfl
  exact ⟨⟨allOpen, allOpen, allOpen, named, counted, _, hnamed, hcounted, hready⟩, rfl, hpath'⟩

theorem Within.top {GROUP_LIMIT : ℕ} {thr : ℤ} (h : Within afp logs wrk)
    (hn : ∀ n ∈ afp.files.keys, '\n' ∉ n.text) (hids : ∀ id ∈ countedIds allOpen logs, id ≠ [])
    (hfit : wrk.fits topAfpsFile = true) (hsongs : ∀ id ∈ countedIds allOpen logs,
      Prepared.Matched afp id → (id ++ ".afp\n".toList).length < MAX_LINE_LEN) :
    ∃ g : Top σ GROUP_LIMIT thr afp logs wrk, g.counts = allOpen := by
  obtain ⟨p, hp, hpath⟩ : ∃ p : Prepared σ 0 afp logs wrk,
    p.counts = allOpen ∧ p.ready.path = wrk.path := h.prepared
  have hpids : p.ids = countedIds allOpen logs := by rw [Prepared.ids, hp]
  have hfits : p.ready.fits = wrk.fits := Folder.fits_congr hpath
  have hflt : p.ready.fits fltLogsFile = true := hfits ▸ h.paths fltLogsFile (by simp)
  have hlist : p.ready.fits topAfpsFile = true := hfits ▸ hfit
  have hready := p.survivors_ready (hpids ▸ hids)
  obtain ⟨out, hout⟩ : ∃ out,
      topLoop GROUP_LIMIT thr 0 (p.survivors.map countText) = some out := by
    apply topLoop_returns hready
    intro x hx
    obtain ⟨hid, -, hmatched⟩ := p.mem_survivors.mp hx
    exact hsongs x.1 (hpids ▸ hid) hmatched
  have htop : topAfpFile allOpen GROUP_LIMIT p.ready p.ready thr =
      some ((out.length : ℤ), p.ready.write topAfpsFile out.flatten) := by
    simp only [topAfpFile, allOpen, fopenR_of_lookup hflt (p.spec hn).2, fopenW_of_fits hlist,
      Option.bind_eq_bind, Option.bind_some, p.reads_survivors, hout]
    rfl
  exact ⟨⟨p, allOpen, _, _, htop, by omega⟩, hp⟩

theorem Within.bottom {CACHE_LIMIT : ℕ} (h : Within afp logs wrk)
    (hn : ∀ n ∈ afp.files.keys, '\n' ∉ n.text) (hids : ∀ id ∈ countedIds allOpen logs, id ≠ [])
    (hfit : wrk.fits botAfpsFile = true) :
    ∃ b : Bottom σ CACHE_LIMIT afp logs wrk, b.counts = allOpen := by
  obtain ⟨p, hp, hpath⟩ : ∃ p : Prepared σ 1 afp logs wrk,
    p.counts = allOpen ∧ p.ready.path = wrk.path := h.prepared
  have hpids : p.ids = countedIds allOpen logs := by rw [Prepared.ids, hp]
  have hfits : p.ready.fits = wrk.fits := Folder.fits_congr hpath
  have hnames : p.ready.fits afpNameFile = true := hfits ▸ h.paths afpNameFile (by simp)
  have hflt : p.ready.fits fltLogsFile = true := hfits ▸ h.paths fltLogsFile (by simp)
  have hlist : p.ready.fits botAfpsFile = true := hfits ▸ hfit
  have hready := p.survivors_ready (hpids ▸ hids)
  let names := botNames CACHE_LIMIT (numbers (p.survivors.map countText).flatten) 0
    (reads MAX_LINE_LEN (afp.files.keys.map nameText).flatten)
  obtain ⟨⟨songs, thr⟩, hsongs⟩ : ∃ r,
      botSongs CACHE_LIMIT names.length 0 (p.survivors.map countText) = some r :=
    botSongs_returns hready
  have hthr : thr ≠ -1 := by
    obtain ⟨-, -, hlast⟩ := botSongs_entries hready hsongs
    rw [hlast]
    cases (p.survivors.take (CACHE_LIMIT - names.length)).getLast? with
    | none => decide
    | some x => exact (by omega : (x.2 : ℤ) ≠ -1)
  have hbottom : botAfpFile allOpen CACHE_LIMIT p.ready p.ready =
      some (thr, p.ready.write botAfpsFile (names ++ songs).flatten) := by
    obtain ⟨hlisted, hfiltered⟩ := p.spec hn
    simp only [botAfpFile, allOpen, fopenR_of_lookup hnames hlisted,
      fopenR_of_lookup hflt hfiltered, fopenW_of_fits hlist, Option.bind_eq_bind,
      Option.bind_some, p.reads_survivors]
    exact congrArg (fun r : Option (List Text × ℤ) ↦ r.bind fun a ↦
      some (a.2, p.ready.write botAfpsFile (names ++ a.1).flatten)) hsongs
  exact ⟨⟨p, allOpen, _, _, hbottom, hthr⟩, hp⟩

end Rounds

end FingerMove.ProDeal
