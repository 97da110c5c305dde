import FingerMove.Service.Kept
import FingerMove.Service.Windows

namespace FingerMove.Service

open CText Directory Tally ProDeal Machine

variable {σ : Sorter (Text × ℕ)} {o : Opens} {org dst wrk org' dst' wrk' : Folder} {r : ℤ}

section Codes

/-- The return value `r` of a stage tells whether the calls in `P` succeeded. -/
def Code (P : Prop) (r : ℤ) : Prop := (P ∧ r = 0) ∨ (¬ P ∧ r = -1)

theorem Code.fails_iff {P : Prop} (h : Code P r) : r = -1 ↔ ¬ P := by
  rcases h with ⟨hp, rfl⟩ | ⟨hp, rfl⟩
  · simp [hp]
  · simp [hp]

theorem Code.eq_zero {P : Prop} (h : Code P r) (hp : P) : r = 0 := by
  rcases h with ⟨-, rfl⟩ | ⟨hnp, -⟩
  · rfl
  · exact absurd hp hnp

variable {α : Type*} {ok : Bool} {P : Prop}

theorem done_code {x y : α} (h : some ((0 : ℤ), x) = some (r, y)) : Code True r :=
  .inl ⟨trivial, (Prod.mk.inj (Option.some.inj h)).1.symm⟩

theorem call_code {x y : α} {k : Option (ℤ × α)}
    (h : (if !ok then some (-1, x) else k) = some (r, y)) (hk : k = some (r, y) → Code P r) :
    Code (ok = true ∧ P) r := by
  cases ok with
  | false => exact .inr ⟨by simp, (Prod.mk.inj (Option.some.inj h)).1.symm⟩
  | true => simpa using hk h

theorem write_code {d : Folder} {n : FileName} {k : Option (ℤ × Folder)}
    (h : ((d.fopenW ok n).bind fun b ↦ if !b then some (-1, dst) else k) = some (r, dst'))
    (hk : k = some (r, dst') → Code P r) : Code (ok = true ∧ P) r := by
  obtain ⟨b, hb, hcall⟩ := Option.bind_eq_some_iff.mp h
  obtain rfl := fopenW_eq_some hb
  exact call_code hcall hk

theorem read_code {d : Folder} {n : FileName} {t : Text} {k : Text → Option (ℤ × Folder)}
    (h : ((d.fopenR ok n).bind fun
      | some t => k t
      | _ => some (-1, dst)) = some (r, dst')) (ht : d.files.lookup n = some t)
    (hk : ∀ t, k t = some (r, dst') → Code P r) : Code (ok = true ∧ P) r := by
  obtain ⟨_ | u, hu, h⟩ := Option.bind_eq_some_iff.mp h
  · refine .inr ⟨?_, (Prod.mk.inj (Option.some.inj h)).1.symm⟩
    intro hopened
    simp [fopenR_none hu hopened.1] at ht
  · simpa [(fopenR_some hu).1] using hk u h

theorem getAfpName_code (h : getAfpName o org dst = some (r, dst')) :
    Code (o.call 0 = true ∧ o.call 1 = true ∧ True) r := by
  apply call_code h
  intro h
  apply write_code h
  intro h
  obtain ⟨_, -, h⟩ := Option.bind_eq_some_iff.mp h
  exact done_code h

theorem movLogFile_code {s : Text} (h : movLogFile o s org dst = some (r, org', dst')) :
    Code (o.call 0 = true ∧ o.call 1 = true ∧ True) r := by
  apply call_code h
  intro h
  obtain ⟨_, -, h⟩ := Option.bind_eq_some_iff.mp h
  apply call_code h
  intro h
  obtain ⟨_, -, h⟩ := Option.bind_eq_some_iff.mp h
  exact done_code h

theorem cntSrhNums_code {flg : ℤ} (h : cntSrhNums o σ org dst flg = some (r, dst')) :
    Code (o.call 0 = true ∧ o.call 1 = true ∧ True) r := by
  apply call_code h
  intro h
  apply write_code h
  intro h
  obtain ⟨_, -, h⟩ := Option.bind_eq_some_iff.mp h
  obtain ⟨_, -, h⟩ := Option.bind_eq_some_iff.mp h
  exact done_code h

theorem fltLogFile_code {afps logs : Text} (h : fltLogFile o org dst = some (r, dst'))
    (hafps : org.files.lookup afpNameFile = some afps)
    (hlogs : org.files.lookup logNumCount = some logs) :
    Code (o.call 0 = true ∧ o.call 1 = true ∧ o.call 2 = true ∧ True) r := by
  apply read_code h hafps
  intro _ h
  apply read_code h hlogs
  intro _ h
  apply write_code h
  intro h
  exact done_code h

end Codes

def Works (e : Round) : Prop :=
  (e.names.call 0 = true ∧ e.names.call 1 = true) ∧ (e.logs.call 0 = true ∧ e.logs.call 1 = true) ∧
    (e.counts.call 0 = true ∧ e.counts.call 1 = true) ∧
    e.filter.call 0 = true ∧ e.filter.call 1 = true ∧ e.filter.call 2 = true

/-- The stages of `gather` with what they return, which the code ignores. -/
def gatherCodes (σ : Sorter (Text × ℕ)) (e : Round) (flg : ℤ) (h : Host) :
    Option (List ℤ × Host) := do
  let (names, wrk) ← getAfpName e.names h.afp h.wrk
  let (logs, dat, log) ← movLogFile e.logs e.cutoff h.dat h.log
  let (counts, wrk) ← cntSrhNums e.counts σ log wrk flg
  let (filter, wrk) ← fltLogFile e.filter wrk wrk
  return ([names, logs, counts, filter], { h with dat, log, wrk })

theorem gather_eq_codes (e : Round) (flg : ℤ) (h : Host) :
    gather σ e flg h = (gatherCodes σ e flg h).map Prod.snd := by
  simp only [gather, gatherCodes, Option.map_eq_bind, Option.bind_eq_bind, Option.bind_assoc]
  rfl

theorem codes_iff {e : Round} {flg : ℤ} {h g : Host} {codes : List ℤ}
    (hg : gatherCodes σ e flg h = some (codes, g)) : -1 ∈ codes ↔ ¬ Works e := by
  obtain ⟨⟨names, named⟩, hnames, hg⟩ := Option.bind_eq_some_iff.mp hg
  obtain ⟨⟨logs, dat, log⟩, hlogs, hg⟩ := Option.bind_eq_some_iff.mp hg
  obtain ⟨⟨counts, counted⟩, hcounts, hg⟩ := Option.bind_eq_some_iff.mp hg
  obtain ⟨⟨filter, ready⟩, hfilter, hg⟩ := Option.bind_eq_some_iff.mp hg
  obtain ⟨rfl, rfl⟩ := Prod.mk.inj (Option.some.inj hg)
  have hn := getAfpName_code hnames
  have hl := movLogFile_code hlogs
  have hc := cntSrhNums_code hcounts
  simp only [and_true] at hn hl hc
  by_cases hfresh : (e.names.call 0 = true ∧ e.names.call 1 = true) ∧
      e.counts.call 0 = true ∧ e.counts.call 1 = true
  · rw [hn.eq_zero hfresh.1] at hnames
    rw [hc.eq_zero hfresh.2] at hcounts
    obtain ⟨hnamed, -⟩ := getAfpName_ok hnames
    obtain ⟨hcounted, -⟩ := cntSrhNums_ok hcounts
    have hafps : counted.files.lookup afpNameFile =
        some (h.afp.files.keys.map nameText).flatten := by
      rw [hcounted, lookup_write_ne (by decide), hnamed, lookup_write_self]
    have hf := fltLogFile_code hfilter hafps (hcounted ▸ lookup_write_self _)
    simp only [and_true] at hf
    simp only [List.mem_cons, List.not_mem_nil, or_false, eq_comm (a := (-1 : ℤ)), hn.fails_iff,
      hl.fails_iff, hc.fails_iff, hf.fails_iff]
    rw [← not_and_or, ← not_and_or, ← not_and_or, Works]
  · rcases not_and_or.mp hfresh with hfails | hfails
    · have hmem : -1 ∈ [names, logs, counts, filter] := by simp [hn.fails_iff.mpr hfails]
      exact iff_of_true hmem fun hworks ↦ hfails hworks.1
    · have hmem : -1 ∈ [names, logs, counts, filter] := by simp [hc.fails_iff.mpr hfails]
      exact iff_of_true hmem fun hworks ↦ hfails hworks.2.2.1

section Groups

variable {GROUP_LIMIT : ℕ} {e : Round} {num n : ℤ} {h h' g : Host}

theorem topAfpFile_pos_iff (htop : topAfpFile o GROUP_LIMIT g.wrk g.wrk num = some (n, wrk)) :
    0 < n ↔ o.call 0 = true ∧ o.call 1 = true ∧
      offered GROUP_LIMIT num (filteredLines g.wrk) ≠ [] := by
  by_cases hn : n = -1
  · subst hn
    refine iff_of_false (by decide) ?_
    intro hall
    obtain ⟨h0, h1, hsome⟩ := hall
    obtain ⟨_ | logs, hread, htop⟩ := Option.bind_eq_some_iff.mp htop
    · apply hsome
      rw [filteredLines, fopenR_none hread h0]
      simp [offered, reads_nil]
    · obtain ⟨b, hb, htop⟩ := Option.bind_eq_some_iff.mp htop
      obtain rfl := fopenW_eq_some hb
      simp only [h1, Bool.not_true, Bool.false_eq_true, if_false] at htop
      obtain ⟨out, -, htop⟩ := Option.bind_eq_some_iff.mp htop
      exact absurd (Prod.mk.inj (Option.some.inj htop)).1 (by omega)
  · obtain ⟨hcount, -⟩ := topAfpFile_offered htop hn
    obtain ⟨logs, hread, htop⟩ := Option.bind_eq_some_iff.mp htop
    cases logs with
    | none => exact absurd (Prod.mk.inj (Option.some.inj htop)).1.symm hn
    | some logs =>
      obtain ⟨b, hb, htop⟩ := Option.bind_eq_some_iff.mp htop
      obtain rfl := fopenW_eq_some hb
      simp [(fopenR_some hread).1, call_opened htop hn, hcount, List.length_pos_iff]

theorem preconf_status (hg : gather σ e 0 h = some g)
    (htop : topAfpFile e.select GROUP_LIMIT g.wrk g.wrk num = some (n, wrk)) {st : Status} {m : ℤ}
    (hp : preconf σ GROUP_LIMIT e num h = some ((st, m), h')) :
    (0 < n ∧ st = .ok) ∨ (n ≤ 0 ∧ st = .cancelled ∧ h'.afp = h.afp) := by
  simp only [preconf, hg, htop, Option.bind_eq_bind, Option.bind_some] at hp
  split at hp
  · next hle =>
    simp only [Option.pure_def, Option.some.injEq, Prod.mk.injEq] at hp
    obtain ⟨⟨rfl, -⟩, rfl⟩ := hp
    exact .inr ⟨hle, rfl, (gather_keeps hg).1⟩
  · next hgt =>
    obtain ⟨_, -, hp⟩ := Option.bind_eq_some_iff.mp hp
    obtain ⟨rfl, -⟩ := Prod.mk.inj (Prod.mk.inj (Option.some.inj hp)).1
    exact .inl ⟨not_le.mp hgt, rfl⟩

end Groups

/-- A failed stage moves nothing in a group exactly when none of the four stages fails that
both kinds of round begin with, or what is selected after it is nothing; and on the main
cache if none of the four fails, or no visit of the round takes a file of AFP_DIR. -/
theorem failed_stage_moves_nothing (σ : Sorter (Text × ℕ)) (e : Round) :
    (∀ {GROUP_LIMIT : ℕ} {num n m : ℤ} {h g h' : Host} {codes : List ℤ} {wrk : Folder}
        {st : Status},
      gatherCodes σ e 0 h = some (codes, g) →
      topAfpFile e.select GROUP_LIMIT g.wrk g.wrk num = some (n, wrk) →
      preconf σ GROUP_LIMIT e num h = some ((st, m), h') →
      ((-1 ∈ n :: codes → st = .cancelled ∧ h'.afp = h.afp) ↔
        Works e ∨ e.select.call 0 = false ∨ e.select.call 1 = false ∨
          offered GROUP_LIMIT num (filteredLines g.wrk) = [])) ∧
    ∀ {δ : Type} [DecidableEq δ] [Fintype δ] {c : Config} {dat : Dir FileName Text}
      {list : List (Text × Text)} {l l' : Resolved.Loop δ} {g u : Resolved.FileSystem δ}
      {codes : List ℤ} {thr : ℤ} {es : List Resolved.Label},
      Resolved.Apart c l.files →
      Resolved.gatherCodes σ c e 1 (l.files.setFiles c.DAT_DIR dat) = some (codes, g) →
      Resolved.botAfpFile c e g = some (thr, u) →
      Resolved.step σ c l (.round true e dat list) = some l' →
      (∀ a ∈ es, Resolved.NoRound a) →
      (-1 ∉ codes ∨ EachStep (Resolved.step σ c) (Resolved.Quiet c) l' es) →
      -1 ∈ thr :: codes →
        Always (Resolved.step σ c) (fun t ↦ Resolved.Kept c l.files t.files) l
          (.round true e dat list :: es) := by
  constructor
  · intro GROUP_LIMIT num n m h g h' codes wrk st hg htop hp
    have hgather : gather σ e 0 h = some g := by rw [gather_eq_codes, hg, Option.map_some]
    have hpos := topAfpFile_pos_iff htop
    have hcodes := codes_iff hg
    rcases preconf_status hgather htop hp with ⟨hn, rfl⟩ | ⟨hn, rfl, hafp⟩
    · obtain ⟨h0, h1, hsome⟩ := hpos.mp hn
      have hne : n ≠ -1 := by omega
      simp [hne.symm, hcodes, h0, h1, hsome]
    · refine iff_of_true (fun _ ↦ ⟨rfl, hafp⟩) ?_
      by_contra hnone
      simp only [not_or, Bool.not_eq_false] at hnone
      exact not_lt.mpr hn (hpos.mpr hnone.2)
  · intro δ _ _ c dat list l l' g u codes thr es hapart hg hbot hround hes hquiet hfail
    exact Resolved.failed_round_keeps hapart hg hbot hround hes hquiet hfail

def shut : Opens := ⟨fun _ ↦ false, fun _ ↦ true⟩

def staleHost : Host where
  afp := .ofList "afp" [("5.afp", "x")]
  dat := .ofList "runlog" []
  wrk := .ofList "wrk" [("fltLogsFile.tmp", "5|9\n"), ("afpNameFile.tmp", "5.afp\n")]
  org := .ofList "org" []
  dst := .ofList "dst" []
  log := .ofList "log" []

def noFilter : Round := ⟨allOpen, allOpen, allOpen, shut, allOpen, allOpen, []⟩

def noNames : Round := ⟨shut, allOpen, allOpen, allOpen, allOpen, allOpen, []⟩

def goneLoop : Resolved.Loop (Fin 6) where
  files := Resolved.hostFiles [("5.afp", ['x'])] [] [("afpNameFile.tmp", "7.afp\n".toList)]
  pc := .waiting

theorem goneLoop_quiet : ∃ l', Resolved.step (insertion _) Resolved.dirs goneLoop
      (.round true noNames ∅ [([], [])]) = some l' ∧
    EachStep (Resolved.step (insertion _) Resolved.dirs) (Resolved.Quiet Resolved.dirs) l'
      [.visit (Rounds.visitOf "g1" 1)] := by
  obtain ⟨u, hround, hafp, horg, hbots, hsource, hstart, hnode⟩ : ∃ u,
      Resolved.step (insertion _) Resolved.dirs goneLoop (.round true noNames ∅ [([], [])]) =
        some ⟨u, .groups [([], [])] 0⟩ ∧
      u.resolve Resolved.dirs.AFP_DIR = some 1 ∧
      u.opendir Resolved.dirs.ORG_DIR = some 4 ∧
      ((u.clear 4).read Resolved.dirs.WRK_DIR botAfpsFile) = some "7.afp\n".toList ∧
      ((u.clear 4).tree.lead ((u.clear 4).path "afp/7.afp".toList)) =
        some (1, .ofC "7.afp".toList) ∧
      (u.path (Resolved.dirs.AFP_DIR ++ ['/'])).start = 0 ∧
      (u.clear 4).tree.node (1, .ofC "7.afp".toList) = none := by
    refine ⟨_, rfl, ?_, ?_, ?_, ?_, ?_, rfl⟩ <;> decide +kernel
  refine ⟨_, hround, fun t _ ↦ ⟨?_, trivial⟩⟩
  intro r list lineCount o hr hpc _ ho
  obtain rfl := Option.some.inj hr
  obtain ⟨-, rfl⟩ := Resolved.Pc.groups.inj hpc
  obtain rfl := Option.some.inj (horg.symm.trans ho)
  refine ⟨⟨by rw [hafp]; decide, ?_⟩, fun _ bots names hread hnames ↦ ?_⟩
  · rw [Resolved.Leads, hstart,
      show Resolved.comps Resolved.dirs.AFP_DIR = [.name (.ofC "afp".toList)] by decide +kernel]
    exact ⟨nofun, fun _ _ ↦ trivial⟩
  · obtain rfl := Option.some.inj (hbots.symm.trans hread)
    obtain rfl : [.ofC "7.afp".toList] = names := Option.some.inj hnames
    have hnone : ∀ {p : Fin 6 × FileName} {x}, (u.clear 4).tree.lead
        ((u.clear 4).path "afp/7.afp".toList) = some p →
          (u.clear 4).tree.node p ≠ some x := by
      intro p x hp
      obtain rfl := Option.some.inj (hsource.symm.trans hp)
      rw [hnode]
      nofun
    refine fun t _ ↦ ⟨⟨?_, ?_⟩, trivial⟩
    · intro p q x hmoves
      exact absurd hmoves.file (hnone hmoves.source)
    · intro p q d hmoves
      exact absurd hmoves.dir (hnone hmoves.source)

theorem failed_stage_moves_nothing_noFilter :
    (∃ g h', gatherCodes (insertion _) noFilter 0 staleHost = some ([0, 0, 0, -1], g) ∧
      preconf (insertion _) 5 noFilter 0 staleHost = some ((.ok, 1), h') ∧
      ((-1 ∈ (1 : ℤ) :: [0, 0, 0, -1] → Status.ok = .cancelled ∧ h'.afp = staleHost.afp) ↔
        Works noFilter ∨ noFilter.select.call 0 = false ∨ noFilter.select.call 1 = false ∨
          offered 5 0 (filteredLines g.wrk) = [])) ∧
    ∃ g, Resolved.gatherCodes (insertion _) Resolved.dirs noNames 1
        (goneLoop.files.setFiles "runlog".toList ∅) = some ([-1, 0, 0, 0], g) ∧
      Always (Resolved.step (insertion _) Resolved.dirs)
        (fun t ↦ Resolved.Kept Resolved.dirs goneLoop.files t.files) goneLoop
        [.round true noNames ∅ [([], [])], .visit (Rounds.visitOf "g1" 1)] := by
  obtain ⟨g, hg⟩ : ∃ g, gatherCodes (insertion _) noFilter 0 staleHost =
    some ([0, 0, 0, -1], g) := ⟨_, rfl⟩
  obtain ⟨h', hp⟩ : ∃ h', preconf (insertion _) 5 noFilter 0 staleHost =
    some ((.ok, 1), h') := ⟨_, rfl⟩
  obtain ⟨wrk, htop⟩ : ∃ wrk, topAfpFile noFilter.select 5 g.wrk g.wrk 0 = some (1, wrk) := by
    obtain ⟨-, rfl⟩ := Prod.mk.inj (Option.some.inj hg)
    exact ⟨_, rfl⟩
  obtain ⟨u, hu, v, hv⟩ : ∃ u, Resolved.gatherCodes (insertion _) Resolved.dirs noNames 1
        (goneLoop.files.setFiles "runlog".toList ∅) = some ([-1, 0, 0, 0], u) ∧
      ∃ v, Resolved.botAfpFile Resolved.dirs noNames u = some (0, v) := ⟨_, rfl, _, rfl⟩
  obtain ⟨l', hround, hquiet⟩ := goneLoop_quiet
  have hapart : Resolved.Apart Resolved.dirs goneLoop.files := by
    unfold Resolved.Apart
    decide +kernel
  refine ⟨⟨g, h', hg, hp, (failed_stage_moves_nothing _ noFilter).1 hg htop hp⟩, u, hu, ?_⟩
  exact (failed_stage_moves_nothing _ noNames).2 hapart hu hv hround
    (by simp [Resolved.NoRound]) (.inr hquiet) (by decide)

def staleLoop : Resolved.Loop (Fin 6) where
  files := Resolved.hostFiles [("5.afp", ['x'])] []
    [("fltLogsFile.tmp", "5|9\n".toList), ("afpNameFile.tmp", "5.afp\n".toList)]
  pc := .waiting

/-- `fltLogFile` fails, and the tallies of an earlier round decide which file a
group gives away; `getAfpName` fails, and an earlier listing does so on the main
cache. -/
theorem stale_files_select :
    (∃ g h', gatherCodes (insertion _) noFilter 0 staleHost = some ([0, 0, 0, -1], g) ∧
      preconf (insertion _) 5 noFilter 0 staleHost = some ((.ok, 1), h') ∧
      h'.afp.files ≠ staleHost.afp.files) ∧
    ∃ g l', Resolved.gatherCodes (insertion _) Resolved.dirs noNames 1
        (staleLoop.files.setFiles "runlog".toList ∅) = some ([-1, 0, 0, 0], g) ∧
      Resolved.step (insertion _) Resolved.dirs staleLoop
        (.round true noNames ∅ [([], [])]) = some l' ∧
      ¬ Always (Resolved.step (insertion _) Resolved.dirs)
        (fun t ↦ Resolved.Kept Resolved.dirs staleLoop.files t.files) l'
        [.visit (Rounds.visitOf "g1" 1)] := by
  have hgone : ∀ {d : Dir FileName Text},
      d.lookup (.ofC "5.afp".toList) = none → d ≠ staleHost.afp.files := by
    rintro d hd rfl
    exact absurd hd (by decide)
  refine ⟨⟨_, _, rfl, rfl, hgone rfl⟩, _, _, rfl, rfl, ?_⟩
  intro h
  have hkept := h.2 _ rfl (.ofC "5.afp".toList) ['x'] (by decide +kernel)
  exact absurd hkept (by decide +kernel)

end FingerMove.Service
