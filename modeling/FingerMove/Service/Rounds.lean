import FingerMove.Service.Evict
import FingerMove.Service.RunLoop

namespace FingerMove.Service.Rounds

open CText Directory Tally ProDeal Function Machine RunLoop Evict

/-- What a line of the group list meets: its move address, what its `Preconf`
answers, and what can be opened and what arrives while it is served. -/
structure Visit where
  addr : Text
  result : Option ℤ
  mov : Opens
  listed : Bool
  parcels : FileName → Parcel

structure Day where
  opened : Bool
  round : Round
  dat : Folder
  visits : List Visit

variable (σ : Sorter (Text × ℕ)) (CACHE_LIMIT : ℕ) (g_sublist : List Text)

def visit (sl : RunLoop.State × ℤ) (v : Visit) : Option (RunLoop.State × ℤ) := do
  let (s, lineCount) := sl
  let some result := v.result | return (s, lineCount)
  let (_, afp, org) ← movCntFile v.mov s.host.afp s.host.org s.host.wrk lineCount result
  let (_, p) ← afpMove g_sublist v.parcels org v.listed ⟨s.group v.addr, s.sub, []⟩
  return ({ s with
    host := { s.host with afp, org }
    group := update s.group v.addr p.group
    sub := p.sub }, lineCount + result)

def round (s : RunLoop.State) (d : Day) : Option RunLoop.State := do
  if !d.opened then return s
  let (thr, host) ← prepare σ CACHE_LIMIT d.round d.dat s.host
  if thr = -1 then return { s with host }
  let (s, _) ← d.visits.foldlM (visit g_sublist) ({ s with host }, 0)
  return s

def rounds (days : List Day) (s : RunLoop.State) : Option RunLoop.State :=
  days.foldlM (round σ CACHE_LIMIT g_sublist) s

variable {σ CACHE_LIMIT g_sublist} {s t : RunLoop.State}

theorem rounds_eq_exec (days : List Day) (s : RunLoop.State) :
    rounds σ CACHE_LIMIT g_sublist days s = exec (round σ CACHE_LIMIT g_sublist) s days := by
  unfold rounds
  induction days generalizing s with
  | nil => rfl
  | cons d days ih => exact congrArg _ (funext ih)

theorem moveFiles_exec (host : Host) (group : Text → GroupServer) (addr : Text)
    (list : List (Text × Text)) (lineCount : ℤ) {parcels : FileName → Parcel}
    {fs : List FileName} {p p' : Progress}
    (h : moveFiles g_sublist parcels host.org fs p = some p') :
    exec (step σ CACHE_LIMIT g_sublist)
      ⟨host, update group addr p.group, p.sub, .moving addr fs list lineCount⟩
      (fs.map fun f ↦ .transfer (parcels f)) =
        some ⟨host, update group addr p'.group, p'.sub, .moving addr [] list lineCount⟩ := by
  induction fs generalizing p with
  | nil =>
    obtain rfl := Option.some.inj h
    rfl
  | cons f fs ih =>
    obtain ⟨q, hq, h⟩ := Option.bind_eq_some_iff.mp h
    replace hq : moveFile g_sublist host.org (parcels f) f p = some q := hq
    have hfile : McMoveClient.afpMoveFile g_sublist (parcels f) host.org f (p.group, p.sub) = _ :=
      afpMoveFile_eq (parcels f) f p
    rw [hq, Option.map_some] at hfile
    have hstep : step σ CACHE_LIMIT g_sublist
        ⟨host, update group addr p.group, p.sub, .moving addr (f :: fs) list lineCount⟩
        (.transfer (parcels f)) =
          some ⟨host, update group addr q.group, q.sub, .moving addr fs list lineCount⟩ := by
      simp only [step, update_self, hfile, update_idem]
      rfl
    rw [List.map_cons, exec, hstep]
    exact ih h

theorem visit_failed {v : Visit} {n : ℤ} (hv : v.result = none) :
    visit g_sublist (s, n) v = some (s, n) := by
  simp [visit, hv]

theorem visit_pc {v : Visit} {n m : ℤ} (h : visit g_sublist (s, n) v = some (t, m)) :
    t.pc = s.pc := by
  unfold visit at h
  cases hresult : v.result with
  | none =>
    rw [hresult] at h
    obtain ⟨rfl, -⟩ := Prod.mk.inj (Option.some.inj h)
    rfl
  | some result =>
    rw [hresult] at h
    obtain ⟨_, -, h⟩ := Option.bind_eq_some_iff.mp h
    obtain ⟨_, -, h⟩ := Option.bind_eq_some_iff.mp h
    obtain ⟨rfl, -⟩ := Prod.mk.inj (Option.some.inj h)
    rfl

theorem visit_exec {v : Visit} {n m : ℤ} {conf : Text} {list : List (Text × Text)}
    (h : visit g_sublist (s, n) v = some (t, m)) : ∃ es, exec (step σ CACHE_LIMIT g_sublist)
      { s with pc := .groups ((conf, v.addr) :: list) n } es =
        some { t with pc := .groups list m } := by
  unfold visit at h
  cases hresult : v.result with
  | none =>
    rw [hresult] at h
    obtain ⟨rfl, rfl⟩ := Prod.mk.inj (Option.some.inj h)
    exact ⟨[.preconf none v.mov v.listed], rfl⟩
  | some result =>
    rw [hresult] at h
    obtain ⟨⟨r, afp, org⟩, hmov, h⟩ := Option.bind_eq_some_iff.mp h
    obtain ⟨⟨r', p⟩, hmove, h⟩ := Option.bind_eq_some_iff.mp h
    obtain ⟨rfl, rfl⟩ := Prod.mk.inj (Option.some.inj h)
    cases hlisted : v.listed with
    | false =>
      rw [hlisted] at hmove
      obtain ⟨-, rfl⟩ := Prod.mk.inj (Option.some.inj hmove)
      refine ⟨[.preconf (some result) v.mov false], ?_⟩
      rw [update_eq_self]
      simp only [exec, step, hmov]
      rfl
    | true =>
      rw [hlisted] at hmove
      obtain ⟨q, hq, hmove⟩ := Option.bind_eq_some_iff.mp hmove
      obtain ⟨-, rfl⟩ := Prod.mk.inj (Option.some.inj hmove)
      have hpreconf : step σ CACHE_LIMIT g_sublist
          { s with pc := .groups ((conf, v.addr) :: list) n } (.preconf (some result) v.mov true) =
            some { s with
              host := { s.host with afp, org }
              pc := .moving v.addr org.files.keys list (n + result) } := by
        simp only [step, hmov]
        rfl
      have hmoves : exec (step σ CACHE_LIMIT g_sublist) _ _ = _ :=
        moveFiles_exec { s.host with afp, org } s.group v.addr list (n + result) hq
      rw [update_eq_self] at hmoves
      refine ⟨.preconf (some result) v.mov true ::
        ((org.files.keys.map fun f ↦ .transfer (v.parcels f)) ++ [.next]), ?_⟩
      rw [exec, hpreconf, Option.bind_some, exec_append hmoves]
      rfl

theorem visits_exec {visits : List Visit} {n m : ℤ}
    (h : visits.foldlM (visit g_sublist) (s, n) = some (t, m)) : t.pc = s.pc ∧
      ∃ es, exec (step σ CACHE_LIMIT g_sublist)
        { s with pc := .groups (visits.map fun v ↦ ([], v.addr)) n } es =
          some { t with pc := .groups [] m } := by
  induction visits generalizing s n with
  | nil =>
    obtain ⟨rfl, rfl⟩ := Prod.mk.inj (Option.some.inj h)
    exact ⟨rfl, [], rfl⟩
  | cons v visits ih =>
    obtain ⟨⟨u, k⟩, hv, h⟩ := Option.bind_eq_some_iff.mp h
    obtain ⟨hpc, fs, hfs⟩ := ih h
    obtain ⟨es, hes⟩ : ∃ es, exec (step σ CACHE_LIMIT g_sublist)
        { s with pc := .groups (([], v.addr) :: visits.map fun v ↦ ([], v.addr)) n } es =
          some { u with pc := .groups (visits.map fun v ↦ ([], v.addr)) k } := visit_exec hv
    refine ⟨hpc.trans (visit_pc hv), es ++ fs, ?_⟩
    rw [List.map_cons, exec_append hes, hfs]

/-- A round is a run of `step`. -/
theorem round_exec {d : Day} (hs : s.pc = .waiting)
    (h : round σ CACHE_LIMIT g_sublist s d = some t) :
    t.pc = .waiting ∧ ∃ es, exec (step σ CACHE_LIMIT g_sublist) s es = some t := by
  unfold round at h
  cases hopened : d.opened with
  | false =>
    rw [hopened] at h
    obtain rfl := Option.some.inj h
    exact ⟨hs, [], rfl⟩
  | true =>
    rw [hopened] at h
    obtain ⟨⟨thr, host⟩, hprepare, h⟩ := Option.bind_eq_some_iff.mp h
    have hround : step σ CACHE_LIMIT g_sublist s
        (.round true d.round d.dat (d.visits.map fun v ↦ ([], v.addr))) =
          if thr = -1 then some { s with host } else
            some { s with host, pc := .groups (d.visits.map fun v ↦ ([], v.addr)) 0 } := by
      simp only [step, hs, hprepare]
      rfl
    by_cases hthr : thr = -1
    · simp only [hthr, if_true] at h
      obtain rfl := Option.some.inj h
      refine ⟨hs, [.round true d.round d.dat (d.visits.map fun v ↦ ([], v.addr))], ?_⟩
      rw [exec, hround, if_pos hthr]
      rfl
    · simp only [hthr, if_false] at h
      obtain ⟨⟨u, m⟩, hvisits, h⟩ := Option.bind_eq_some_iff.mp h
      obtain rfl := Option.some.inj h
      obtain ⟨hpc, es, hes⟩ : u.pc = s.pc ∧ ∃ es, exec (step σ CACHE_LIMIT g_sublist)
          { s with host, pc := .groups (d.visits.map fun v ↦ ([], v.addr)) 0 } es =
            some { u with pc := .groups [] m } := visits_exec hvisits
      have hwaiting : { u with pc := .waiting } = u := by rw [← hs, ← hpc]
      refine ⟨hpc.trans hs, .round true d.round d.dat (d.visits.map fun v ↦ ([], v.addr)) ::
        (es ++ [.next]), ?_⟩
      rw [exec, hround, if_neg hthr, Option.bind_some, exec_append hes, ← hwaiting]
      rfl

end FingerMove.Service.Rounds
