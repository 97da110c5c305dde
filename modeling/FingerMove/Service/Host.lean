import FingerMove.ProDeal.Moves

namespace FingerMove.Service

open CText Directory Tally ProDeal

inductive Status
  | ok
  | cancelled
  | unavailable
  deriving DecidableEq

structure Host where
  afp : Folder
  dat : Folder
  wrk : Folder
  org : Folder
  dst : Folder
  log : Folder

/-- What the stages of a round meet: the calls that open something, and the
name that a log of six days ago would have. -/
structure Round where
  names : Opens
  logs : Opens
  counts : Opens
  filter : Opens
  select : Opens
  mov : Opens
  cutoff : Text

variable (σ : Sorter (Text × ℕ))

/-- The stages that both kinds of round begin with; no result is looked at. -/
def gather (e : Round) (flg : ℤ) (h : Host) : Option Host := do
  let (_, wrk) ← getAfpName e.names h.afp h.wrk
  let (_, dat, log) ← movLogFile e.logs e.cutoff h.dat h.log
  let (_, wrk) ← cntSrhNums e.counts σ log wrk flg
  let (_, wrk) ← fltLogFile e.filter wrk wrk
  return { h with dat, log, wrk }

def preconf (GROUP_LIMIT : ℕ) (e : Round) (num : ℤ) (h : Host) : Option ((Status × ℤ) × Host) := do
  let h ← gather σ e 0 h
  let (count, wrk) ← topAfpFile e.select GROUP_LIMIT h.wrk h.wrk num
  let h := { h with wrk }
  if count ≤ 0 then return ((.cancelled, 0), h)
  -- the answer is OK whatever `movAfpFile` returns
  let (_, afp, org) ← movAfpFile e.mov h.afp h.org h.wrk
  return ((.ok, count), { h with afp, org })

variable {σ}

theorem gather_keeps {e : Round} {flg : ℤ} {h g : Host} (hg : gather σ e flg h = some g) :
    g.afp = h.afp ∧ g.org = h.org ∧ g.dst = h.dst := by
  simp only [gather, Option.bind_eq_bind, Option.bind_eq_some_iff, Option.pure_def,
    Option.some.injEq] at hg
  obtain ⟨_, _, _, _, _, _, _, _, rfl⟩ := hg
  exact ⟨rfl, rfl, rfl⟩

theorem preconf_ok {GROUP_LIMIT : ℕ} {e : Round} {num n : ℤ} {h h' : Host}
    (hp : preconf σ GROUP_LIMIT e num h = some ((.ok, n), h')) :
    ∃ g wrk r, gather σ e 0 h = some g ∧
      topAfpFile e.select GROUP_LIMIT g.wrk g.wrk num = some (n, wrk) ∧ 0 < n ∧
      movAfpFile e.mov h.afp h.org wrk = some (r, h'.afp, h'.org) := by
  simp only [preconf, Option.bind_eq_bind, Option.bind_eq_some_iff] at hp
  obtain ⟨g, hg, ⟨count, wrk⟩, htop, hp⟩ := hp
  split at hp
  · simp at hp
  · next hpos =>
    simp only [Option.bind_eq_some_iff, Option.pure_def, Option.some.injEq, Prod.mk.injEq,
      true_and] at hp
    obtain ⟨⟨r, afp, org⟩, hmov, rfl, rfl⟩ := hp
    obtain ⟨hafp, horg, -⟩ := gather_keeps hg
    rw [hafp, horg] at hmov
    exact ⟨g, wrk, r, hg, htop, not_le.mp hpos, hmov⟩

theorem preconf_keeps {GROUP_LIMIT : ℕ} {e : Round} {num n : ℤ} {st : Status} {h h' : Host}
    (hp : preconf σ GROUP_LIMIT e num h = some ((st, n), h')) (hst : st ≠ .ok) :
    h'.afp = h.afp ∧ h'.org = h.org := by
  simp only [preconf, Option.bind_eq_bind, Option.bind_eq_some_iff] at hp
  obtain ⟨g, hg, _, _, hp⟩ := hp
  obtain ⟨hafp, horg, -⟩ := gather_keeps hg
  split at hp
  · simp only [Option.pure_def, Option.some.injEq, Prod.mk.injEq] at hp
    obtain ⟨-, rfl⟩ := hp
    exact ⟨hafp, horg⟩
  · simp only [Option.bind_eq_some_iff, Option.pure_def, Option.some.injEq, Prod.mk.injEq] at hp
    obtain ⟨_, _, ⟨rfl, -⟩, -⟩ := hp
    exact absurd rfl hst

def emptyHost : Host where
  afp := .ofList "afp" []
  dat := .ofList "runlog" []
  wrk := .ofList "wrk" []
  org := .ofList "org" []
  dst := .ofList "dst" []
  log := .ofList "log" []

def quietRound : Round :=
  ⟨allOpen, allOpen, allOpen, allOpen, allOpen, allOpen, "2016-01-01".toList⟩

end FingerMove.Service
