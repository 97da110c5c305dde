import Mathlib.Data.Finset.Lattice.Fold
import Mathlib.Order.Lattice.Nat
import FingerMove.ProDeal.Handles
import FingerMove.Service.Rounds

namespace FingerMove.Service.Leaks

open CText Directory Tally ProDeal Handle Function

variable {η : Type} [DecidableEq η] (A : Allocator η)

def readFinger (opened : Bool) (org : Folder) (f : FileName) : Prog η (Option FingerValue) := do
  let some (fop, val) ← Handles.fopenR A org opened f | return none
  guard (val.length < 2 ^ 31)
  release fop
  return some ⟨f.text, val, val.length⟩

/-- The loop of both clients; the directory is never closed. -/
def forFiles {α : Type} (listed : Bool) (org : Folder) (send : α → FileName → Prog η α) (s : α) :
    Prog η (ℤ × α) := do
  let some _ ← tryOpen A listed | return (-1, s)
  let s ← org.files.keys.foldlM send s
  return (0, s)

namespace GrMoveClient

def afpMoveFile (g_sublist : List Text) (x : Upload) (org : Folder) (f : FileName)
    (s : Replicas) : Prog η Replicas := do
  let some req ← readFinger A x.opened org f | return s
  let (_, s) ← liftM (x.send.call (McServer.afpmove g_sublist x.turns req) s)
  return s

def afpMove (g_sublist : List Text) (uploads : FileName → Upload) (org : Folder)
    (listed : Bool) (s : Replicas) : Prog η (ℤ × Replicas) :=
  forFiles A listed org (fun s f ↦ afpMoveFile A g_sublist (uploads f) org f s) s

end GrMoveClient

namespace McMoveClient

def moveFile (g_sublist : List Text) (x : Parcel) (org : Folder) (f : FileName)
    (p : Evict.Progress) : Prog η Evict.Progress := do
  let some req ← readFinger A x.opened org f | return p
  let (status, group) ← liftM (x.send.call (GroupServer.afpmove x.stored req) p.group)
  let sub ← liftM (McMoveClient.appDels x.dels f.text 0 g_sublist p.sub)
  return ⟨group, sub, if status = .ok then f :: p.acks else p.acks⟩

def afpMove (g_sublist : List Text) (parcels : FileName → Parcel) (org : Folder) (listed : Bool)
    (p : Evict.Progress) : Prog η (ℤ × Evict.Progress) :=
  forFiles A listed org (fun p f ↦ moveFile A g_sublist (parcels f) org f p) p

end McMoveClient

section RunLoop

variable (σ : Sorter (Text × ℕ)) (CACHE_LIMIT : ℕ) (g_sublist : List Text)

def gather (e : Round) (flg : ℤ) (h : Host) : Prog η Host := do
  let (_, wrk) ← Handles.getAfpName A e.names h.afp h.wrk
  let (_, dat, log) ← Handles.movLogFile A e.logs e.cutoff h.dat h.log
  let (_, wrk) ← Handles.cntSrhNums A e.counts σ log wrk flg
  let (_, wrk) ← Handles.fltLogFile A e.filter wrk wrk
  return { h with dat, log, wrk }

def prepare (e : Round) (dat : Folder) (h : Host) : Prog η (ℤ × Host) := do
  let h ← gather A σ e 1 { h with dat }
  let (thr, wrk) ← Handles.botAfpFile A e.select CACHE_LIMIT h.wrk h.wrk
  return (thr, { h with wrk })

def visit (sl : RunLoop.State × ℤ) (v : Rounds.Visit) : Prog η (RunLoop.State × ℤ) := do
  let (s, lineCount) := sl
  let some result := v.result | return (s, lineCount)
  let (_, afp, org) ←
    Handles.movCntFile A v.mov s.host.afp s.host.org s.host.wrk lineCount result
  let (_, p) ←
    McMoveClient.afpMove A g_sublist v.parcels org v.listed ⟨s.group v.addr, s.sub, []⟩
  return ({ s with
    host := { s.host with afp, org }
    group := update s.group v.addr p.group
    sub := p.sub }, lineCount + result)

/-- A round of `McService::runLoop`; the group list is never closed. -/
def round (s : RunLoop.State) (d : Rounds.Day) : Prog η RunLoop.State := do
  let some _ ← tryOpen A d.opened | return s
  let (thr, host) ← prepare A σ CACHE_LIMIT d.round d.dat s.host
  if thr = -1 then return { s with host }
  let (s, _) ← d.visits.foldlM (visit A g_sublist) ({ s with host }, 0)
  return s

def rounds (days : List Rounds.Day) (s : RunLoop.State) : Prog η RunLoop.State :=
  days.foldlM (round A σ CACHE_LIMIT g_sublist) s

end RunLoop

section Clients

variable {A} {g_sublist : List Text} {org : Folder} {listed : Bool}

theorem readFinger_ends {opened : Bool} {f : FileName} :
    Ends ∅ (readFinger A opened org f) (Service.readFinger opened org f) True := by
  apply Handles.ends_fopenR
  · intro val fop _
    apply ends_guard
    intro _
    exact ends_closing [fop] (by simp) _
  · exact ends_pure Finset.notMem_empty _

theorem forFiles_ends {α : Type} {send : α → FileName → Prog η α}
    {send' : α → FileName → Option α} (h : ∀ s f, Ends ∅ (send s f) (send' s f) True) (s : α) :
    Ends ∅ (forFiles A listed org send s) (do
      if !listed then return (-1, s)
      let s ← org.files.keys.foldlM send' s
      return (0, s)) (listed = false) := by
  apply ends_tryOpen
  · intro hlisted dp _
    have hloop := (ends_foldlM h org.files.keys s).congr (iff_true_intro fun _ _ ↦ trivial)
    refine (hloop.bind (Q := False) ?_).congr (by simp [hlisted])
    intro s' _
    exact ends_leak (by simp) _
  · intro hlisted
    exact (ends_pure Finset.notMem_empty _).congr (iff_of_true trivial hlisted)

theorem GrMoveClient.afpMove_ends {uploads : FileName → Upload} {s : Replicas} :
    Ends ∅ (GrMoveClient.afpMove A g_sublist uploads org listed s)
      (Service.GrMoveClient.afpMove g_sublist uploads org listed s) (listed = false) := by
  apply forFiles_ends
  intro s f
  apply readFinger_ends.bind_closed
  intro req _
  cases req with
  | none => exact ends_pure Finset.notMem_empty _
  | some req =>
    apply Ends.lift
    intro r _
    exact ends_pure Finset.notMem_empty _

theorem McMoveClient.afpMove_ends {parcels : FileName → Parcel} {p : Evict.Progress} :
    Ends ∅ (McMoveClient.afpMove A g_sublist parcels org listed p)
      (Evict.afpMove g_sublist parcels org listed p) (listed = false) := by
  apply forFiles_ends
  intro p f
  apply readFinger_ends.bind_closed
  intro req _
  cases req with
  | none => exact ends_pure Finset.notMem_empty _
  | some req =>
    apply Ends.lift
    intro r _
    obtain ⟨status, group⟩ := r
    apply Ends.lift
    intro sub _
    exact ends_pure Finset.notMem_empty _

end Clients

section Rounds

variable {A} {σ : Sorter (Text × ℕ)} {CACHE_LIMIT : ℕ} {g_sublist : List Text}

theorem gather_ends {e : Round} {flg : ℤ} {h : Host} :
    Ends ∅ (gather A σ e flg h) (Service.gather σ e flg h)
      ((e.names.call 0 = true → e.names.call 1 = true) ∧ True ∧
        (e.counts.call 0 = true → e.counts.call 1 = true) ∧ True ∧ True) := by
  apply Handles.getAfpName_ends.bind
  intro named _
  apply Handles.movLogFile_ends.bind
  intro moved _
  apply Handles.cntSrhNums_ends.bind
  intro counted _
  apply Handles.fltLogFile_ends.bind
  intro ready _
  exact ends_pure Finset.notMem_empty _

theorem prepare_ends {e : Round} {dat : Folder} {h : Host} :
    ∃ P, Ends ∅ (prepare A σ CACHE_LIMIT e dat h) (RunLoop.prepare σ CACHE_LIMIT e dat h) P := by
  refine ⟨_, gather_ends.bind (Q := True ∧ True) ?_⟩
  intro h _
  apply Handles.botAfpFile_ends.bind
  intro selected _
  exact ends_pure Finset.notMem_empty _

theorem visit_ends (sl : RunLoop.State × ℤ) (v : Rounds.Visit) :
    Ends ∅ (visit A g_sublist sl v) (Rounds.visit g_sublist sl v)
      (v.result ≠ none → v.mov.call 0 = false ∧ v.listed = false) := by
  obtain ⟨s, lineCount⟩ := sl
  unfold visit Rounds.visit
  cases v.result with
  | none =>
    exact (ends_pure Finset.notMem_empty _).congr (iff_of_true trivial fun h ↦ (h rfl).elim)
  | some result =>
    refine Ends.congr (Handles.movCntFile_ends.bind (Q := v.listed = false ∧ True) ?_) (by simp)
    intro moved _
    apply McMoveClient.afpMove_ends.bind
    intro sent _
    exact ends_pure Finset.notMem_empty _

theorem round_ends (s : RunLoop.State) (d : Rounds.Day) :
    Ends ∅ (round A σ CACHE_LIMIT g_sublist s d) (Rounds.round σ CACHE_LIMIT g_sublist s d)
      (d.opened = false) := by
  apply ends_tryOpen
  · intro hopened fp _
    obtain ⟨P, hprepare⟩ := prepare_ends (A := A)
    refine (hprepare.bind (Q := False) ?_).congr (by simp [hopened])
    rintro ⟨thr, host⟩ _
    by_cases hthr : thr = -1
    · simp only [hthr, if_true]
      exact ends_leak (by simp) _
    · simp only [hthr, if_false]
      refine ((ends_foldlM visit_ends _ _).bind (Q := False) ?_).congr (by simp)
      intro t _
      exact ends_leak (by simp) _
  · intro hopened
    exact (ends_pure Finset.notMem_empty _).congr (iff_of_true trivial hopened)

theorem rounds_ends (days : List Rounds.Day) (s : RunLoop.State) :
    Ends ∅ (rounds A σ CACHE_LIMIT g_sublist days s) (Rounds.rounds σ CACHE_LIMIT g_sublist days s)
      (∀ d ∈ days, d.opened = false) :=
  ends_foldlM round_ends days s

end Rounds

/-- When each stage and each client returns with the handles it was called with,
and when some rounds of the loop leave as many open as there were. -/
theorem handles_kept_iff (σ : Sorter (Text × ℕ)) (GROUP_LIMIT CACHE_LIMIT : ℕ)
    (g_sublist : List Text) :
    (∀ o org dst, KeepsIff (Handles.getAfpName A o org dst)
      (o.call 0 = true → o.call 1 = true)) ∧
    (∀ o s org dst, KeepsIff (Handles.movLogFile A o s org dst) True) ∧
    (∀ o org dst flg, KeepsIff (Handles.cntSrhNums A o σ org dst flg)
      (o.call 0 = true → o.call 1 = true)) ∧
    (∀ o org dst, KeepsIff (Handles.fltLogFile A o org dst) True) ∧
    (∀ o org dst cnt, KeepsIff (Handles.topAfpFile A o GROUP_LIMIT org dst cnt) True) ∧
    (∀ o org dst, KeepsIff (Handles.botAfpFile A o CACHE_LIMIT org dst) True) ∧
    (∀ o org dst wrk, KeepsIff (Handles.movAfpFile A o org dst wrk) (o.call 0 = false)) ∧
    (∀ o org dst wrk pos cnt, KeepsIff (Handles.movCntFile A o org dst wrk pos cnt)
      (o.call 0 = false)) ∧
    (∀ uploads org listed s, KeepsIff (GrMoveClient.afpMove A g_sublist uploads org listed s)
      (listed = false)) ∧
    (∀ parcels org listed p, KeepsIff (McMoveClient.afpMove A g_sublist parcels org listed p)
      (listed = false)) ∧
    ∀ days s live t live', (rounds A σ CACHE_LIMIT g_sublist days s).run live = some (t, live') →
      (live'.card = live.card ↔ ∀ d ∈ days, d.opened = false) := by
  refine ⟨?_, ?_, ?_, ?_, ?_, ?_, ?_, ?_, ?_, ?_, ?_⟩
  · intro o org dst
    exact Handles.getAfpName_ends.keepsIff
  · intro o s org dst
    exact Handles.movLogFile_ends.keepsIff
  · intro o org dst flg
    exact Handles.cntSrhNums_ends.keepsIff
  · intro o org dst
    exact Handles.fltLogFile_ends.keepsIff
  · intro o org dst cnt
    exact Handles.topAfpFile_ends.keepsIff
  · intro o org dst
    exact Handles.botAfpFile_ends.keepsIff
  · intro o org dst wrk
    exact Handles.movAfpFile_ends.keepsIff
  · intro o org dst wrk pos cnt
    exact Handles.movCntFile_ends.keepsIff
  · intro uploads org listed s
    exact GrMoveClient.afpMove_ends.keepsIff
  · intro parcels org listed p
    exact McMoveClient.afpMove_ends.keepsIff
  · intro days s live t live' h
    exact (rounds_ends days s).card_iff h

def nextUnused : Allocator ℕ where
  fresh live := live.sup Nat.succ
  unused _ h := Nat.not_succ_le_self _ (Finset.le_sup (f := Nat.succ) h)

def noOutput : Opens := ⟨fun i ↦ i = 0, fun _ ↦ true⟩

def noGroups : Rounds.Day where
  opened := true
  round := ⟨allOpen, allOpen, allOpen, allOpen, allOpen, allOpen, []⟩
  dat := .ofList "runlog" []
  visits := []

theorem handles_leak :
    (∃ r live', (Handles.getAfpName nextUnused noOutput emptyHost.afp emptyHost.wrk).run ∅ =
      some (r, live') ∧ live' ≠ ∅) ∧
    ∃ t live', (rounds nextUnused (insertion _) 0 [] [noGroups]
      ⟨emptyHost, fun _ ↦ ⟨emptyHost.dst, []⟩, fun _ ↦ emptyHost.afp, .waiting⟩).run ∅ =
        some (t, live') ∧ live'.card = 1 := by
  refine ⟨⟨_, _, rfl, by decide⟩, ⟨_, _, rfl, by decide⟩⟩

end FingerMove.Service.Leaks
