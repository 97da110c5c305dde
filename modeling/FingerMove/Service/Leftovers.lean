import FingerMove.Service.Preconf
import FingerMove.Service.Windows

namespace FingerMove.Service

open CText Directory Tally ProDeal Function

section Relations

variable {α β γ δ : Type*} {P : α → β → Prop} {Q : γ → δ → Prop} {a : Option α} {b : Option β}

theorem rel_bind {f : α → Option γ} {g : β → Option δ} (h : Option.Rel P a b)
    (hfg : ∀ x y, P x y → Option.Rel Q (f x) (g y)) : Option.Rel Q (a.bind f) (b.bind g) := by
  cases h with
  | some h => exact hfg _ _ h
  | none => exact .none

theorem rel_same {f : α → Option γ} {g : α → Option δ} (a : Option α)
    (hfg : ∀ x, Option.Rel Q (f x) (g x)) : Option.Rel Q (a.bind f) (a.bind g) := by
  cases a with
  | some x => exact hfg x
  | none => exact .none

theorem rel_map {f : α → γ} {g : β → γ} (h : Option.Rel P a b)
    (hfg : ∀ x y, P x y → f x = g y) : a.map f = b.map g := by
  cases h with
  | some h => exact congrArg some (hfg _ _ h)
  | none => rfl

theorem rel_foldlM {R : α → β → Prop} {f : α → δ → Option α} {g : β → δ → Option β} {l : List δ}
    (hstep : ∀ x ∈ l, ∀ a b, R a b → Option.Rel R (f a x) (g b x)) {a : α} {b : β} (h : R a b) :
    Option.Rel R (l.foldlM f a) (l.foldlM g b) := by
  induction l generalizing a b with
  | nil => exact .some h
  | cons x l ih =>
    rw [List.forall_mem_cons] at hstep
    rw [List.foldlM_cons, List.foldlM_cons]
    exact rel_bind (hstep.1 a b h) fun _ _ hab ↦ ih hstep.2 hab

end Relations

/-- Two work directories that have the files of the names `S`, and have them alike. -/
structure SameFiles (S : Set FileName) (w w' : Folder) : Prop where
  path : w.path = w'.path
  present : ∀ n ∈ S, n ∈ w.files
  lookup : ∀ n ∈ S, w.files.lookup n = w'.files.lookup n

def Ends (S : Set FileName) (x y : ℤ × Folder) : Prop := x.1 = y.1 ∧ SameFiles S x.2 y.2

section Stages

variable {S : Set FileName} {w w' org : Folder} {o : Opens} {n : FileName}

theorem SameFiles.fits (h : SameFiles S w w') : w.fits = w'.fits := Folder.fits_congr h.path

theorem SameFiles.write (h : SameFiles S w w') (n : FileName) (t : Text) :
    SameFiles (insert n S) (w.write n t) (w'.write n t) where
  path := h.path
  present m hm := (AList.mem_insert _).mpr (hm.imp_right (h.present m))
  lookup m hm := by
    rcases eq_or_ne m n with rfl | hne
    · rw [lookup_write_self, lookup_write_self]
    · rw [lookup_write_ne hne, lookup_write_ne hne]
      exact h.lookup m (hm.resolve_left hne)

variable {β : Type*} {Q : β → β → Prop}

theorem rel_fopenW {f f' : Bool → Option β} (h : SameFiles S w w')
    (hf : Option.Rel Q (f true) (f' true)) :
    Option.Rel Q ((w.fopenW true n).bind f) ((w'.fopenW true n).bind f') := by
  rw [Folder.fopenW, Folder.fopenW, h.fits]
  split
  · exact hf
  · exact .none

theorem rel_fopenR {f f' : Option Text → Option β} (h : SameFiles S w w') (hn : n ∈ S)
    (hf : ∀ t, Option.Rel Q (f (some t)) (f' (some t))) :
    Option.Rel Q ((w.fopenR true n).bind f) ((w'.fopenR true n).bind f') := by
  obtain ⟨t, ht⟩ := Option.isSome_iff_exists.mp (AList.lookup_isSome.mpr (h.present n hn))
  rw [Folder.fopenR, Folder.fopenR, h.fits, ← h.lookup n hn, ht]
  split
  · exact hf t
  · exact .none

theorem ends_getAfpName (h : SameFiles S w w') (ho : ∀ k, o.call k = true) :
    Option.Rel (Ends (insert afpNameFile S)) (getAfpName o org w) (getAfpName o org w') := by
  unfold getAfpName
  simp only [ho]
  refine rel_fopenW h (rel_same _ fun lines ↦ .some ⟨rfl, h.write afpNameFile lines.flatten⟩)

theorem ends_cntSrhNums {σ : Sorter (Text × ℕ)} {flg : ℤ} (h : SameFiles S w w')
    (ho : ∀ k, o.call k = true) :
    Option.Rel (Ends (insert logNumCount S)) (cntSrhNums o σ org w flg)
      (cntSrhNums o σ org w' flg) := by
  unfold cntSrhNums
  simp only [ho]
  refine rel_fopenW h (rel_same _ fun _ ↦ rel_same _ fun lines ↦ ?_)
  exact .some ⟨rfl, h.write logNumCount lines.flatten⟩

theorem ends_fltLogFile (h : SameFiles S w w') (ho : ∀ k, o.call k = true) (hafps : afpNameFile ∈ S)
    (hlogs : logNumCount ∈ S) :
    Option.Rel (Ends (insert fltLogsFile S)) (fltLogFile o w w) (fltLogFile o w' w') := by
  unfold fltLogFile
  simp only [ho]
  refine rel_fopenR h hafps fun afps ↦ rel_fopenR h hlogs fun logs ↦ rel_fopenW h ?_
  exact .some ⟨rfl, h.write fltLogsFile (filtered afps logs).flatten⟩

theorem ends_topAfpFile {limit : ℕ} {cnt : ℤ} (h : SameFiles S w w') (ho : ∀ k, o.call k = true)
    (hlogs : fltLogsFile ∈ S) :
    Option.Rel (Ends (insert topAfpsFile S)) (topAfpFile o limit w w cnt)
      (topAfpFile o limit w' w' cnt) := by
  unfold topAfpFile
  simp only [ho]
  refine rel_fopenR h hlogs fun logs ↦ rel_fopenW h (rel_same _ fun out ↦ ?_)
  exact .some ⟨rfl, h.write topAfpsFile out.flatten⟩

theorem ends_botAfpFile {limit : ℕ} (h : SameFiles S w w') (ho : ∀ k, o.call k = true)
    (hafps : afpNameFile ∈ S) (hlogs : fltLogsFile ∈ S) :
    Option.Rel (Ends (insert botAfpsFile S)) (botAfpFile o limit w w)
      (botAfpFile o limit w' w') := by
  unfold botAfpFile
  simp only [ho]
  refine rel_fopenR h hafps fun afps ↦ rel_fopenR h hlogs fun logs ↦
    rel_fopenW h (rel_same _ fun x ↦ ?_)
  exact .some ⟨rfl, h.write botAfpsFile _⟩

theorem movFiles_forgets {afp org' : Folder} {list : FileName} {take : List Text → List Text}
    (h : SameFiles S w w') (hlist : list ∈ S) (ho : ∀ k, o.call k = true)
    (horg : org.path = org'.path)
    (hroom : org.files.keys.all org.fits = org'.files.keys.all org'.fits) :
    movFiles o afp org w list take = movFiles o afp org' w' list take := by
  have hclear : org.clear = org'.clear := by
    obtain ⟨path, files⟩ := org
    obtain ⟨path', files'⟩ := org'
    obtain rfl : path = path' := horg
    simp only [Folder.clear, clear_eq]
  have hopen : w.fopenR true list = w'.fopenR true list := by
    rw [Folder.fopenR, Folder.fopenR, h.fits, h.lookup list hlist]
  simp only [movFiles, ho, hroom, hopen, hclear, Bool.not_true, Bool.false_eq_true, if_false]

end Stages

/-- Two hosts that differ in temporary files other than `S` and in ORG_DIR, where
both or neither have paths that fit. -/
structure Alike (S : Set FileName) (h h' : Host) : Prop where
  afp : h.afp = h'.afp
  dat : h.dat = h'.dat
  dst : h.dst = h'.dst
  log : h.log = h'.log
  wrk : SameFiles S h.wrk h'.wrk
  org : h.org.path = h'.org.path
  room : h.org.files.keys.all h.org.fits = h'.org.files.keys.all h'.org.fits

structure Round.Opened (e : Round) : Prop where
  names : ∀ k, e.names.call k = true
  counts : ∀ k, e.counts.call k = true
  filter : ∀ k, e.filter.call k = true
  select : ∀ k, e.select.call k = true
  mov : ∀ k, e.mov.call k = true

def gathered : Set FileName := {fltLogsFile, logNumCount, afpNameFile}

section Hosts

variable {σ : Sorter (Text × ℕ)} {S : Set FileName} {e : Round} {flg num : ℤ} {h h' : Host}

theorem SameFiles.mono {T : Set FileName} {w w' : Folder} (h : SameFiles S w w') (hT : T ⊆ S) :
    SameFiles T w w' :=
  ⟨h.path, fun n hn ↦ h.present n (hT hn), fun n hn ↦ h.lookup n (hT hn)⟩

theorem Alike.mono {T : Set FileName} (hsame : Alike S h h') (hT : T ⊆ S) : Alike T h h' :=
  { hsame with wrk := hsame.wrk.mono hT }

theorem gather_alike (he : e.Opened) (hsame : Alike ∅ h h') :
    Option.Rel (Alike gathered) (gather σ e flg h) (gather σ e flg h') := by
  obtain ⟨afp, dat, wrk, org, dst, log⟩ := h
  obtain ⟨afp', dat', wrk', org', dst', log'⟩ := h'
  obtain ⟨rfl, rfl, rfl, rfl, hwrk, horg, hroom⟩ := hsame
  refine rel_bind (ends_getAfpName hwrk he.names) ?_
  rintro ⟨r, w⟩ ⟨r', w'⟩ ⟨-, hw⟩
  refine rel_same _ ?_
  rintro ⟨-, dat, log⟩
  refine rel_bind (ends_cntSrhNums hw he.counts) ?_
  rintro ⟨r₁, w₁⟩ ⟨r₁', w₁'⟩ ⟨-, hw₁⟩
  refine rel_bind (ends_fltLogFile hw₁ he.filter (by simp) (by simp)) ?_
  rintro ⟨r₂, w₂⟩ ⟨r₂', w₂'⟩ ⟨-, hw₂⟩
  refine .some ⟨rfl, rfl, rfl, rfl, hw₂.mono ?_, horg, hroom⟩
  simp [gathered]

/-- Two answers of `Preconf` that agree, with the same files to send. -/
structure Answers (x y : (Status × ℤ) × Host) : Prop where
  answer : x.1 = y.1
  alike : Alike ∅ x.2 y.2
  org : x.1.1 = .ok → x.2.org = y.2.org

theorem preconf_answers {GROUP_LIMIT : ℕ} (he : e.Opened) (hsame : Alike ∅ h h') :
    Option.Rel Answers (preconf σ GROUP_LIMIT e num h) (preconf σ GROUP_LIMIT e num h') := by
  unfold preconf
  refine rel_bind (gather_alike he hsame) fun g g' hg ↦ ?_
  refine rel_bind (ends_topAfpFile hg.wrk he.select (by simp [gathered])) ?_
  rintro ⟨count, wrk⟩ ⟨-, wrk'⟩ ⟨rfl, hwrk⟩
  dsimp only
  split
  · exact .some ⟨rfl, { hg with wrk := hwrk.mono (Set.empty_subset _) }, by simp⟩
  · have hmov : movAfpFile e.mov g.afp g.org wrk = movAfpFile e.mov g'.afp g'.org wrk' := by
      rw [hg.afp]
      exact movFiles_forgets hwrk (Set.mem_insert _ _) he.mov hg.org hg.room
    simp only [hmov]
    refine rel_same _ fun x ↦ .some ⟨rfl, ?_, fun _ ↦ rfl⟩
    exact ⟨rfl, hg.dat, hg.dst, hg.log, hwrk.mono (Set.empty_subset _), rfl, rfl⟩

theorem prepare_alike {CACHE_LIMIT : ℕ} {dat : Folder} (he : e.Opened) (hsame : Alike ∅ h h') :
    Option.Rel (fun x y ↦ x.1 = y.1 ∧ Alike (insert botAfpsFile gathered) x.2 y.2)
      (RunLoop.prepare σ CACHE_LIMIT e dat h) (RunLoop.prepare σ CACHE_LIMIT e dat h') := by
  have hdat : Alike ∅ { h with dat } { h' with dat } := { hsame with dat := rfl }
  unfold RunLoop.prepare
  refine rel_bind (gather_alike he hdat) fun g g' hg ↦ ?_
  refine rel_bind (ends_botAfpFile hg.wrk he.select (by simp [gathered]) (by simp [gathered])) ?_
  rintro ⟨thr, wrk⟩ ⟨-, wrk'⟩ ⟨rfl, hwrk⟩
  exact .some ⟨rfl, hg.afp, hg.dat, hg.dst, hg.log, hwrk, hg.org, hg.room⟩

end Hosts

section Requests

/-- What a `Preconf` meets: what came into AFP_DIR and DAT_DIR since the last one,
and the number that it is sent. -/
structure Request where
  arrive : Folder → Folder
  dat : Folder
  round : Round
  num : ℤ

variable (σ : Sorter (Text × ℕ)) (GROUP_LIMIT : ℕ)

/-- One `Preconf` after another: the answers, and what ORG_DIR is left with for
`GrMoveClient` where the answer is OK. -/
def preconfs : List Request → Host → Option (List ((Status × ℤ) × Option Folder) × Host)
  | [], h => some ([], h)
  | q :: qs, h => do
    let (a, h) ← preconf σ GROUP_LIMIT q.round q.num { h with afp := q.arrive h.afp, dat := q.dat }
    let (as, g) ← preconfs qs h
    return ((a, if a.1 = .ok then some h.org else none) :: as, g)

variable {σ GROUP_LIMIT}

theorem preconfs_alike {qs : List Request} (hqs : ∀ q ∈ qs, q.round.Opened) {h h' : Host}
    (hsame : Alike ∅ h h') : Option.Rel (fun x y ↦ x.1 = y.1 ∧ Alike ∅ x.2 y.2)
      (preconfs σ GROUP_LIMIT qs h) (preconfs σ GROUP_LIMIT qs h') := by
  induction qs generalizing h h' with
  | nil => exact .some ⟨rfl, hsame⟩
  | cons q qs ih =>
    rw [List.forall_mem_cons] at hqs
    have harrive : Alike ∅ { h with afp := q.arrive h.afp, dat := q.dat }
        { h' with afp := q.arrive h'.afp, dat := q.dat } :=
      { hsame with afp := congrArg q.arrive hsame.afp, dat := rfl }
    unfold preconfs
    refine rel_bind (preconf_answers hqs.1 harrive) ?_
    rintro ⟨a, g⟩ ⟨-, g'⟩ ⟨rfl, hg, horg⟩
    refine rel_bind (ih hqs.2 hg) ?_
    rintro ⟨as, k⟩ ⟨-, k'⟩ ⟨rfl, hk⟩
    refine .some ⟨?_, hk⟩
    dsimp only
    split
    · next hok => rw [horg hok]
    · rfl

/-- What earlier requests left in WRK_DIR and ORG_DIR does not show: not in the
answers, not in the files that go out, not in AFP_DIR. -/
theorem preconfs_forget (qs : List Request) (hqs : ∀ q ∈ qs, q.round.Opened) (h h' : Host)
    (hsame : Alike ∅ h h') :
    (preconfs σ GROUP_LIMIT qs h).map (fun x ↦ (x.1, x.2.afp)) =
      (preconfs σ GROUP_LIMIT qs h').map fun x ↦ (x.1, x.2.afp) :=
  rel_map (preconfs_alike hqs hsame) fun _ _ hends ↦ Prod.ext hends.1 hends.2.afp

def searchedHost : Host := groupHost "$$|5|\n"

def usedHost : Host :=
  { searchedHost with
    wrk := .ofList "wrk" [("fltLogsFile.tmp", "7|9\n")]
    org := .ofList "org" [("7.afp", "z")] }

theorem usedHost_alike : Alike ∅ usedHost searchedHost where
  afp := rfl
  dat := rfl
  dst := rfl
  log := rfl
  wrk := ⟨rfl, nofun, nofun⟩
  org := rfl
  room := by decide

theorem opened_quietRound : quietRound.Opened :=
  ⟨fun _ ↦ rfl, fun _ ↦ rfl, fun _ ↦ rfl, fun _ ↦ rfl, fun _ ↦ rfl⟩

theorem preconfs_forget_usedHost : ∃ org,
    (preconfs (insertion _) 9 [⟨id, searchedHost.dat, quietRound, 0⟩] usedHost).map
      (fun x ↦ (x.1, x.2.afp)) = some ([((.ok, 1), some org)], .ofList "afp" []) ∧
    org.files.keys = [.ofC "5.afp".toList] := by
  have hopened : ∀ q ∈ [(⟨id, searchedHost.dat, quietRound, 0⟩ : Request)], q.round.Opened :=
    List.forall_mem_singleton.mpr opened_quietRound
  rw [preconfs_forget _ hopened usedHost searchedHost usedHost_alike]
  exact ⟨_, rfl, rfl⟩

end Requests

section Rounds

open RunLoop Rounds

structure Twins (S : Set FileName) (s s' : RunLoop.State) : Prop where
  host : Alike S s.host s'.host
  group : s.group = s'.group
  sub : s.sub = s'.sub
  pc : s.pc = s'.pc

variable {σ : Sorter (Text × ℕ)} {CACHE_LIMIT : ℕ} {g_sublist : List Text} {S : Set FileName}

theorem visit_twins {v : Visit} (hv : ∀ k, v.mov.call k = true) (hbot : botAfpsFile ∈ S)
    {s s' : RunLoop.State} (hs : Twins S s s') (n : ℤ) :
    Option.Rel (fun x y ↦ Twins S x.1 y.1 ∧ x.2 = y.2) (visit g_sublist (s, n) v)
      (visit g_sublist (s', n) v) := by
  obtain ⟨host, group, sub, pc⟩ := s
  obtain ⟨host', group', sub', pc'⟩ := s'
  obtain ⟨hhost, rfl, rfl, rfl⟩ := hs
  unfold visit
  cases v.result with
  | none => exact .some ⟨⟨hhost, rfl, rfl, rfl⟩, rfl⟩
  | some result =>
    have hmov : movCntFile v.mov host.afp host.org host.wrk n result =
        movCntFile v.mov host'.afp host'.org host'.wrk n result := by
      rw [hhost.afp]
      exact movFiles_forgets hhost.wrk hbot hv hhost.org hhost.room
    dsimp only
    rw [hmov]
    refine rel_same _ ?_
    rintro ⟨-, afp, org⟩
    refine rel_same _ ?_
    rintro ⟨-, p⟩
    exact .some ⟨⟨⟨rfl, hhost.dat, hhost.dst, hhost.log, hhost.wrk, rfl, rfl⟩, rfl, rfl, rfl⟩, rfl⟩

theorem visits_twins {visits : List Visit} (hv : ∀ v ∈ visits, ∀ k, v.mov.call k = true)
    (hbot : botAfpsFile ∈ S) {s s' : RunLoop.State} (hs : Twins S s s') {n : ℤ} :
    Option.Rel (fun x y ↦ Twins S x.1 y.1 ∧ x.2 = y.2) (visits.foldlM (visit g_sublist) (s, n))
      (visits.foldlM (visit g_sublist) (s', n)) := by
  refine rel_foldlM ?_ ⟨hs, rfl⟩
  rintro v hmem ⟨t, m⟩ ⟨t', -⟩ ⟨ht, rfl⟩
  exact visit_twins (hv v hmem) hbot ht m

structure Rounds.Day.Opened (d : Day) : Prop where
  round : d.round.Opened
  visits : ∀ v ∈ d.visits, ∀ k, v.mov.call k = true

theorem round_twins {d : Day} (hd : d.Opened) {s s' : RunLoop.State} (hs : Twins ∅ s s') :
    Option.Rel (Twins ∅) (round σ CACHE_LIMIT g_sublist s d)
      (round σ CACHE_LIMIT g_sublist s' d) := by
  unfold Rounds.round
  split
  · exact .some hs
  · refine rel_bind (prepare_alike hd.round hs.host) ?_
    rintro ⟨thr, host⟩ ⟨-, host'⟩ ⟨rfl, hhost⟩
    dsimp only
    split
    · exact .some ⟨hhost.mono (Set.empty_subset _), hs.group, hs.sub, hs.pc⟩
    · have hstart : Twins (insert botAfpsFile gathered) { s with host } { s' with host := host' } :=
        ⟨hhost, hs.group, hs.sub, hs.pc⟩
      refine rel_bind (visits_twins hd.visits (Set.mem_insert _ _) hstart) ?_
      rintro ⟨t, m⟩ ⟨t', m'⟩ ⟨ht, -⟩
      exact .some ⟨ht.host.mono (Set.empty_subset _), ht.group, ht.sub, ht.pc⟩

/-- What earlier rounds left in WRK_DIR and ORG_DIR does not show: after any number
of days AFP_DIR, the groups and the sub caches are as if both had been empty. -/
theorem rounds_forget (days : List Day) (hdays : ∀ d ∈ days, d.Opened) (s s' : RunLoop.State)
    (hs : Twins ∅ s s') :
    (rounds σ CACHE_LIMIT g_sublist days s).map (fun t ↦ (t.host.afp, t.group, t.sub)) =
      (rounds σ CACHE_LIMIT g_sublist days s').map fun t ↦ (t.host.afp, t.group, t.sub) := by
  have hends : Option.Rel (Twins ∅) (rounds σ CACHE_LIMIT g_sublist days s)
      (rounds σ CACHE_LIMIT g_sublist days s') :=
    rel_foldlM (fun d hd _ _ ht ↦ round_twins (hdays d hd) ht) hs
  exact rel_map hends fun _ _ ht ↦ Prod.ext ht.host.afp (Prod.ext ht.group ht.sub)

def busyDay : Day where
  opened := true
  round := quietRound
  dat := .ofList "runlog" []
  visits := twoGroups.take 1

theorem rounds_forget_usedHost : ∃ t,
    (rounds (insertion _) 9 [] [busyDay, busyDay] { listedHost with host := usedHost }).map
      (fun t ↦ (t.host.afp, t.group, t.sub)) = some (.ofList "afp" [], t) := by
  have hopened : busyDay.Opened :=
    ⟨opened_quietRound, List.forall_mem_singleton.mpr fun _ ↦ rfl⟩
  have hdays : ∀ d ∈ [busyDay, busyDay], d.Opened := by
    intro d hd
    rcases List.mem_pair.mp hd with rfl | rfl
    · exact hopened
    · exact hopened
  rw [rounds_forget _ hdays { listedHost with host := usedHost }
    { listedHost with host := searchedHost } ⟨usedHost_alike, rfl, rfl, rfl⟩]
  exact ⟨_, rfl⟩

end Rounds

end FingerMove.Service
