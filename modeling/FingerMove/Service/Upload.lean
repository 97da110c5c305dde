import FingerMove.Service.Stored
import FingerMove.Service.Clients
import FingerMove.Service.Preconf

namespace FingerMove.Service

open CText Directory Tally ProDeal Function

def Upload.Good (x : Upload) : Prop :=
  x.opened = true ∧ x.send = .answered ∧ ∀ i, (x.turns i).Succeeds

section Paths

variable {g_sublist subs : List Text} {req request : FingerValue} {turns : ℕ → Turn} {t : Turn}
variable {s s' : Replicas} {st : Status} {addr : Text}

def SamePaths (s s' : Replicas) : Prop :=
  s'.main.path = s.main.path ∧ ∀ addr, (s'.sub addr).path = (s.sub addr).path

theorem SamePaths.trans {s'' : Replicas} (h : SamePaths s s') (h' : SamePaths s' s'') :
    SamePaths s s'' :=
  ⟨h'.1.trans h.1, fun addr ↦ (h'.2 addr).trans (h.2 addr)⟩

theorem SamePaths.fits {f : FileName} (h : SamePaths s s') (hfits : s.Fits g_sublist f) :
    s'.Fits g_sublist f := by
  refine ⟨?_, fun addr haddr ↦ ?_⟩
  · rw [Folder.fits_congr h.1]
    exact hfits.1
  · rw [Folder.fits_congr (h.2 addr)]
    exact hfits.2 addr haddr

theorem storeFinger_path {opened : Bool} {dst d : Folder}
    (h : storeFinger opened req dst = some (st, d)) : d.path = dst.path := by
  obtain ⟨_, -, h⟩ := Option.bind_eq_some_iff.mp h
  split at h
  · obtain ⟨-, rfl⟩ := Prod.mk.inj (Option.some.inj h)
    rfl
  · obtain ⟨_, -, h⟩ := Option.bind_eq_some_iff.mp h
    obtain ⟨-, rfl⟩ := Prod.mk.inj (Option.some.inj h)
    rfl

namespace McServer

theorem appAdd_path (h : appAdd t request addr s = some (st, s')) : SamePaths s s' := by
  obtain ⟨⟨_, d⟩, hcall, h⟩ := Option.bind_eq_some_iff.mp h
  obtain ⟨-, rfl⟩ := Prod.mk.inj (Option.some.inj h)
  have hd : d.path = (s.sub addr).path := by
    obtain ⟨-, rfl⟩ | ⟨_, hstore, -⟩ := call_cases hcall
    · rfl
    · exact storeFinger_path hstore
  refine ⟨rfl, fun a ↦ ?_⟩
  rcases eq_or_ne a addr with rfl | ha
  · simp [hd]
  · simp [ha]

theorem writeMain_path (h : writeMain t req s = some (st, s')) : SamePaths s s' := by
  obtain ⟨⟨_, d⟩, hstore, h⟩ := Option.bind_eq_some_iff.mp h
  obtain ⟨-, rfl⟩ := Prod.mk.inj (Option.some.inj h)
  exact ⟨storeFinger_path hstore, fun _ ↦ rfl⟩

theorem afpmoveLoop_path {i : ℕ} (h : afpmoveLoop req request turns i subs s = some (st, s')) :
    SamePaths s s' := by
  induction subs generalizing i s with
  | nil =>
    obtain ⟨-, rfl⟩ := Prod.mk.inj (Option.some.inj h)
    exact ⟨rfl, fun _ ↦ rfl⟩
  | cons addr subs ih =>
    simp only [afpmoveLoop, Option.bind_eq_bind, Option.bind_eq_some_iff] at h
    obtain ⟨⟨_, s₁⟩, hadd, h⟩ := h
    have hadd := appAdd_path hadd
    split at h
    · obtain ⟨-, rfl⟩ := Prod.mk.inj (Option.some.inj h)
      exact hadd
    · simp only [Option.bind_eq_some_iff] at h
      obtain ⟨⟨_, s₂⟩, hwrite, h⟩ := h
      have hboth := hadd.trans (writeMain_path hwrite)
      split at h
      · obtain ⟨-, rfl⟩ := Prod.mk.inj (Option.some.inj h)
        exact hboth
      · exact hboth.trans (ih h)

end McServer

end Paths

namespace GrMoveClient

/-- The files `fs` of ORG_DIR are on the main cache and on every sub cache, and
nothing else has changed there. -/
structure Uploaded (g_sublist : List Text) (org : Folder) (fs : List FileName) (s s' : Replicas) :
    Prop where
  main : ∀ f, s'.main.files.lookup f =
    if f ∈ fs then org.files.lookup f else s.main.files.lookup f
  sub : ∀ addr f, (s'.sub addr).files.lookup f =
    if f ∈ fs ∧ addr ∈ g_sublist then org.files.lookup f else (s.sub addr).files.lookup f
  paths : SamePaths s s'

variable {g_sublist : List Text} {org : Folder} {x : Upload} {f : FileName} {fs : List FileName}
variable {s : Replicas} {data : Text} {uploads : FileName → Upload}

theorem afpMoveFile_uploads (hx : x.Good) (hne : g_sublist ≠ [])
    (hf : org.files.lookup f = some data) (hsize : data.length < 2 ^ 31)
    (horg : org.fits f = true) (hfits : s.Fits g_sublist f) :
    ∃ s', afpMoveFile g_sublist x org f s = some s' ∧ Uploaded g_sublist org [f] s s' := by
  obtain ⟨hopened, hsend, hturns⟩ := hx
  let req : FingerValue := ⟨f.text, data, data.length⟩
  have hread : readFinger x.opened org f = some (some req) := by
    rw [hopened]
    exact readFinger_of_lookup horg hf hsize
  have hname : req.file = f := file_of_text f
  have hdata : req.data = some data := data_of_len rfl
  obtain ⟨st, s', hloop, hok⟩ : ∃ st s', McServer.afpmoveLoop req { req with val := data }
      x.turns 0 g_sublist s = some (st, s') ∧
        (st = .ok ↔ ∀ j < g_sublist.length, (x.turns (0 + j)).Succeeds) :=
    McServer.afpmoveLoop_returns hdata (data_request hdata) rfl (hname.symm ▸ hfits)
  have hmove : McServer.afpmove g_sublist x.turns req s = some (st, s') := by
    rw [McServer.afpmove, hdata]
    exact hloop
  have hst : st = .ok := hok.mpr fun j _ ↦ hturns (0 + j)
  refine ⟨s', ?_, ?_⟩
  · refine Option.bind_eq_some_iff.mpr ⟨some req, hread, ?_⟩
    simp only [hsend, Delivery.call, hmove]
    rfl
  · obtain ⟨data', hdata', ⟨-, hreached⟩ | ⟨hfail, -⟩⟩ := McServer.afpmove_reached hmove
    · obtain rfl := Option.some.inj (hdata'.symm.trans hdata)
      rw [hname] at hreached
      refine ⟨fun g ↦ ?_, fun addr g ↦ ?_, McServer.afpmoveLoop_path hloop⟩
      · rcases eq_or_ne g f with rfl | hg
        · rw [if_pos List.mem_cons_self, hf]
          exact hreached.main_held (List.length_pos_iff.mpr hne)
        · simp [hg, hreached.main_other g hg]
      · rcases eq_or_ne g f with rfl | hg
        · by_cases haddr : addr ∈ g_sublist
          · rw [if_pos ⟨List.mem_cons_self, haddr⟩, hf]
            exact hreached.sub_held addr (by rwa [List.take_length])
          · have hfresh : addr ∉ g_sublist.take (g_sublist.length + 1) :=
              fun hin ↦ haddr (List.mem_of_mem_take hin)
            rw [if_neg fun h ↦ haddr h.2, hreached.sub_fresh addr hfresh]
        · simp [hg, hreached.sub_other addr g hg]
    · rw [hst] at hfail
      cases hfail

theorem uploads_all (hx : ∀ f, (uploads f).Good) (hne : g_sublist ≠ [])
    (hfs : ∀ f ∈ fs, f ∈ org.files)
    (hsize : ∀ f data, org.files.lookup f = some data → data.length < 2 ^ 31)
    (horg : ∀ f ∈ fs, org.fits f = true) (hfits : ∀ f ∈ fs, s.Fits g_sublist f) :
    ∃ s', fs.foldlM (fun s f ↦ afpMoveFile g_sublist (uploads f) org f s) s = some s' ∧
      Uploaded g_sublist org fs s s' := by
  induction fs generalizing s with
  | nil => exact ⟨s, rfl, by simp, by simp, rfl, fun _ ↦ rfl⟩
  | cons f fs ih =>
    obtain ⟨data, hdata⟩ := Option.isSome_iff_exists.mp
      (AList.lookup_isSome.mpr (hfs f List.mem_cons_self))
    obtain ⟨s₁, hs₁, hfirst⟩ := afpMoveFile_uploads (hx f) hne hdata (hsize f data hdata)
      (horg f List.mem_cons_self) (hfits f List.mem_cons_self)
    obtain ⟨s', hs', hrest⟩ := ih (fun g hg ↦ hfs g (List.mem_cons_of_mem f hg))
      (fun g hg ↦ horg g (List.mem_cons_of_mem f hg))
      (fun g hg ↦ hfirst.paths.fits (hfits g (List.mem_cons_of_mem f hg)))
    refine ⟨s', Option.bind_eq_some_iff.mpr ⟨s₁, hs₁, hs'⟩, ?_, ?_, hfirst.paths.trans hrest.paths⟩
    · intro g
      rw [hrest.main, hfirst.main]
      by_cases hg : g ∈ fs <;> simp [hg]
    · intro addr g
      rw [hrest.sub, hfirst.sub]
      by_cases hg : g ∈ fs <;> by_cases haddr : addr ∈ g_sublist <;> simp [hg, haddr]

end GrMoveClient

section Group

variable {σ : Sorter (Text × ℕ)} {GROUP_LIMIT : ℕ} {e : Round} {num count : ℤ} {h h' : Host}
variable {g_sublist : List Text} {uploads : FileName → Upload} {s : Replicas}

/-- Nothing has changed about the fingerprint `f`. -/
def Stayed (h h' : Host) (s s' : Replicas) (f : FileName) : Prop :=
  h'.afp.files.lookup f = h.afp.files.lookup f ∧
    s'.main.files.lookup f = s.main.files.lookup f ∧
    ∀ addr, (s'.sub addr).files.lookup f = (s.sub addr).files.lookup f

/-- The fingerprint `f` has left the group and is on the main cache and on every sub cache. -/
def Arrived (g_sublist : List Text) (h h' : Host) (s s' : Replicas) (f : FileName) : Prop :=
  ∃ data, h.afp.files.lookup f = some data ∧ h'.afp.files.lookup f = none ∧
    s'.main.files.lookup f = some data ∧
    ∀ addr, (s'.sub addr).files.lookup f =
      if addr ∈ g_sublist then some data else (s.sub addr).files.lookup f

theorem transfer_delivers {ns : List FileName}
    (hafp : h'.afp.files = (moveAll ns h.afp.files ∅).1)
    (hmoved : h'.org.files = (moveAll ns h.afp.files ∅).2) (hpath : h'.org.path = h.org.path)
    (hx : ∀ f, (uploads f).Good) (hne : g_sublist ≠ [])
    (hsize : ∀ f data, h.afp.files.lookup f = some data → data.length < 2 ^ 31)
    (horg : ∀ f ∈ h.afp.files, h.org.fits f = true)
    (hfits : ∀ f ∈ h.afp.files, s.Fits g_sublist f) :
    ∃ s', GrMoveClient.afpMove g_sublist uploads h'.org true s = some (0, s') ∧
      ∀ f, (f ∈ ns ∧ f ∈ h.afp.files → Arrived g_sublist h h' s s' f) ∧
        (¬ (f ∈ ns ∧ f ∈ h.afp.files) → Stayed h h' s s' f) := by
  have hlookup : ∀ f, h'.org.files.lookup f =
      if f ∈ ns ∧ f ∈ h.afp.files then h.afp.files.lookup f else none := by
    intro f
    rw [hmoved, lookup_moveAll_snd]
    rfl
  have hmem : ∀ f, f ∈ h'.org.files ↔ f ∈ ns ∧ f ∈ h.afp.files := by
    intro f
    rw [hmoved, mem_moveAll_snd]
  have hkeys : ∀ f ∈ h'.org.files.keys, f ∈ h.afp.files :=
    fun f hf ↦ ((hmem f).mp (AList.mem_keys.mpr hf)).2
  obtain ⟨s', hs', hup⟩ := GrMoveClient.uploads_all hx hne (fun f hf ↦ AList.mem_keys.mpr hf)
    (fun f data hf ↦ by
      rw [hlookup] at hf
      split at hf
      · exact hsize f data hf
      · cases hf)
    (fun f hf ↦ by
      rw [Folder.fits_congr hpath]
      exact horg f (hkeys f hf))
    (fun f hf ↦ hfits f (hkeys f hf))
  refine ⟨s', Option.bind_eq_some_iff.mpr ⟨s', hs', rfl⟩, fun f ↦ ⟨?_, ?_⟩⟩
  · intro hf
    have hin : f ∈ h'.org.files.keys := AList.mem_keys.mp ((hmem f).mpr hf)
    obtain ⟨data, hdata⟩ := Option.isSome_iff_exists.mp (AList.lookup_isSome.mpr hf.2)
    have horgf : h'.org.files.lookup f = some data := by rw [hlookup, if_pos hf, hdata]
    refine ⟨data, hdata, ?_, ?_, fun addr ↦ ?_⟩
    · rw [hafp, lookup_moveAll_fst, if_pos hf.1]
    · rw [hup.main, if_pos hin, horgf]
    · rw [hup.sub, horgf]
      simp [hin]
  · intro hf
    have hout : f ∉ h'.org.files.keys := fun hc ↦ hf ((hmem f).mp (AList.mem_keys.mpr hc))
    refine ⟨?_, ?_, fun addr ↦ ?_⟩
    · rw [hafp, lookup_moveAll_fst]
      split
      · next hns => rw [AList.lookup_eq_none.mpr fun hc ↦ hf ⟨hns, hc⟩]
      · rfl
    · rw [hup.main, if_neg hout]
    · rw [hup.sub, if_neg fun hc ↦ hout hc.1]

/-- A `Preconf` that answers OK and a transfer in which nothing fails: each fingerprint
of the group either stays in its AFP_DIR, or is on the main cache and on every sub
cache, which have all other files as before. -/
theorem group_delivers (hp : preconf σ GROUP_LIMIT e num h = some ((.ok, count), h'))
    (hopen : e.mov.call 0 = true) (hx : ∀ f, (uploads f).Good) (hne : g_sublist ≠ [])
    (hsize : ∀ f data, h.afp.files.lookup f = some data → data.length < 2 ^ 31)
    (horg : ∀ f ∈ h.afp.files, h.org.fits f = true)
    (hfits : ∀ f ∈ h.afp.files, s.Fits g_sublist f) :
    ∃ s', GrMoveClient.afpMove g_sublist uploads h'.org true s = some (0, s') ∧
      ∀ f, Stayed h h' s s' f ∨ Arrived g_sublist h h' s s' f := by
  obtain ⟨_, wrk, r, -, -, -, hmov⟩ := preconf_ok hp
  obtain ⟨hclosed, -⟩ | ⟨-, ns, hafp, hmoved, -⟩ := movFiles_cases hmov
  · rw [hopen] at hclosed
    cases hclosed
  obtain ⟨s', hs', hall⟩ := transfer_delivers hafp hmoved (movFiles_path hmov).2 hx hne hsize horg
    hfits
  refine ⟨s', hs', fun f ↦ ?_⟩
  by_cases hf : f ∈ ns ∧ f ∈ h.afp.files
  · exact .inr ((hall f).1 hf)
  · exact .inl ((hall f).2 hf)

def goodUpload (_ : FileName) : Upload := ⟨true, .answered, fun _ ↦ .good⟩

def noReplicas : Replicas := ⟨.ofList "dst" [], fun _ ↦ .ofList "dst" []⟩

theorem goodUpload_good (f : FileName) : (goodUpload f).Good :=
  ⟨rfl, rfl, fun _ ↦ ⟨rfl, rfl, rfl⟩⟩

section Searched

variable {log : String} {f : FileName}

theorem groupHost_file (hf : f ∈ (groupHost log).afp.files) : f = .ofC "5.afp".toList :=
  List.mem_singleton.mp (AList.mem_keys.mp hf)

theorem groupHost_data {data : Text} (hf : (groupHost log).afp.files.lookup f = some data) :
    data = "x".toList := by
  obtain rfl := groupHost_file (AList.lookup_isSome.mp (by rw [hf]; rfl))
  exact Option.some.inj (hf.symm.trans rfl)

theorem groupHost_size (f : FileName) (data : Text)
    (hf : (groupHost log).afp.files.lookup f = some data) : data.length < 2 ^ 31 := by
  rw [groupHost_data hf]
  decide

theorem groupHost_org (f : FileName) (hf : f ∈ (groupHost log).afp.files) :
    (groupHost log).org.fits f = true := by
  rw [groupHost_file hf]
  rfl

theorem groupHost_fits (f : FileName) (hf : f ∈ (groupHost log).afp.files) :
    noReplicas.Fits ["sub".toList] f := by
  rw [groupHost_file hf]
  exact ⟨by decide, by decide⟩

end Searched

theorem group_delivers_searched : ∃ h' s',
    preconf (insertion _) 9 quietRound 0 (groupHost "$$|5|\n") = some ((.ok, 1), h') ∧
      GrMoveClient.afpMove ["sub".toList] goodUpload h'.org true noReplicas = some (0, s') ∧
      h'.afp.files.lookup (.ofC "5.afp".toList) = none ∧
      (s'.sub "sub".toList).files.lookup (.ofC "5.afp".toList) = some "x".toList := by
  obtain ⟨h', hp, hafp⟩ : ∃ h', preconf (insertion _) 9 quietRound 0 (groupHost "$$|5|\n") =
      some ((.ok, 1), h') ∧ h'.afp.files.lookup (.ofC "5.afp".toList) = none := ⟨_, rfl, rfl⟩
  obtain ⟨s', hs', hall⟩ := group_delivers hp rfl goodUpload_good (by decide) groupHost_size
    groupHost_org groupHost_fits
  refine ⟨h', s', hp, hs', hafp, ?_⟩
  obtain ⟨hsame, -⟩ | ⟨data, hd, -, -, hsub⟩ := hall (.ofC "5.afp".toList)
  · rw [hafp] at hsame
    cases hsame
  · rw [hsub, if_pos List.mem_cons_self, groupHost_data hd]

end Group

end FingerMove.Service
