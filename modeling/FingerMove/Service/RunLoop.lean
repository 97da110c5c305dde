import FingerMove.Library.Staging
import FingerMove.Service.Clients

namespace FingerMove.Service.RunLoop

open CText Directory Tally ProDeal Function Machine Staging

/-- Where the main loop is: asleep, at a group of the list, or inside
`McMoveClient::afpMove` with the files that are still to be read. -/
inductive Pc
  | waiting
  | groups (list : List (Text × Text)) (lineCount : ℤ)
  | moving (addr : Text) (todo : List FileName) (list : List (Text × Text)) (lineCount : ℤ)

structure State where
  host : Host
  group : Text → GroupServer
  sub : Text → Folder
  pc : Pc

inductive Label
  | round (opened : Bool) (e : Round) (dat : Folder) (list : List (Text × Text))
  | preconf (result : Option ℤ) (mov : Opens) (listed : Bool)
  | transfer (x : Parcel)
  | next

variable (σ : Sorter (Text × ℕ)) (CACHE_LIMIT : ℕ) (g_sublist : List Text)

def prepare (e : Round) (dat : Folder) (h : Host) : Option (ℤ × Host) := do
  let h ← gather σ e 1 { h with dat }
  let (thr, wrk) ← botAfpFile e.select CACHE_LIMIT h.wrk h.wrk
  return (thr, { h with wrk })

def step (s : State) : Label → Option State
  | .round opened e dat list =>
    match s.pc with
    | .waiting => do
      if !opened then return s
      let (thr, host) ← prepare σ CACHE_LIMIT e dat s.host
      if thr = -1 then return { s with host }
      return { s with host, pc := .groups list 0 }
    | _ => none
  | .preconf result mov listed =>
    match s.pc with
    | .groups ((_, addr) :: list) lineCount =>
      match result with
      | none => some { s with pc := .groups list lineCount }
      | some result => do
        -- neither the result of `movCntFile` nor that of `afpMove` matters to the loop
        let (_, afp, org) ← movCntFile mov s.host.afp s.host.org s.host.wrk lineCount result
        let s := { s with host := { s.host with afp, org } }
        if !listed then return { s with pc := .groups list (lineCount + result) }
        return { s with pc := .moving addr org.files.keys list (lineCount + result) }
    | _ => none
  | .transfer x =>
    match s.pc with
    | .moving addr (f :: todo) list lineCount => do
      let (g, sub) ← McMoveClient.afpMoveFile g_sublist x s.host.org f (s.group addr, s.sub)
      return { s with group := update s.group addr g, sub, pc := .moving addr todo list lineCount }
    | _ => none
  | .next =>
    match s.pc with
    | .moving _ [] list lineCount => some { s with pc := .groups list lineCount }
    | .groups [] _ => some { s with pc := .waiting }
    | _ => none

def Refills : Label → Prop
  | .preconf (some _) mov _ => mov.call 0 = true
  | _ => False

def delivered (s : State) : Set (FileName × Text) := {x | ∃ addr, x ∈ (s.group addr).acked}

variable {σ CACHE_LIMIT g_sublist} {s t : State}

theorem delivered_update {addr : Text} {g : GroupServer} (h : (s.group addr).acked ⊆ g.acked)
    {x : FileName × Text} (hx : x ∈ delivered s) : ∃ a, x ∈ (update s.group addr g a).acked := by
  obtain ⟨a, ha⟩ := hx
  refine ⟨a, ?_⟩
  rcases eq_or_ne a addr with rfl | hne
  · rw [update_self]
    exact h ha
  · rwa [update_of_ne hne]

theorem prepare_keeps {e : Round} {dat : Folder} {thr : ℤ} {h h' : Host}
    (hp : prepare σ CACHE_LIMIT e dat h = some (thr, h')) : h'.afp = h.afp ∧ h'.org = h.org := by
  simp only [prepare, Option.bind_eq_bind, Option.bind_eq_some_iff, Option.pure_def,
    Option.some.injEq, Prod.mk.injEq] at hp
  obtain ⟨g, hg, _, _, _, rfl⟩ := hp
  obtain ⟨hafp, horg, -⟩ := gather_keeps hg
  exact ⟨hafp, horg⟩

theorem step_round {opened : Bool} {e : Round} {dat : Folder} {list : List (Text × Text)}
    (h : step σ CACHE_LIMIT g_sublist s (.round opened e dat list) = some t) :
    t.host.afp = s.host.afp ∧ t.host.org = s.host.org ∧ t.group = s.group := by
  simp only [step] at h
  split at h
  · split at h
    · obtain rfl := Option.some.inj h
      exact ⟨rfl, rfl, rfl⟩
    · simp only [Option.bind_eq_bind, Option.bind_eq_some_iff] at h
      obtain ⟨⟨thr, host⟩, hp, h⟩ := h
      obtain ⟨hafp, horg⟩ := prepare_keeps hp
      split at h
      · obtain rfl := Option.some.inj h
        exact ⟨hafp, horg, rfl⟩
      · obtain rfl := Option.some.inj h
        exact ⟨hafp, horg, rfl⟩
  · cases h

theorem step_preconf {result : Option ℤ} {mov : Opens} {listed : Bool}
    (h : step σ CACHE_LIMIT g_sublist s (.preconf result mov listed) = some t) :
    t.group = s.group ∧ ((t.host = s.host ∧ ¬ Refills (.preconf result mov listed)) ∨
      (Refills (.preconf result mov listed) ∧
        files t.host.afp.files ∪ files t.host.org.files = files s.host.afp.files)) := by
  simp only [step] at h
  split at h
  · split at h
    · obtain rfl := Option.some.inj h
      exact ⟨rfl, .inl ⟨rfl, id⟩⟩
    · obtain ⟨⟨r, afp, org⟩, hmov, h⟩ := Option.bind_eq_some_iff.mp h
      have ht : t.group = s.group ∧ t.host = { s.host with afp, org } := by
        split at h <;> obtain rfl := Option.some.inj h <;> exact ⟨rfl, rfl⟩
      obtain ⟨hgroup, hhost⟩ := ht
      refine ⟨hgroup, ?_⟩
      rw [hhost]
      obtain ⟨hopen, rfl, rfl⟩ | ⟨hopen, hfiles⟩ := movFiles_keeps hmov
      · exact .inl ⟨rfl, by simp [Refills, hopen]⟩
      · exact .inr ⟨hopen, hfiles⟩
  · cases h

theorem step_transfer {x : Parcel} (h : step σ CACHE_LIMIT g_sublist s (.transfer x) = some t) :
    t.host = s.host ∧ delivered s ⊆ delivered t := by
  simp only [step] at h
  split at h
  · simp only [Option.bind_eq_bind, Option.bind_eq_some_iff, Option.pure_def,
      Option.some.injEq] at h
    obtain ⟨⟨g, sub⟩, hfile, rfl⟩ := h
    refine ⟨rfl, ?_⟩
    intro y hy
    apply delivered_update _ hy
    obtain ⟨_ | req, hreq, hfile⟩ := Option.bind_eq_some_iff.mp hfile
    · obtain ⟨rfl, rfl⟩ := Prod.mk.inj (Option.some.inj hfile)
      exact List.Subset.refl _
    · obtain ⟨⟨st, g'⟩, hcall, hfile⟩ := Option.bind_eq_some_iff.mp hfile
      obtain ⟨_, -, hfile⟩ := Option.bind_eq_some_iff.mp hfile
      obtain ⟨rfl, rfl⟩ := Prod.mk.inj (Option.some.inj hfile)
      rcases call_cases hcall with ⟨-, rfl⟩ | ⟨_, hstore, -⟩
      · exact List.Subset.refl _
      · exact acked_afpmove hstore
  · cases h

theorem step_next (h : step σ CACHE_LIMIT g_sublist s .next = some t) :
    t.host = s.host ∧ t.group = s.group := by
  simp only [step] at h
  split at h
  · obtain rfl := Option.some.inj h
    exact ⟨rfl, rfl⟩
  · obtain rfl := Option.some.inj h
    exact ⟨rfl, rfl⟩
  · cases h

theorem step_quiet {e : Label} (h : step σ CACHE_LIMIT g_sublist s e = some t) (hr : ¬ Refills e) :
    t.host.afp = s.host.afp ∧ t.host.org = s.host.org ∧ delivered s ⊆ delivered t := by
  have hsame : t.group = s.group → delivered s ⊆ delivered t := by
    intro hg
    rw [delivered, delivered, hg]
  cases e with
  | round opened e dat list =>
    obtain ⟨hafp, horg, hgroup⟩ := step_round h
    exact ⟨hafp, horg, hsame hgroup⟩
  | preconf result mov listed =>
    obtain ⟨hgroup, ⟨hhost, -⟩ | ⟨hrefill, -⟩⟩ := step_preconf h
    · rw [hhost]
      exact ⟨rfl, rfl, hsame hgroup⟩
    · exact absurd hrefill hr
  | transfer x =>
    obtain ⟨hhost, hdel⟩ := step_transfer h
    rw [hhost]
    exact ⟨rfl, rfl, hdel⟩
  | next =>
    obtain ⟨hhost, hgroup⟩ := step_next h
    rw [hhost]
    exact ⟨rfl, rfl, hsame hgroup⟩

theorem step_refill {e : Label} (h : step σ CACHE_LIMIT g_sublist s e = some t) (hr : Refills e) :
    files t.host.afp.files ∪ files t.host.org.files = files s.host.afp.files ∧
      delivered t = delivered s := by
  cases e with
  | preconf result mov listed =>
    obtain ⟨hgroup, ⟨-, hquiet⟩ | ⟨-, hfiles⟩⟩ := step_preconf h
    · exact absurd hr hquiet
    · rw [delivered, delivered, hgroup]
      exact ⟨hfiles, rfl⟩
  | round | transfer | next => exact hr.elim

def exchange : Transfer (step σ CACHE_LIMIT g_sublist) (FileName × Text) where
  source s := files s.host.afp.files
  buffer s := files s.host.org.files
  delivered := delivered
  refills _ e := Refills e
  quiet s e t h hr := by
    obtain ⟨hafp, horg, hdel⟩ := step_quiet h hr
    rw [hafp, horg]
    exact ⟨rfl, rfl, hdel⟩
  refill s e t h hr := step_refill h hr

/-- A run of the main loop keeps every fingerprint of its AFP_DIR exactly when
no `movCntFile` empties ORG_DIR of one that no group has taken. -/
theorem runLoop_kept_iff (s : State) (es : List Label) :
    Always (step σ CACHE_LIMIT g_sublist) (fun t ↦ files s.host.afp.files ⊆
      files t.host.afp.files ∪ files t.host.org.files ∪ delivered t) s es ↔
    EachStep (step σ CACHE_LIMIT g_sublist) (fun t e ↦ Refills e →
      files t.host.org.files ∩ files s.host.afp.files ⊆
        files t.host.afp.files ∪ delivered t) s es :=
  always_kept_iff exchange (kept_refl exchange s)

def oneFinger : State where
  host := {
    afp := .ofList "afp" [("1.afp", "x")]
    dat := .ofList "runlog" []
    wrk := .ofList "wrk" []
    org := .ofList "org" []
    dst := .ofList "dst" []
    log := .ofList "log" [] }
  group _ := ⟨.ofList "dst" [], []⟩
  sub _ := .ofList "afp" []
  pc := .waiting

def failedTransfer : List Label :=
  [.round true ⟨allOpen, allOpen, allOpen, allOpen, allOpen, allOpen, []⟩ (.ofList "runlog" [])
      [("conf1".toList, "move1".toList), ("conf2".toList, "move2".toList)],
    .preconf (some 1) allOpen true,
    .transfer ⟨true, .lost, true, fun _ ↦ .answered⟩,
    .next,
    .preconf (some 1) allOpen true]

theorem fingerprint_lost : ¬ Always (step (insertion _) 9 []) (fun t ↦
    files oneFinger.host.afp.files ⊆
      files t.host.afp.files ∪ files t.host.org.files ∪ delivered t) oneFinger failedTransfer := by
  intro h
  have hmem : (FileName.ofC "1.afp".toList, "x".toList) ∈ files oneFinger.host.afp.files := rfl
  rcases Always.exec h (t := _) rfl hmem with (hafp | horg) | ⟨addr, hacked⟩
  · cases (show none = some _ from hafp)
  · cases (show none = some _ from horg)
  · have hin : _ ∈ (update oneFinger.group "move1".toList
      (oneFinger.group "move1".toList) addr).acked := hacked
    rw [update_eq_self] at hin
    cases hin

end FingerMove.Service.RunLoop
