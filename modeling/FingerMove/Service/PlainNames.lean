import FingerMove.Service.Resolved

namespace FingerMove.Service.Resolved

open CText Directory FileTree ProDeal

variable {δ : Type} {F A O W : Folder} {s : FileSystem δ} {a d o w : δ} {dir : Text} {n : FileName}

structure Mirrors (F : Folder) (s : FileSystem δ) (d : δ) : Prop where
  dir : s.opendir F.path = some d
  files : ∀ n, F.files.lookup n = s.tree.fileAt (d, n)
  flat : ∀ n e, s.tree.node (d, n) ≠ some (.dir e)

theorem Mirrors.resolve (h : Mirrors F s d) : s.resolve F.path = some d := by
  have hdir := h.dir
  rw [FileSystem.opendir] at hdir
  exact (Option.ite_none_left_eq_some.mp hdir).2

theorem Mirrors.mem_keys (h : Mirrors F s d) : n ∈ (s.tree.entries d).keys ↔ n ∈ F.files.keys := by
  have hnode : (s.tree.entries d).lookup n = s.tree.node (d, n) := rfl
  rw [← AList.mem_keys, ← AList.mem_keys, ← AList.lookup_isSome, ← AList.lookup_isSome, h.files,
    hnode, Tree.fileAt]
  rcases hcase : s.tree.node (d, n) with - | e | x
  · rfl
  · exact absurd hcase (h.flat n e)
  · rfl

theorem comps_plain (hn : Confined.Plain n.text) : comps n.text = [.name n] := by
  have hcstr : cstr n.text = n.text := cstr_eq_self n.noNul
  have hplain : Confined.Plain (cstr n.text) := by rwa [hcstr]
  have hcomps := Confined.components_plain hplain
  rw [hcstr] at hcomps
  rw [comps, hcomps, List.map_singleton, Component.map]
  exact congrArg (fun m ↦ [Component.name m]) (FileName.ext hcstr)

theorem lead_plain (hn : Confined.Plain n.text) (h : s.resolve dir = some d) :
    s.tree.lead (s.path (under dir n)) = some (d, n) := by
  rw [lead_under (by rw [comps_plain hn]; exact List.cons_ne_nil _ _), h, Option.bind_some,
    comps_plain hn]
  rfl

theorem slash_plain (hn : Confined.Plain n.text) (dir : Text) :
    Confined.slash (under dir n) = false := by
  rw [slash_under hn.1]
  have hcstr : cstr n.text = n.text := cstr_eq_self n.noNul
  have hplain : Confined.Plain (cstr n.text) := by rwa [hcstr]
  have hslash := Confined.slash_plain hplain
  rwa [hcstr] at hslash

variable [DecidableEq δ]

theorem opendir_clear (ho : Mirrors O s o) (dir : Text) :
    (s.clear o).opendir dir = s.opendir dir := by
  have hwalk : ∀ {e : δ} {cs}, s.tree.Follows (s.tree.AvoidsEmpty o) e cs := by
    intro e cs
    induction cs generalizing e with
    | nil => trivial
    | cons c cs ih =>
      refine ⟨?_, fun _ _ ↦ ih⟩
      cases c with
      | here | up => trivial
      | name x => exact fun _ f hf ↦ absurd hf (ho.flat x f)
  rw [FileSystem.opendir, FileSystem.opendir]
  exact congrArg _ (Tree.walk_clear hwalk)

theorem Mirrors.clear (h : Mirrors F s d) (ho : Mirrors O s o) (hne : d ≠ o) :
    Mirrors F (s.clear o) d where
  dir := (opendir_clear ho _).trans h.dir
  files n := by rw [FileSystem.clear, Tree.fileAt_clear, if_neg hne, h.files]
  flat n e := by
    rw [FileSystem.clear, Tree.node_clear, if_neg hne]
    exact h.flat n e

theorem mirrors_clear (ho : Mirrors O s o) : Mirrors O.clear (s.clear o) o where
  dir := (opendir_clear ho _).trans ho.dir
  files n := by
    rw [FileSystem.clear, Tree.fileAt_clear, if_pos rfl, clear_files]
    rfl
  flat n e := by
    rw [FileSystem.clear, Tree.node_clear, if_pos rfl]
    rcases hcase : s.tree.node (o, n) with - | f | x
    · nofun
    · exact absurd hcase (ho.flat n f)
    · nofun

variable [Fintype δ]

theorem rename_missing {old new : Path δ FileName} (hs : s.tree.lead old = some (a, n))
    (hnode : s.tree.node (a, n) = none) : s.tree.rename old new = s.tree := by
  have hnone : ∀ {p : δ × FileName} {y}, s.tree.lead old = some p → s.tree.node p ≠ some y := by
    intro p y hp
    obtain rfl := Option.some.inj (hs.symm.trans hp)
    rw [hnode]
    nofun
  obtain hsame | ⟨p, q, y, hmoves⟩ | ⟨p, q, e, hmoves, -⟩ := Tree.rename_cases s.tree (old, new)
  · exact hsame
  · exact absurd hmoves.file (hnone hmoves.source)
  · exact absurd hmoves.dir (hnone hmoves.source)

/-- For a name that a directory can list, `rename` does to the directories what it does to
flat folders. -/
theorem rename_mirrored (ha : Mirrors A s a) (ho : Mirrors O s o) (hne : a ≠ o)
    (hn : Confined.Plain n.text) :
    Mirrors { A with files := (Directory.rename A.files O.files n).1 }
        (s.rename (under A.path n) (under O.path n)) a ∧
      Mirrors { O with files := (Directory.rename A.files O.files n).2 }
        (s.rename (under A.path n) (under O.path n)) o ∧
      ∀ {W w}, Mirrors W s w → w ≠ a → w ≠ o →
        Mirrors W (s.rename (under A.path n) (under O.path n)) w := by
  have hsource := lead_plain hn ha.resolve
  have htarget := lead_plain hn ho.resolve
  rcases hnode : s.tree.node (a, n) with - | e | x
  · have hlookup : A.files.lookup n = none := by rw [ha.files, Tree.fileAt, hnode]
    have hflat : Directory.rename A.files O.files n = (A.files, O.files) := by
      rw [Directory.rename, hlookup]
    have hsame : s.rename (under A.path n) (under O.path n) =
        { s with renamed := s.renamed ++ [(under A.path n, under O.path n)] } := by
      rw [FileSystem.rename, rename_missing hsource hnode]
    rw [hflat, hsame]
    exact ⟨⟨ha.dir, ha.files, ha.flat⟩, ⟨ho.dir, ho.files, ho.flat⟩,
      fun hw _ _ ↦ ⟨hw.dir, hw.files, hw.flat⟩⟩
  · exact absurd hnode (ha.flat n e)
  · have hmem : n ∈ A.files := by
      rw [← AList.lookup_isSome, ha.files, Tree.fileAt, hnode]
      rfl
    have hmoves : s.tree.Moves (s.path (under A.path n), s.path (under O.path n)) (a, n) (o, n) x :=
      ⟨hsource, htarget, fun he ↦ hne (Prod.mk.inj he).1, hnode, ho.flat n,
        slash_plain hn A.path, slash_plain hn O.path⟩
    have hopen : ∀ dir, (s.rename (under A.path n) (under O.path n)).opendir dir =
        s.opendir dir := by
      intro dir
      rw [FileSystem.opendir, FileSystem.opendir]
      exact congrArg _ (hmoves.walk _ _)
    have hfile : ∀ r, (s.rename (under A.path n) (under O.path n)).tree.fileAt r = _ :=
      hmoves.fileAt
    have hdir : ∀ r e, (s.rename (under A.path n) (under O.path n)).tree.node r = some (.dir e) ↔
      s.tree.node r = some (.dir e) := hmoves.dir
    refine ⟨⟨(hopen _).trans ha.dir, fun k ↦ ?_, fun k e he ↦ ha.flat k e ((hdir _ e).mp he)⟩,
      ⟨(hopen _).trans ho.dir, fun k ↦ ?_, fun k e he ↦ ho.flat k e ((hdir _ e).mp he)⟩,
      fun {W w} hw hwa hwo ↦ ⟨(hopen _).trans hw.dir, fun k ↦ ?_,
        fun k e he ↦ hw.flat k e ((hdir _ e).mp he)⟩⟩
    · rw [hfile, Directory.lookup_rename_fst, if_neg fun he ↦ hne (Prod.mk.inj he).1, ha.files]
      simp only [Prod.mk.injEq, true_and]
    · rw [hfile, Directory.lookup_rename_snd, ho.files]
      rcases eq_or_ne k n with rfl | hk
      · rw [if_pos ⟨rfl, hmem⟩, if_pos rfl, ha.files, Tree.fileAt, hnode]
      · rw [if_neg fun h ↦ hk h.1, if_neg fun he ↦ hk (Prod.mk.inj he).2,
          if_neg fun he ↦ hk (Prod.mk.inj he).2]
    · rw [hfile, if_neg fun he ↦ hwo (Prod.mk.inj he).1, if_neg fun he ↦ hwa (Prod.mk.inj he).1,
        hw.files]

theorem renameAll_mirrored {names : List FileName} (ha : Mirrors A s a) (ho : Mirrors O s o)
    (hne : a ≠ o) (hnames : ∀ n ∈ names, Confined.Plain n.text) :
    Mirrors { A with files := (moveAll names A.files O.files).1 }
        (s.renameAll A.path O.path names) a ∧
      Mirrors { O with files := (moveAll names A.files O.files).2 }
        (s.renameAll A.path O.path names) o ∧
      ∀ {W w}, Mirrors W s w → w ≠ a → w ≠ o → Mirrors W (s.renameAll A.path O.path names) w := by
  induction names generalizing A O s with
  | nil => exact ⟨ha, ho, fun hw _ _ ↦ hw⟩
  | cons n names ih =>
    obtain ⟨hn, hnames⟩ := List.forall_mem_cons.mp hnames
    obtain ⟨ha', ho', hothers⟩ := rename_mirrored ha ho hne hn
    obtain ⟨ha'', ho'', hothers'⟩ := ih ha' ho' hnames
    exact ⟨ha'', ho'', fun hw hwa hwo ↦ hothers' (hothers hw hwa hwo) hwa hwo⟩

/-- On lists of such names the calls that fill ORG_DIR do to the directories what they do to
flat folders. -/
theorem movFiles_mirrored {opens : Opens} {list : FileName} {take : List Text → List Text}
    {r : ℤ} {A' O' : Folder} (ha : Mirrors A s a) (ho : Mirrors O s o) (hw : Mirrors W s w)
    (hne : a ≠ o) (hwa : w ≠ a) (hwo : w ≠ o)
    (hplain : ∀ bytes names, W.files.lookup list = some bytes →
      (take (reads MAX_LINE_LEN bytes)).mapM chop = some names →
        ∀ n ∈ names, Confined.Plain n.text)
    (h : ProDeal.movFiles opens A O W list take = some (r, A', O')) :
    ∃ s', movFiles opens A.path O.path W.path list take s = some (r, s') ∧
      Mirrors A' s' a ∧ Mirrors O' s' o ∧ Mirrors W s' w := by
  have hclear := mirrors_clear ho
  have hread : (s.clear o).read W.path list = W.files.lookup list := by
    have hwrk := hw.clear ho hwo
    rw [FileSystem.read, hwrk.resolve, Option.bind_some, hwrk.files]
  unfold ProDeal.movFiles at h
  unfold movFiles
  cases h0 : opens.call 0 with
  | false =>
    simp only [h0, Bool.not_false, if_true] at h
    obtain ⟨rfl, rfl, rfl⟩ : -1 = r ∧ A = A' ∧ O = O' := by simpa using h
    exact ⟨s, rfl, ha, ho, hw⟩
  | true =>
    simp only [h0, Bool.not_true, Bool.false_eq_true, if_false] at h
    obtain ⟨_, hkeys, h⟩ := Option.bind_eq_some_iff.mp h
    obtain ⟨found, hfound, h⟩ := Option.bind_eq_some_iff.mp h
    have hall : (s.tree.entries o).keys.all (fits O.path) = true := by
      have hflat := List.all_eq_true.mp ((Option.guard_eq_some' _).mp hkeys)
      exact List.all_eq_true.mpr fun n hn ↦ hflat n (ho.mem_keys.mp hn)
    have hfits : fits W.path list = true := (Option.ite_none_right_eq_some.mp hfound).1
    simp only [if_true, ho.dir, hall, hfits, guard_true, hread, Option.bind_eq_bind]
    cases found with
    | none =>
      have hnone : (if opens.call 1 = true then W.files.lookup list else none) = none := by
        split_ifs with h1
        · exact fopenR_none hfound h1
        · rfl
      obtain ⟨rfl, rfl, rfl⟩ : -1 = r ∧ A = A' ∧ O.clear = O' := by simpa using h
      rw [hnone]
      exact ⟨s.clear o, rfl, ha.clear ho hne, hclear, hw.clear ho hwo⟩
    | some bytes =>
      obtain ⟨h1, hbytes⟩ := fopenR_some hfound
      obtain ⟨⟨A₁, O₁⟩, hmove, h⟩ := Option.bind_eq_some_iff.mp h
      obtain ⟨rfl, rfl, rfl⟩ : 0 = r ∧ A₁ = A' ∧ O₁ = O' := by simpa using h
      obtain ⟨names, hnames, hmove⟩ := Option.bind_eq_some_iff.mp hmove
      obtain ⟨_, hroom, hmove⟩ := Option.bind_eq_some_iff.mp hmove
      obtain ⟨rfl, rfl⟩ := Prod.mk.inj (Option.some.inj hmove)
      have hpaths : (names.all fun n ↦ fits A.path n && fits O.path n) = true :=
        (Option.guard_eq_some' _).mp hroom
      obtain ⟨ha', ho', hothers⟩ := renameAll_mirrored (ha.clear ho hne) hclear hne
        (hplain bytes names hbytes hnames)
      refine ⟨(s.clear o).renameAll A.path O.path names, ?_, ha', ho',
        hothers (hw.clear ho hwo) hwa hwo⟩
      simp only [h1, if_true, hbytes, Option.bind_some, hnames, hpaths, guard_true]
      rfl

structure Hosts (c : Config) (h : Host) (s : FileSystem δ) (a o w : δ) : Prop where
  afp : Mirrors h.afp s a
  org : Mirrors h.org s o
  wrk : Mirrors h.wrk s w
  paths : h.afp.path = c.AFP_DIR ∧ h.org.path = c.ORG_DIR ∧ h.wrk.path = c.WRK_DIR

variable {c : Config} {g_sublist : List Text} {x t : RunLoop.State} {i m : ℤ}

theorem visit_mirrored {v : Rounds.Visit} (hs : Hosts c x.host s a o w) (hne : a ≠ o)
    (hwa : w ≠ a) (hwo : w ≠ o)
    (hplain : ∀ bots, x.host.wrk.files.lookup botAfpsFile = some bots → Confined.PlainLines bots)
    (h : Rounds.visit g_sublist (x, i) v = some (t, m)) :
    ∃ s', visit c (s, i) v = some (s', m) ∧ Hosts c t.host s' a o w ∧ t.host.wrk = x.host.wrk := by
  unfold Rounds.visit at h
  unfold visit
  cases hr : v.result with
  | none =>
    rw [hr] at h
    obtain ⟨rfl, rfl⟩ := Prod.mk.inj (Option.some.inj h)
    exact ⟨s, rfl, hs, rfl⟩
  | some r =>
    rw [hr] at h
    obtain ⟨⟨r', A', O'⟩, hmov, h⟩ := Option.bind_eq_some_iff.mp h
    obtain ⟨_, -, h⟩ := Option.bind_eq_some_iff.mp h
    obtain ⟨rfl, rfl⟩ := Prod.mk.inj (Option.some.inj h)
    have hnames : ∀ bytes names, x.host.wrk.files.lookup botAfpsFile = some bytes →
        (window i r 0 (reads MAX_LINE_LEN bytes)).mapM chop = some names →
          ∀ n ∈ names, Confined.Plain n.text := by
      intro bytes names hbytes hns n hn
      obtain ⟨line, hline, hchop⟩ := (mem_mapM hns).mp hn
      exact hplain bytes hbytes line ((window_sublist _ _ _ _).subset hline) n hchop
    obtain ⟨s', hs', ha', ho', hw'⟩ :=
      movFiles_mirrored hs.afp hs.org hs.wrk hne hwa hwo hnames hmov
    obtain ⟨hafp, horg, hwrk⟩ := hs.paths
    rw [hafp, horg, hwrk] at hs'
    obtain ⟨hafp', horg'⟩ := movFiles_path hmov
    refine ⟨s', ?_, ⟨ha', ho', hw', hafp'.trans hafp, horg'.trans horg, hwrk⟩, rfl⟩
    exact Option.bind_eq_some_iff.mpr ⟨_, hs', rfl⟩

/-- Where the bottom list names plain names, the visits of a round do to the files of the
main cache what they do to flat folders. -/
theorem visits_mirrored {vs : List Rounds.Visit} (hs : Hosts c x.host s a o w) (hne : a ≠ o)
    (hwa : w ≠ a) (hwo : w ≠ o)
    (hplain : ∀ bots, x.host.wrk.files.lookup botAfpsFile = some bots → Confined.PlainLines bots)
    (h : vs.foldlM (Rounds.visit g_sublist) (x, i) = some (t, m)) :
    ∃ s', vs.foldlM (visit c) (s, i) = some (s', m) ∧ Hosts c t.host s' a o w := by
  induction vs generalizing x s i with
  | nil =>
    obtain ⟨rfl, rfl⟩ := Prod.mk.inj (Option.some.inj h)
    exact ⟨s, rfl, hs⟩
  | cons v vs ih =>
    obtain ⟨⟨u, k⟩, hu, h⟩ := Option.bind_eq_some_iff.mp h
    obtain ⟨s₁, hvisit, hs₁, hwrk⟩ := visit_mirrored hs hne hwa hwo hplain hu
    obtain ⟨s', hvisits, hs'⟩ := ih hs₁ (hwrk ▸ hplain) h
    exact ⟨s', Option.bind_eq_some_iff.mpr ⟨_, hvisit, hvisits⟩, hs'⟩

end FingerMove.Service.Resolved
