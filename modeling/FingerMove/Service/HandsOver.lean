import FingerMove.Service.Resolved

namespace FingerMove.Service.Resolved

open CText Directory Tally FileTree ProDeal

variable {δ : Type} {σ : Sorter (Text × ℕ)} {c : Config} {e : Round}
variable {limit : ℕ} {num n m : ℤ} {wrk : Folder}
variable {f : FileName} {s g u v s' : FileSystem δ} {a o : δ}

section Offered

theorem offered_text (hf : f ∈ offered limit num (filteredLines wrk)) :
    ∃ id, f.text = id ++ ".afp".toList := by
  obtain ⟨x, hx, rfl⟩ := List.mem_map.mp hf
  obtain ⟨line, hline, hsplit⟩ := List.mem_filterMap.mp ((List.takeWhile_prefix _).subset hx)
  have hshape := reads_shape (by decide) (List.mem_of_mem_take hline)
  exact ⟨x.1, afpFile_text (splitLine_free hshape.2.2 hsplit).2⟩

def Ends (f : FileName) : Prop := comps f.text ≠ [] ∧ Confined.slash f.text = false

theorem Ends.ne_nil (h : Ends f) : f.text ≠ [] := by
  intro hnil
  apply h.1
  rw [hnil]
  rfl

theorem ends_of_offered (hf : f ∈ offered limit num (filteredLines wrk)) : Ends f := by
  obtain ⟨id, hid⟩ := offered_text hf
  have hslash : Confined.slash f.text = false := by
    rw [hid, Confined.slash, List.getLast?_append]
    rfl
  refine ⟨?_, hslash⟩
  intro hnone
  rcases Confined.slash_of_components (List.map_eq_nil_iff.mp hnone) with hnil | htrue
  · simp [hid] at hnil
  · rw [hslash] at htrue
    cases htrue

end Offered

/-- The files of the songs that are selected, as the tallies left in WRK_DIR say. -/
def offeredBy (c : Config) (num : ℤ) (g : FileSystem δ) : List FileName :=
  offered c.GROUP_LIMIT num (filteredLines (g.folder c.WRK_DIR))

/-- ORG_DIR holds `n` files, each of which AFP_DIR had before and has no more. -/
def HandsOver (c : Config) (n : ℤ) (s s' : FileSystem δ) : Prop :=
  ∃ a o, s.resolve c.AFP_DIR = some a ∧ s.opendir c.ORG_DIR = some o ∧
    s'.resolve c.ORG_DIR = some o ∧ (s'.tree.folder o).keys.length = n ∧
    ∀ f t, s'.tree.fileAt (o, f) = some t →
      s.tree.fileAt (a, f) = some t ∧ s'.tree.fileAt (a, f) = none

/-- The two paths of a name lead from a file of `a` to the same name in `o`. -/
def Offers (c : Config) (v : FileSystem δ) (a o : δ) (f : FileName) : Prop :=
  ∃ n, v.tree.lead (v.path (under c.AFP_DIR f)) = some (a, n) ∧
    v.tree.lead (v.path (under c.ORG_DIR f)) = some (o, n) ∧
    (v.tree.fileAt (a, n)).isSome ∧ ∀ d, v.tree.node (o, n) ≠ some (.dir d)

def lastName (f : FileName) : Option (Component FileName) := (comps f.text).getLast?

theorem HandsOver.exists_file (h : HandsOver c n s s') (hn : 0 < n) :
    ∃ a o f t, s.opendir c.ORG_DIR = some o ∧ s'.tree.fileAt (o, f) = some t ∧
      s.tree.fileAt (a, f) = some t ∧ s'.tree.fileAt (a, f) = none := by
  obtain ⟨a, o, -, ho, -, hlen, htaken⟩ := h
  obtain ⟨f, hf⟩ := List.exists_mem_of_length_pos (l := (s'.tree.folder o).keys) (by omega)
  obtain ⟨t, ht⟩ := Option.isSome_iff_exists.mp
    ((Tree.mem_folder s'.tree o f).mp (AList.mem_keys.mpr hf))
  exact ⟨a, o, f, t, ho, ht, htaken f t ht⟩

section Paths

theorem getLast_under (v : FileSystem δ) (dir : Text) (hf : Ends f) :
    (v.path (under dir f)).comps.getLast? = lastName f := by
  rw [path_under, List.getLast?_append_of_ne_nil _ hf.1]
  rfl

theorem brings_iff (hempty : v.tree.names o = ∅) (hf : Ends f) :
    (∃ n, v.tree.Brings o (v.path (under c.AFP_DIR f), v.path (under c.ORG_DIR f)) (a, n)) ↔
      Offers c v a o f := by
  refine exists_congr fun n ↦ ?_
  constructor
  · intro h
    exact ⟨h.source, h.target, h.file, h.free⟩
  · intro h
    obtain ⟨hsource, htarget, hfile, hfree⟩ := h
    have hout : a ≠ o := by
      rintro rfl
      rw [← Tree.mem_names, hempty] at hfile
      exact absurd hfile (Finset.notMem_empty _)
    have hslashes : ∀ dir, (v.path (under dir f)).slash = false := by
      intro dir
      rw [path_under, slash_under hf.ne_nil, hf.2]
    exact ⟨hsource, htarget, hout, hfile, hfree, hslashes _, hslashes _⟩

theorem Offers.resolve (h : Offers c v a o f) (hf : Ends f) :
    (∃ d, v.resolve c.AFP_DIR = some d) ∧ ∃ d, v.resolve c.ORG_DIR = some d := by
  obtain ⟨n, hsource, htarget, -⟩ := h
  rw [lead_under hf.1] at hsource htarget
  obtain ⟨d, hd, -⟩ := Option.bind_eq_some_iff.mp hsource
  obtain ⟨d', hd', -⟩ := Option.bind_eq_some_iff.mp htarget
  exact ⟨⟨d, hd⟩, d', hd'⟩

theorem opendir_eq_some_iff {dir : Text} :
    u.opendir dir = some o ↔ dir ≠ [] ∧ u.resolve dir = some o := by
  rw [FileSystem.opendir]
  split_ifs with h <;> simp [h]

end Paths

variable [DecidableEq δ]

theorem topAfpFile_read (ht : topAfpFile c e num g = some (n, u)) (hn : 0 < n) :
    n = (offeredBy c num g).length ∧ ∀ t, u.read c.WRK_DIR topAfpsFile = some t →
      reads MAX_LINE_LEN t = (offeredBy c num g).map nameText := by
  obtain ⟨⟨count, wrk⟩, htop, ht⟩ := Option.bind_eq_some_iff.mp ht
  obtain ⟨rfl, rfl⟩ := Prod.mk.inj (Option.some.inj ht)
  obtain ⟨hcount, hopen, t, rfl, hreads⟩ := topAfpFile_offered htop (by omega)
  have hcreates : g.creates c.WRK_DIR topAfpsFile = true := (Bool.and_eq_true_iff.mp hopen).2
  refine ⟨hcount, ?_⟩
  intro t' ht'
  have hread := read_setFiles hcreates ((g.folder c.WRK_DIR).write topAfpsFile t).files
  rw [lookup_write_self] at hread
  obtain rfl := Option.some.inj (ht'.symm.trans hread)
  exact hreads

theorem names_clear (u : FileSystem δ) (o : δ) : (u.clear o).tree.names o = ∅ := by
  apply Finset.eq_empty_of_forall_notMem
  intro n hn
  have hfile : (u.clear o).tree.fileAt (o, n) = none := by
    rw [FileSystem.clear, Tree.fileAt_clear, if_pos rfl]
  rw [Tree.mem_names, hfile] at hn
  cases hn

theorem fileAt_of_clear {p : δ × FileName} {x : Text}
    (h : (u.clear o).tree.fileAt p = some x) : u.tree.fileAt p = some x := by
  rw [FileSystem.clear, Tree.fileAt_clear] at h
  exact (Option.ite_none_left_eq_some.mp h).2

variable [Fintype δ]

variable {names : List FileName}

omit [DecidableEq δ] [Fintype δ] in
theorem bringsAll_moves_iff (hempty : v.tree.names o = ∅) (hnames : ∀ f ∈ names, Ends f) :
    ((∀ m ∈ moves v c.AFP_DIR c.ORG_DIR names, ∃ n, v.tree.Brings o m (a, n)) ∧
      ((moves v c.AFP_DIR c.ORG_DIR names).map Tree.lastName).Nodup) ↔
    (∀ f ∈ names, Offers c v a o f) ∧ (names.map lastName).Nodup := by
  have hlast : (moves v c.AFP_DIR c.ORG_DIR names).map Tree.lastName = names.map lastName := by
    rw [moves, List.map_map]
    exact List.map_congr_left fun f hf ↦ getLast_under _ _ (hnames f hf)
  rw [hlast, moves, List.forall_mem_map]
  exact and_congr_left' (forall₂_congr fun f hf ↦ brings_iff hempty (hnames f hf))

theorem renameAll_fills_iff (a : δ) (hempty : v.tree.names o = ∅)
    (hnames : ∀ f ∈ names, Ends f) :
    (((v.renameAll c.AFP_DIR c.ORG_DIR names).tree.folder o).keys.length = names.length ∧
      ∀ f t, (v.renameAll c.AFP_DIR c.ORG_DIR names).tree.fileAt (o, f) = some t →
        v.tree.fileAt (a, f) = some t ∧
          (v.renameAll c.AFP_DIR c.ORG_DIR names).tree.fileAt (a, f) = none) ↔
    (∀ f ∈ names, Offers c v a o f) ∧ (names.map lastName).Nodup := by
  have hsame : ∀ m ∈ moves v c.AFP_DIR c.ORG_DIR names, Tree.SameName m := by
    refine List.forall_mem_map.mpr fun f hf ↦ ?_
    rw [Tree.SameName, Tree.lastName, getLast_under _ _ (hnames f hf),
      getLast_under _ _ (hnames f hf)]
  have hlen : (moves v c.AFP_DIR c.ORG_DIR names).length = names.length := List.length_map _
  rw [← bringsAll_moves_iff hempty hnames, ← Tree.renameAll_fills_iff a hsame hempty,
    Tree.card_names, hlen, renameAll_eq]

theorem resolve_renameAll (hempty : v.tree.names o = ∅) (hnames : ∀ f ∈ names, Ends f)
    (h : (∀ f ∈ names, Offers c v a o f) ∧ (names.map lastName).Nodup) (dir : Text) :
    (v.renameAll c.AFP_DIR c.ORG_DIR names).resolve dir = v.resolve dir := by
  obtain ⟨hbrings, hnodup⟩ := (bringsAll_moves_iff hempty hnames).mpr h
  rw [renameAll_eq]
  exact Tree.walk_renameAll ⟨fun m hm ↦ (hbrings m hm).imp' _ fun _ hp ↦ hp, hnodup⟩ _ _

theorem renameAll_handsOver_iff (ho : u.opendir c.ORG_DIR = some o) (hne : names ≠ [])
    (hnames : ∀ f ∈ names, Ends f) :
    HandsOver c names.length u ((u.clear o).renameAll c.AFP_DIR c.ORG_DIR names) ↔
      ∃ a, (u.clear o).resolve c.AFP_DIR = some a ∧
        (∀ f ∈ names, Offers c (u.clear o) a o f) ∧ (names.map lastName).Nodup := by
  have hempty := names_clear u o
  obtain ⟨f₀, hf₀⟩ := List.exists_mem_of_ne_nil names hne
  have hresolve : ∀ {a}, (∀ f ∈ names, Offers c (u.clear o) a o f) →
      ∃ d, (u.clear o).resolve c.AFP_DIR = some d ∧ u.resolve c.AFP_DIR = some d ∧
        (u.clear o).resolve c.ORG_DIR = some o := by
    intro a hoffers
    obtain ⟨⟨d, hd⟩, d', hd'⟩ := (hoffers f₀ hf₀).resolve (hnames f₀ hf₀)
    have hbefore : u.resolve c.ORG_DIR = some d' := Tree.walk_of_clear hd'
    obtain rfl := Option.some.inj (hbefore.symm.trans (opendir_eq_some_iff.mp ho).2)
    exact ⟨d, hd, Tree.walk_of_clear hd, hd'⟩
  constructor
  · intro h
    obtain ⟨a, o', ha, ho', -, hlen, htaken⟩ := h
    obtain rfl := Option.some.inj (ho'.symm.trans ho)
    have hfills := (renameAll_fills_iff a hempty hnames).mp ⟨by exact_mod_cast hlen, ?_⟩
    · obtain ⟨d, hd, hda, -⟩ := hresolve hfills.1
      obtain rfl := Option.some.inj (hda.symm.trans ha)
      exact ⟨d, hd, hfills⟩
    · intro f t ht
      obtain ⟨hfrom, hgone⟩ := htaken f t ht
      have hother : a ≠ o' := by
        rintro rfl
        rw [ht] at hgone
        cases hgone
      refine ⟨?_, hgone⟩
      rw [FileSystem.clear, Tree.fileAt_clear, if_neg hother, hfrom]
  · intro h
    obtain ⟨a, ha, hoffers⟩ := h
    obtain ⟨hlen, htaken⟩ := (renameAll_fills_iff a hempty hnames).mpr hoffers
    obtain ⟨d, hd, hda, horg⟩ := hresolve hoffers.1
    obtain rfl := Option.some.inj (hd.symm.trans ha)
    refine ⟨d, o, hda, ho, ?_, by exact_mod_cast hlen, ?_⟩
    · rw [resolve_renameAll hempty hnames hoffers, horg]
    · intro f t ht
      obtain ⟨hfrom, hgone⟩ := htaken f t ht
      exact ⟨fileAt_of_clear hfrom, hgone⟩

theorem preconf_ok (hg : gather σ c e 0 s = some g) (ht : topAfpFile c e num g = some (n, u))
    (hp : preconf σ c e num s = some ((.ok, m), s')) :
    m = n ∧ 0 < n ∧ ∃ r, movAfpFile c e u = some (r, s') := by
  simp only [preconf, hg, ht, Option.bind_eq_bind, Option.bind_some] at hp
  split at hp
  · simp at hp
  · next hpos =>
    obtain ⟨⟨r, s''⟩, hmov, hp⟩ := Option.bind_eq_some_iff.mp hp
    obtain ⟨hm, rfl⟩ := Prod.mk.inj (Option.some.inj hp)
    exact ⟨(Prod.mk.inj hm).2.symm, not_le.mp hpos, r, hmov⟩

/-- The count that a group reports is the number of files it hands over exactly when
`movAfpFile` can open what it opens and, with ORG_DIR emptied, the paths of each song it
offers lead from a file of AFP_DIR to ORG_DIR, no two to one name. -/
theorem preconf_hands_over_iff (hg : gather σ c e 0 s = some g)
    (ht : topAfpFile c e num g = some (n, u))
    (hp : preconf σ c e num s = some ((.ok, m), s')) :
    HandsOver c m u s' ↔ e.mov.call 0 = true ∧ e.mov.call 1 = true ∧
      ∃ o, u.opendir c.ORG_DIR = some o ∧ ((u.clear o).read c.WRK_DIR topAfpsFile).isSome ∧
        ∃ a, (u.clear o).resolve c.AFP_DIR = some a ∧
          (∀ f ∈ offeredBy c num g, Offers c (u.clear o) a o f) ∧
          ((offeredBy c num g).map lastName).Nodup := by
  obtain ⟨rfl, hpos, r, hmov⟩ := preconf_ok hg ht hp
  obtain ⟨hcount, hreads⟩ := topAfpFile_read ht hpos
  obtain ⟨hclosed, -, rfl⟩ | ⟨o, h0, ho, hcase⟩ := movFiles_cases hmov
  · -- ORG_DIR cannot be listed, and Preconf does not look at the result
    apply iff_of_false
    · intro h
      obtain ⟨a, o, f, t, -, -, hfrom, hgone⟩ := h.exists_file hpos
      rw [hfrom] at hgone
      cases hgone
    · rintro ⟨h0, -, o, ho, -⟩
      rw [hclosed h0] at ho
      cases ho
  · obtain ⟨hunread, -, rfl⟩ | ⟨h1, -, bytes, names, hread, hnames, rfl⟩ := hcase
    · -- the list of names cannot be opened, after ORG_DIR was emptied
      apply iff_of_false
      · intro h
        obtain ⟨a, o', f, t, ho', hin, -⟩ := h.exists_file hpos
        obtain rfl := Option.some.inj (ho'.symm.trans ho)
        rw [FileSystem.clear, Tree.fileAt_clear, if_pos rfl] at hin
        cases hin
      · rintro ⟨-, h1, o', ho', hread, -⟩
        obtain rfl := Option.some.inj (ho'.symm.trans ho)
        rw [hunread h1] at hread
        cases hread
    · rw [hreads bytes (read_clear hread), id_eq] at hnames
      have hlines := mapM_chop (List.forall_mem_map.mpr fun f _ ↦ ⟨f, rfl⟩) hnames
      obtain rfl := List.map_injective_iff.mpr nameText_injective hlines
      have hne : offeredBy c num g ≠ [] := by
        intro hnil
        rw [hcount, hnil] at hpos
        cases hpos
      rw [hcount, renameAll_handsOver_iff ho hne fun f hf ↦ ends_of_offered hf]
      simp [h0, h1, ho, hread]

def groupFiles (afp : List (String × Text)) (log : String) : FileSystem (Fin 6) :=
  hostFiles afp [("server.log", log.toList)] []

def dottedFiles : FileSystem (Fin 6) :=
  groupFiles [("0.afp", ['z']), ("5.afp", ['x'])] "$$|./5|\n"

theorem preconf_hands_over_iff_dotted : ∃ g u s',
    gather (insertion _) dirs quietRound 0 dottedFiles = some g ∧
      topAfpFile dirs quietRound 0 g = some (1, u) ∧
      preconf (insertion _) dirs quietRound 0 dottedFiles = some ((.ok, 1), s') ∧
      HandsOver dirs 1 u s' := by
  obtain ⟨g, u, s', hg, hu, hs, ho, hread, ha, hoffered, hsource, htarget, hfile, hnode⟩ :
      ∃ g u s', gather (insertion _) dirs quietRound 0 dottedFiles = some g ∧
        topAfpFile dirs quietRound 0 g = some (1, u) ∧
        preconf (insertion _) dirs quietRound 0 dottedFiles = some ((.ok, 1), s') ∧
        u.opendir dirs.ORG_DIR = some 4 ∧
        ((u.clear 4).read dirs.WRK_DIR topAfpsFile).isSome ∧
        (u.clear 4).resolve dirs.AFP_DIR = some 1 ∧
        offeredBy dirs 0 g = [.ofC "./5.afp".toList] ∧
        (u.clear 4).tree.lead ((u.clear 4).path "afp/./5.afp".toList) =
          some (1, .ofC "5.afp".toList) ∧
        (u.clear 4).tree.lead ((u.clear 4).path "org/./5.afp".toList) =
          some (4, .ofC "5.afp".toList) ∧
        ((u.clear 4).tree.fileAt (1, .ofC "5.afp".toList)).isSome ∧
        (u.clear 4).tree.node (4, .ofC "5.afp".toList) = none := by
    refine ⟨_, _, _, rfl, rfl, rfl, ?_, ?_, ?_, ?_, ?_, ?_, ?_, rfl⟩ <;> decide +kernel
  refine ⟨g, u, s', hg, hu, hs, (preconf_hands_over_iff hg hu hs).mpr
    ⟨rfl, rfl, 4, ho, hread, 1, ha, ?_, ?_⟩⟩
  · rw [hoffered]
    intro f hf
    obtain rfl := List.mem_singleton.mp hf
    exact ⟨_, hsource, htarget, hfile, fun d ↦ by rw [hnode]; nofun⟩
  · rw [hoffered]
    exact List.nodup_singleton _

/-- The search for `05` is counted for the file `5.afp`, which is not moved. -/
theorem preconf_reports_unmoved : ∃ g u s',
    gather (insertion _) dirs quietRound 0 (groupFiles [("5.afp", ['x'])] "$$|05|\n") = some g ∧
      topAfpFile dirs quietRound 0 g = some (1, u) ∧
      preconf (insertion _) dirs quietRound 0 (groupFiles [("5.afp", ['x'])] "$$|05|\n") =
        some ((.ok, 1), s') ∧ ¬ HandsOver dirs 1 u s' := by
  refine ⟨_, _, _, rfl, rfl, rfl, ?_⟩
  intro h
  obtain ⟨a, o, -, ho, -, hlen, -⟩ := h
  obtain rfl : 4 = o := Option.some.inj ho
  exact absurd hlen (by decide +kernel)

end FingerMove.Service.Resolved
