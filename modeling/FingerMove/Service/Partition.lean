import FingerMove.Service.Resolved
import FingerMove.Service.Windows

namespace FingerMove.Service.Resolved

open CText Directory FileTree ProDeal Windows Rounds

section Visits

variable {δ : Type} [DecidableEq δ] [Fintype δ] (c : Config)

def before (vs : List Visit) (s : FileSystem δ) (i : ℕ) : Option (FileSystem δ × ℤ) :=
  (vs.take i).foldlM (visit c) (s, 0)

def part (names : List FileName) (vs : List Visit) (i : ℕ) : List FileName :=
  (names.take (start (shares vs) (i + 1))).drop (start (shares vs) i)

def renames (ns : List FileName) : List (Text × Text) :=
  ns.map fun n ↦ (under c.AFP_DIR n, under c.ORG_DIR n)

/-- The visit with the index `i` hands the lines of its window to `rename`, in order; one
without an answer leaves everything as it is. -/
def Attempts (names : List FileName) (vs : List Visit) (s : FileSystem δ) (i : ℕ) : Prop :=
  ∃ u t : FileSystem δ, before c vs s i = some (u, (start (shares vs) i : ℤ)) ∧
    before c vs s (i + 1) = some (t, (start (shares vs) (i + 1) : ℤ)) ∧
    t.renamed = u.renamed ++ renames c (part names vs i) ∧
    ∀ v, vs[i]? = some v → v.result = none → t = u

def Openable (names : List FileName) (u : FileSystem δ) (v : Visit) : Prop :=
  v.mov.call 0 = true ∧ v.mov.call 1 = true ∧ ∃ o, u.opendir c.ORG_DIR = some o ∧
    (u.clear o).read c.WRK_DIR botAfpsFile = some (names.map nameText).flatten

/-- The paths that a call of `movCntFile` writes out fit in its buffers. -/
def Room (ns : List FileName) (u : FileSystem δ) : Prop :=
  (∀ o, u.opendir c.ORG_DIR = some o → ∀ n ∈ (u.tree.entries o).keys, fits c.ORG_DIR n = true) ∧
    fits c.WRK_DIR botAfpsFile = true ∧
    ∀ n ∈ ns, fits c.AFP_DIR n = true ∧ fits c.ORG_DIR n = true

variable {c} {names : List FileName} {u t s : FileSystem δ} {v : Visit} {vs : List Visit}
variable {i pos cnt : ℕ} {n : ℤ}

theorem movCntFile_eq (hopen : Openable c names u v)
    (hnames : ∀ n ∈ names, '\n' ∉ n.text ∧ (nameText n).length < MAX_LINE_LEN) (pos cnt : ℕ) :
    (Room c ((names.drop pos).take cnt) u → ∃ o, movCntFile c v.mov pos cnt u =
      some (0, (u.clear o).renameAll c.AFP_DIR c.ORG_DIR ((names.drop pos).take cnt))) ∧
    ∀ x, movCntFile c v.mov pos cnt u = some x → Room c ((names.drop pos).take cnt) u := by
  obtain ⟨h0, h1, o, ho, hread⟩ := hopen
  have hwindow := window_names hnames pos cnt
  unfold movCntFile movFiles
  simp only [h0, h1, if_true, ho, hread, hwindow, Option.bind_eq_bind, Option.bind_some]
  constructor
  · intro hroom
    obtain ⟨horg, hwrk, hpaths⟩ := hroom
    have hall : (u.tree.entries o).keys.all (fits c.ORG_DIR) = true :=
      List.all_eq_true.mpr (horg o ho)
    have hfit : ((names.drop pos).take cnt).all
        (fun n ↦ fits c.AFP_DIR n && fits c.ORG_DIR n) = true :=
      List.all_eq_true.mpr fun n hn ↦ Bool.and_eq_true_iff.mpr (hpaths n hn)
    exact ⟨o, by simp only [hall, hwrk, hfit, guard_true]; rfl⟩
  · intro x hx
    obtain ⟨_, horg, hx⟩ := Option.bind_eq_some_iff.mp hx
    obtain ⟨_, hwrk, hx⟩ := Option.bind_eq_some_iff.mp hx
    obtain ⟨_, hpaths, -⟩ := Option.bind_eq_some_iff.mp hx
    replace horg := List.all_eq_true.mp ((Option.guard_eq_some' _).mp horg)
    replace hpaths := List.all_eq_true.mp ((Option.guard_eq_some' _).mp hpaths)
    refine ⟨fun o' ho' ↦ ?_, (Option.guard_eq_some' _).mp hwrk,
      fun n hn ↦ Bool.and_eq_true_iff.mp (hpaths n hn)⟩
    obtain rfl := Option.some.inj (ho'.symm.trans ho)
    exact horg

theorem before_succ (hi : vs[i]? = some v) :
    before c vs s (i + 1) = (before c vs s i).bind fun sl ↦ visit c sl v := by
  rw [before, List.take_add_one, hi, Option.toList_some, List.foldlM_append]
  exact congrArg _ (funext fun sl ↦ bind_pure _)

omit [DecidableEq δ] [Fintype δ] in
theorem start_visit (hi : vs[i]? = some v) :
    start (shares vs) (i + 1) = start (shares vs) i + v.share := by
  rw [start_succ, shares, List.getElem?_map, hi]
  rfl

theorem part_eq (hi : vs[i]? = some v) (names : List FileName) :
    part names vs i = (names.drop (start (shares vs) i)).take v.share := by
  rw [part, List.drop_take, start_visit hi, Nat.add_sub_cancel_left]

theorem visit_of_room (hopen : Openable c names u v)
    (hnames : ∀ n ∈ names, '\n' ∉ n.text ∧ (nameText n).length < MAX_LINE_LEN)
    (hresult : ∀ r, v.result = some r → 0 ≤ r) (hv : v.result ≠ none) (pos : ℕ) :
    (Room c ((names.drop pos).take v.share) u → ∃ t,
      visit c (u, pos) v = some (t, ↑(pos + v.share)) ∧
        t.renamed = u.renamed ++ renames c ((names.drop pos).take v.share)) ∧
    ∀ x, visit c (u, pos) v = some x → Room c ((names.drop pos).take v.share) u := by
  obtain ⟨r, hr⟩ := Option.ne_none_iff_exists'.mp hv
  have hshare : (v.share : ℤ) = r := by
    rw [Visit.share, hr, Option.getD_some, Int.toNat_of_nonneg (hresult r hr)]
  obtain ⟨hmoves, hroom⟩ := movCntFile_eq hopen hnames pos v.share
  rw [hshare] at hmoves hroom
  constructor
  · intro h
    obtain ⟨o, ho⟩ := hmoves h
    refine ⟨(u.clear o).renameAll c.AFP_DIR c.ORG_DIR ((names.drop pos).take v.share), ?_, ?_⟩
    · rw [visit]
      simp only [hr, ho, Option.bind_eq_bind, Option.bind_some, Nat.cast_add, hshare]
      rfl
    · rw [renameAll_eq]
      rfl
  · intro x hx
    rw [visit] at hx
    simp only [hr] at hx
    obtain ⟨y, hy, -⟩ := Option.bind_eq_some_iff.mp hx
    exact hroom y hy

theorem attempts_of_room (hi : vs[i]? = some v) (hresult : ∀ r, v.result = some r → 0 ≤ r)
    (hnames : ∀ n ∈ names, '\n' ∉ n.text ∧ (nameText n).length < MAX_LINE_LEN)
    (hbefore : before c vs s i = some (u, (start (shares vs) i : ℤ)))
    (hroom : v.result ≠ none → Openable c names u v ∧ Room c (part names vs i) u) :
    Attempts c names vs s i := by
  have hnext := before_succ (c := c) (s := s) hi
  rw [hbefore, Option.bind_some] at hnext
  by_cases hv : v.result = none
  · have hshare : v.share = 0 := by rw [Visit.share, hv]; rfl
    refine ⟨u, u, hbefore, ?_, ?_, fun _ _ _ ↦ rfl⟩
    · rw [hnext, start_visit hi, hshare, visit]
      simp only [hv]
      rfl
    · rw [part_eq hi, hshare, List.take_zero]
      exact (List.append_nil _).symm
  · obtain ⟨hopen, hfits⟩ := hroom hv
    rw [part_eq hi] at hfits
    obtain ⟨t, ht, hrenamed⟩ := (visit_of_room hopen hnames hresult hv _).1 hfits
    refine ⟨u, t, hbefore, ?_, ?_, fun v' hv' hnone ↦ ?_⟩
    · rw [hnext, ht, start_visit hi]
    · rw [part_eq hi, hrenamed]
    · obtain rfl := Option.some.inj (hi.symm.trans hv')
      exact absurd hnone hv

/-- Over a round the calls of `movCntFile` hand `rename` consecutive parts of the bottom
list, each as many lines as a group answered, exactly when their paths fit; no line is in
two parts, and each that the answers reach is in one. -/
theorem windows_partition_iff
    (hnames : ∀ n ∈ names, '\n' ∉ n.text ∧ (nameText n).length < MAX_LINE_LEN)
    (hresults : ∀ v ∈ vs, ∀ r, v.result = some r → 0 ≤ r)
    (hopens : ∀ i v u n, vs[i]? = some v → v.result ≠ none → before c vs s i = some (u, n) →
      Openable c names u v) :
    ((∀ i < vs.length, Attempts c names vs s i) ↔
      ∀ i v u n, vs[i]? = some v → v.result ≠ none → before c vs s i = some (u, n) →
        Room c (part names vs i) u) ∧
    (∀ i j k, Owns (shares vs) i k → Owns (shares vs) j k → i = j) ∧
    ∀ k < min (shares vs).sum names.length, ∃! i, Owns (shares vs) i k := by
  refine ⟨⟨?_, ?_⟩, fun i j k ↦ Owns.unique, fun k hk ↦ existsUnique_owner (lt_min_iff.mp hk).1⟩
  · intro h i v u n hi hv hu
    obtain ⟨hlt, hget⟩ := List.getElem?_eq_some_iff.mp hi
    obtain ⟨u', t, hu', ht, -⟩ := h i hlt
    obtain ⟨rfl, rfl⟩ := Prod.mk.inj (Option.some.inj (hu'.symm.trans hu))
    rw [before_succ hi, hu', Option.bind_some] at ht
    rw [part_eq hi]
    exact (visit_of_room (hopens i v u' _ hi hv hu) hnames
      (hresults v (hget ▸ List.getElem_mem hlt)) hv _).2 _ ht
  · intro h i
    induction i with
    | zero =>
      intro hlt
      have hi : vs[0]? = some vs[0] := List.getElem?_eq_getElem hlt
      refine attempts_of_room hi (hresults _ (List.getElem_mem hlt)) hnames rfl fun hv ↦ ?_
      exact ⟨hopens 0 _ s 0 hi hv rfl, h 0 _ s 0 hi hv rfl⟩
    | succ i ih =>
      intro hlt
      obtain ⟨-, u, -, hu, -⟩ := ih (Nat.lt_of_succ_lt hlt)
      have hi : vs[i + 1]? = some vs[i + 1] := List.getElem?_eq_getElem hlt
      refine attempts_of_room hi (hresults _ (List.getElem_mem hlt)) hnames hu fun hv ↦ ?_
      exact ⟨hopens (i + 1) _ u _ hi hv hu, h (i + 1) _ u _ hi hv hu⟩

end Visits

section TwoGroups

def listedFiles : FileSystem (Fin 6) :=
  hostFiles [("1.afp", ['x']), ("2.afp", ['y'])] []
    [("botAfpsFile.tmp", "1.afp\n2.afp\n".toList)]

theorem windows_partition_iff_twoGroups :
    (∀ i < 2, Attempts dirs twoNames twoGroups listedFiles i) ∧
      ∃! i, Owns (shares twoGroups) i 1 := by
  have hroom : ∀ {u : FileSystem (Fin 6)} {ns : List FileName},
      u.opendir dirs.ORG_DIR = some 4 →
      (∀ n ∈ (u.tree.entries 4).keys, fits dirs.ORG_DIR n = true) →
      (∀ n ∈ ns, fits dirs.AFP_DIR n = true ∧ fits dirs.ORG_DIR n = true) → Room dirs ns u := by
    intro u ns ho horg hpaths
    refine ⟨fun o ho' ↦ ?_, by decide +kernel, hpaths⟩
    obtain rfl := Option.some.inj (ho.symm.trans ho')
    exact horg
  have hcalls : ∀ i v u n, twoGroups[i]? = some v → v.result ≠ none →
      before dirs twoGroups listedFiles i = some (u, n) →
      Openable dirs twoNames u v ∧ Room dirs (part twoNames twoGroups i) u := by
    intro i v u n hi hv hu
    match i with
    | 0 =>
      obtain ⟨rfl, rfl⟩ := Prod.mk.inj (Option.some.inj hu)
      obtain rfl := Option.some.inj hi
      exact ⟨⟨rfl, rfl, 4, by decide +kernel, by decide +kernel⟩,
        hroom (by decide +kernel) (by decide +kernel) (by decide +kernel)⟩
    | 1 =>
      obtain ⟨u', hu', hopen, hfits⟩ : ∃ u', before dirs twoGroups listedFiles 1 = some (u', 1) ∧
          (∃ o, u'.opendir dirs.ORG_DIR = some o ∧ (u'.clear o).read dirs.WRK_DIR botAfpsFile =
            some (twoNames.map nameText).flatten) ∧
          Room dirs (part twoNames twoGroups 1) u' :=
        ⟨_, rfl, ⟨4, by decide +kernel, by decide +kernel⟩,
          hroom (by decide +kernel) (by decide +kernel) (by decide +kernel)⟩
      obtain ⟨rfl, rfl⟩ := Prod.mk.inj (Option.some.inj (hu'.symm.trans hu))
      obtain rfl := Option.some.inj hi
      exact ⟨⟨rfl, rfl, hopen⟩, hfits⟩
    | i + 2 => cases hi
  obtain ⟨hattempts, -, howner⟩ := @windows_partition_iff (Fin 6) _ _ dirs twoNames listedFiles
    twoGroups (by decide) (by decide) fun i v u n hi hv hu ↦ (hcalls i v u n hi hv hu).1
  exact ⟨hattempts.mpr fun i v u n hi hv hu ↦ (hcalls i v u n hi hv hu).2,
    howner 1 (by decide)⟩

def longName : FileName := .ofC (List.replicate 300 'a')

def longFiles : FileSystem (Fin 6) :=
  hostFiles [] [] [("botAfpsFile.tmp", nameText longName)]

theorem long_line_overflows :
    ('\n' ∉ longName.text ∧ (nameText longName).length < MAX_LINE_LEN) ∧
      Openable dirs [longName] longFiles (visitOf "g1" 1) ∧
      ¬ Attempts dirs [longName] [visitOf "g1" 1] longFiles 0 := by
  refine ⟨by decide +kernel, ⟨rfl, rfl, 4, by decide +kernel, by decide +kernel⟩, ?_⟩
  intro h
  obtain ⟨u, t, -, ht, -⟩ := h
  have hnone : (before dirs [visitOf "g1" 1] longFiles 1).isNone = true := by decide +kernel
  rw [ht] at hnone
  cases hnone

end TwoGroups

end FingerMove.Service.Resolved
