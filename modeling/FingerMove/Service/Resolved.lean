import FingerMove.Library.Renames
import FingerMove.Service.Autoconf
import FingerMove.Service.Disk
import FingerMove.Service.Preconf

namespace FingerMove.Service.Resolved

open CText Directory Tally FileTree ProDeal

/-- The files of a host, and the calls of `rename` so far. -/
structure FileSystem (δ : Type) where
  root : δ
  cwd : δ
  tree : Tree δ FileName Text
  renamed : List (Text × Text)

def comps (path : Text) : List (Component FileName) :=
  (Confined.components path).map (Component.map FileName.ofC)

def under (dir : Text) (n : FileName) : Text := dir ++ '/' :: n.text

def fits (dir : Text) (n : FileName) : Bool := (sprintf MAX_NAME_LEN (under dir n)).isSome

/-- The calls that the system allows, where those in `bs` can succeed only if what they
open is there. -/
def within (o : Opens) (bs : List Bool) : Opens :=
  { o with call := fun k ↦ o.call k && bs.getD k true }

namespace FileSystem

variable {δ : Type} (s : FileSystem δ)

def path (x : Text) : Path δ FileName :=
  ⟨if x.head? = some '/' then s.root else s.cwd, comps x, Confined.slash x⟩

/-- The directory of a setting, as the paths that begin with it find it. -/
def resolve (dir : Text) : Option δ :=
  s.tree.walk (s.path (dir ++ ['/'])).start (comps dir)

def opendir (dir : Text) : Option δ := if dir = [] then none else s.resolve dir

def read (dir : Text) (n : FileName) : Option Text :=
  (s.resolve dir).bind fun d ↦ s.tree.fileAt (d, n)

def creates (dir : Text) (n : FileName) : Bool :=
  match s.resolve dir with
  | none => false
  | some d =>
    match s.tree.node (d, n) with
    | some (.dir _) => false
    | _ => true

/-- The files of a directory, as a folder of their own. -/
def folder (dir : Text) : Folder :=
  ⟨dir, (s.resolve dir).elim ∅ s.tree.folder⟩

/-- What `readdir` lists; the text of a subdirectory stands for nothing. -/
def listing (dir : Text) : Folder :=
  ⟨dir, (s.resolve dir).elim ∅ fun d ↦ filterMap (fun x ↦ some (x.text.getD [])) (s.tree.entries d)⟩

variable [DecidableEq δ]

def setFiles (dir : Text) (F : Dir FileName Text) : FileSystem δ :=
  match s.resolve dir with
  | none => s
  | some d => { s with tree := s.tree.setFiles d F }

def clear (d : δ) : FileSystem δ := { s with tree := s.tree.clear d }

variable [Fintype δ]

def rename (old new : Text) : FileSystem δ :=
  { s with
    tree := s.tree.rename (s.path old) (s.path new)
    renamed := s.renamed ++ [(old, new)] }

def renameAll (org dst : Text) (names : List FileName) : FileSystem δ :=
  names.foldl (fun s n ↦ s.rename (under org n) (under dst n)) s

end FileSystem

section Stages

variable {δ : Type} [DecidableEq δ] (σ : Sorter (Text × ℕ)) (c : Config) (e : Round)

def gatherCodes (flg : ℤ) (s : FileSystem δ) : Option (List ℤ × FileSystem δ) := do
  let names := within e.names [(s.opendir c.AFP_DIR).isSome, s.creates c.WRK_DIR afpNameFile]
  let (named, wrk) ← getAfpName names (s.listing c.AFP_DIR) (s.folder c.WRK_DIR)
  let s := s.setFiles c.WRK_DIR wrk.files
  let logs := within e.logs [(s.opendir c.LOG_DIR).isSome, (s.opendir c.DAT_DIR).isSome]
  let (moved, dat, log) ← movLogFile logs e.cutoff (s.folder c.DAT_DIR) (s.folder c.LOG_DIR)
  let s := (s.setFiles c.DAT_DIR dat.files).setFiles c.LOG_DIR log.files
  let counts := within e.counts [(s.opendir c.LOG_DIR).isSome, s.creates c.WRK_DIR logNumCount]
  let (counted, wrk) ← cntSrhNums counts σ (s.folder c.LOG_DIR) (s.folder c.WRK_DIR) flg
  let s := s.setFiles c.WRK_DIR wrk.files
  let filter := within e.filter [true, true, s.creates c.WRK_DIR fltLogsFile]
  let (kept, wrk) ← fltLogFile filter (s.folder c.WRK_DIR) (s.folder c.WRK_DIR)
  return ([named, moved, counted, kept], s.setFiles c.WRK_DIR wrk.files)

def gather (flg : ℤ) (s : FileSystem δ) : Option (FileSystem δ) :=
  (gatherCodes σ c e flg s).map Prod.snd

def topAfpFile (num : ℤ) (s : FileSystem δ) : Option (ℤ × FileSystem δ) := do
  let select := within e.select [true, s.creates c.WRK_DIR topAfpsFile]
  let wrk := s.folder c.WRK_DIR
  let (count, wrk) ← ProDeal.topAfpFile select c.GROUP_LIMIT wrk wrk num
  return (count, s.setFiles c.WRK_DIR wrk.files)

def botAfpFile (s : FileSystem δ) : Option (ℤ × FileSystem δ) := do
  let select := within e.select [true, true, s.creates c.WRK_DIR botAfpsFile]
  let wrk := s.folder c.WRK_DIR
  let (thr, wrk) ← ProDeal.botAfpFile select c.CACHE_LIMIT wrk wrk
  return (thr, s.setFiles c.WRK_DIR wrk.files)

variable [Fintype δ]

def movFiles (o : Opens) (org dst wrk : Text) (list : FileName) (take : List Text → List Text)
    (s : FileSystem δ) : Option (ℤ × FileSystem δ) := do
  let some d := if o.call 0 then s.opendir dst else none | return (-1, s)
  guard ((s.tree.entries d).keys.all (fits dst))
  let s := s.clear d
  guard (fits wrk list)
  let some bytes := if o.call 1 then s.read wrk list else none | return (-1, s)
  let names ← (take (reads MAX_LINE_LEN bytes)).mapM chop
  guard (names.all fun n ↦ fits org n && fits dst n)
  return (0, s.renameAll org dst names)

def movAfpFile (s : FileSystem δ) : Option (ℤ × FileSystem δ) :=
  movFiles e.mov c.AFP_DIR c.ORG_DIR c.WRK_DIR topAfpsFile id s

def movCntFile (o : Opens) (pos cnt : ℤ) (s : FileSystem δ) : Option (ℤ × FileSystem δ) :=
  movFiles o c.AFP_DIR c.ORG_DIR c.WRK_DIR botAfpsFile (window pos cnt 0) s

def preconf (num : ℤ) (s : FileSystem δ) : Option ((Status × ℤ) × FileSystem δ) := do
  let s ← gather σ c e 0 s
  let (count, s) ← topAfpFile c e num s
  if count ≤ 0 then return ((.cancelled, 0), s)
  let (_, s) ← movAfpFile c e s
  return ((.ok, count), s)

/-- An iteration of the inner loop of `runLoop` on the files of the main cache, which
`afpMove` sends and does not change. -/
def visit (sl : FileSystem δ × ℤ) (v : Rounds.Visit) : Option (FileSystem δ × ℤ) := do
  let (s, lineCount) := sl
  let some result := v.result | return (s, lineCount)
  let (_, s) ← movCntFile c v.mov lineCount result s
  return (s, lineCount + result)

end Stages

section Paths

variable {δ : Type} {s : FileSystem δ} {org dst dir : Text} {n : FileName}

theorem comps_under (dir : Text) (n : FileName) :
    comps (under dir n) = comps dir ++ comps n.text := by
  rw [comps, under, Confined.components_append, List.map_append]
  rfl

theorem path_under (s : FileSystem δ) (dir : Text) (n : FileName) : s.path (under dir n) =
    ⟨(s.path (dir ++ ['/'])).start, comps dir ++ comps n.text, Confined.slash (under dir n)⟩ := by
  rw [FileSystem.path, comps_under, FileSystem.path]
  cases dir <;> rfl

theorem lead_under (hn : comps n.text ≠ []) : s.tree.lead (s.path (under dir n)) =
    (s.resolve dir).bind fun d ↦ s.tree.entry d (comps n.text) := by
  rw [path_under, Tree.lead, Tree.entry_append hn]
  rfl

theorem slash_under (hn : n.text ≠ []) :
    Confined.slash (under dir n) = Confined.slash n.text := Confined.slash_path_of_ne hn

variable [DecidableEq δ] [Fintype δ]

def moves (s : FileSystem δ) (org dst : Text) (names : List FileName) :
    List (Path δ FileName × Path δ FileName) :=
  names.map fun n ↦ (s.path (under org n), s.path (under dst n))

theorem renameAll_eq (s : FileSystem δ) (org dst : Text) (names : List FileName) :
    s.renameAll org dst names =
      { s with
        tree := s.tree.renameAll (moves s org dst names)
        renamed := s.renamed ++ names.map fun n ↦ (under org n, under dst n) } := by
  induction names generalizing s with
  | nil => simp [FileSystem.renameAll, moves, Tree.renameAll]
  | cons n names ih =>
    have hcons : s.renameAll org dst (n :: names) =
        (s.rename (under org n) (under dst n)).renameAll org dst names := rfl
    rw [hcons, ih, FileSystem.rename, List.map_cons, List.append_assoc, List.singleton_append]
    rfl

omit [Fintype δ] in
theorem resolve_setFiles (s : FileSystem δ) (d : Text) (F : Dir FileName Text) (dir : Text) :
    (s.setFiles d F).resolve dir = s.resolve dir := by
  unfold FileSystem.setFiles
  split
  · rfl
  · exact Tree.walk_setFiles _ _ _ _ _

omit [Fintype δ] in
theorem read_setFiles (h : s.creates dir n = true) (F : Dir FileName Text) :
    (s.setFiles dir F).read dir n = F.lookup n := by
  rw [FileSystem.read, resolve_setFiles]
  unfold FileSystem.creates at h
  unfold FileSystem.setFiles
  split at h
  · cases h
  · next d hd =>
    rw [hd, Option.bind_some]
    split at h
    · cases h
    · next hnode => exact Tree.fileAt_setFiles hnode F

omit [Fintype δ] in
theorem read_clear {o : δ} {x : Text} (h : (s.clear o).read dir n = some x) :
    s.read dir n = some x := by
  obtain ⟨d, hd, hx⟩ := Option.bind_eq_some_iff.mp h
  have hbefore : s.resolve dir = some d := Tree.walk_of_clear hd
  rw [FileSystem.read, hbefore, Option.bind_some]
  have hx' : (s.tree.clear o).fileAt (d, n) = some x := hx
  rw [Tree.fileAt_clear] at hx'
  exact (Option.ite_none_left_eq_some.mp hx').2

theorem movFiles_cases {o : Opens} {wrk : Text} {list : FileName} {take : List Text → List Text}
    {r : ℤ} {s' : FileSystem δ} (h : movFiles o org dst wrk list take s = some (r, s')) :
    ((o.call 0 = true → s.opendir dst = none) ∧ r = -1 ∧ s' = s) ∨
      ∃ d, o.call 0 = true ∧ s.opendir dst = some d ∧
        ((o.call 1 = true → (s.clear d).read wrk list = none) ∧ r = -1 ∧ s' = s.clear d ∨
          o.call 1 = true ∧ r = 0 ∧ ∃ bytes names, (s.clear d).read wrk list = some bytes ∧
            (take (reads MAX_LINE_LEN bytes)).mapM chop = some names ∧
            s' = (s.clear d).renameAll org dst names) := by
  unfold movFiles at h
  cases h0 : o.call 0 with
  | false =>
    rw [h0] at h
    obtain ⟨rfl, rfl⟩ := Prod.mk.inj (Option.some.inj h)
    exact .inl ⟨nofun, rfl, rfl⟩
  | true =>
    cases hd : s.opendir dst with
    | none =>
      rw [h0, if_pos rfl, hd] at h
      obtain ⟨rfl, rfl⟩ := Prod.mk.inj (Option.some.inj h)
      exact .inl ⟨fun _ ↦ rfl, rfl, rfl⟩
    | some d =>
      rw [h0, if_pos rfl, hd] at h
      obtain ⟨_, -, h⟩ := Option.bind_eq_some_iff.mp h
      obtain ⟨_, -, h⟩ := Option.bind_eq_some_iff.mp h
      refine .inr ⟨d, rfl, rfl, ?_⟩
      cases h1 : o.call 1 with
      | false =>
        rw [h1] at h
        obtain ⟨rfl, rfl⟩ := Prod.mk.inj (Option.some.inj h)
        exact .inl ⟨nofun, rfl, rfl⟩
      | true =>
        rw [h1, if_pos rfl] at h
        cases hread : (s.clear d).read wrk list with
        | none =>
          rw [hread] at h
          obtain ⟨rfl, rfl⟩ := Prod.mk.inj (Option.some.inj h)
          exact .inl ⟨fun _ ↦ rfl, rfl, rfl⟩
        | some bytes =>
          rw [hread] at h
          obtain ⟨names, hnames, h⟩ := Option.bind_eq_some_iff.mp h
          obtain ⟨_, -, h⟩ := Option.bind_eq_some_iff.mp h
          obtain ⟨rfl, rfl⟩ := Prod.mk.inj (Option.some.inj h)
          exact .inr ⟨rfl, rfl, bytes, names, rfl, hnames, rfl⟩

end Paths

section Hosts

def dirs : Config where
  AFP_DIR := "afp".toList
  DAT_DIR := "runlog".toList
  WRK_DIR := "wrk".toList
  ORG_DIR := "org".toList
  LOG_DIR := "log".toList
  GROUP_LIMIT := 9
  CACHE_LIMIT := 9

def filesOf {δ : Type} (l : List (String × Text)) : Dir FileName (Node δ Text) :=
  (l.map fun x ↦ (⟨.ofC x.1.toList, .file x.2⟩ : Sigma fun _ ↦ Node δ Text)).toAList

def dirsOf {δ : Type} (l : List (String × δ)) : Dir FileName (Node δ Text) :=
  (l.map fun x ↦ (⟨.ofC x.1.toList, .dir x.2⟩ : Sigma fun _ ↦ Node δ Text)).toAList

def hostFiles (afp dat wrk : List (String × Text)) : FileSystem (Fin 6) where
  root := 0
  cwd := 0
  tree := {
    parent := fun _ ↦ 0
    entries := fun
      | 0 => dirsOf [("afp", 1), ("runlog", 2), ("wrk", 3), ("org", 4), ("log", 5)]
      | 1 => filesOf afp
      | 2 => filesOf dat
      | 3 => filesOf wrk
      | _ => ∅ }
  renamed := []

end Hosts

end FingerMove.Service.Resolved
