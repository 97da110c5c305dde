import FingerMove.Library.FileTree
import FingerMove.Service.Servers

namespace FingerMove.Service.Confined

open CText FileTree ProDeal Function

structure Disk (δ : Type) where
  root : δ
  cwd : δ
  tree : Tree δ Text Text
  touched : List (δ × Text)

def component (x : Text) : Component Text :=
  if x = ".".toList then .here else if x = "..".toList then .up else .name x

def components (path : Text) : List (Component Text) :=
  ((path.splitOn '/').filter (· ≠ [])).map component

def slash (path : Text) : Bool := path.getLast? = some '/'

namespace Disk

variable {δ : Type} (s : Disk δ)

def start (path : Text) : δ := if path.head? = some '/' then s.root else s.cwd

/-- The directory of a setting, as the paths that begin with it find it. -/
def resolve (dir : Text) : Option δ := s.tree.walk (s.start (dir ++ ['/'])) (components dir)

/-- The entry that `fopen(path, "wb")` creates or empties; `opened` says whether
the system allows it. -/
def fopenW (opened : Bool) (path : Text) : Option (δ × Text) :=
  if opened then s.tree.creates (s.start path) (components path) (slash path) else none

def removes (path : Text) : Option (δ × Text) :=
  s.tree.removes (s.start path) (components path) (slash path)

variable [DecidableEq δ]

def fwrite (p : δ × Text) (data : Text) : Disk δ :=
  { s with tree := s.tree.write p data, touched := s.touched ++ [p] }

def remove (allowed : Bool) (path : Text) : Option (Disk δ) := do
  guard allowed
  let p ← s.removes path
  return { s with tree := s.tree.erase p, touched := s.touched ++ [p] }

end Disk

section Paths

variable {δ : Type} {dir name u v : Text} {s : Disk δ}

def Fits (dir name : Text) : Prop := (dir ++ '/' :: cstr name).length < MAX_NAME_LEN

def aim (s : Disk δ) (dir name : Text) : Option (δ × Text) :=
  (s.resolve dir).bind fun d ↦ s.tree.creates d (components (cstr name)) (slash (cstr name))

theorem components_append (u v : Text) :
    components (u ++ '/' :: v) = components u ++ components v := by
  rw [components, List.splitOn_append_cons_self, List.filter_append, List.map_append]
  rfl

theorem components_of_noSlash (hne : v ≠ []) (hv : '/' ∉ v) : components v = [component v] := by
  rw [components, List.splitOn_eq_singleton hv, List.filter_cons_of_pos (by simpa using hne)]
  rfl

theorem slash_of_components (h : components v = []) : v = [] ∨ slash v = true := by
  induction hn : v.length using Nat.strong_induction_on generalizing v with
  | _ n ih =>
    rcases eq_or_ne v [] with rfl | hne
    · exact .inl rfl
    · right
      by_cases hv : '/' ∈ v
      · obtain ⟨a, b, rfl, ha⟩ := List.eq_append_cons_of_mem hv
        rw [components_append, List.append_eq_nil_iff] at h
        have hlt : b.length < n := by
          rw [← hn, List.length_append, List.length_cons]
          omega
        rcases ih b.length hlt h.2 rfl with rfl | hb
        · simp [slash]
        · simp only [slash, decide_eq_true_eq] at hb ⊢
          rw [List.getLast?_append, List.getLast?_cons, hb]
          rfl
      · rw [components_of_noSlash hne hv] at h
        cases h

theorem slash_path (h : components v = []) : slash (u ++ '/' :: v) = true := by
  simp only [slash, decide_eq_true_eq]
  rcases slash_of_components h with rfl | hv
  · rw [List.getLast?_concat]
  · rw [slash, decide_eq_true_eq] at hv
    rw [List.getLast?_append, List.getLast?_cons, hv]
    rfl

theorem slash_path_of_ne (hne : v ≠ []) : slash (u ++ '/' :: v) = slash v := by
  obtain ⟨c, v, rfl⟩ := List.exists_cons_of_ne_nil hne
  rw [slash, slash, List.getLast?_append, List.getLast?_cons_cons, List.getLast?_cons]
  rfl

theorem ne_nil_of_components (h : components v ≠ []) : v ≠ [] := by
  rintro rfl
  exact h rfl

theorem start_path (s : Disk δ) (u v : Text) : s.start (u ++ '/' :: v) = s.start (u ++ ['/']) := by
  cases u <;> rfl

theorem fopenW_path (s : Disk δ) (dir name : Text) :
    s.fopenW true (dir ++ '/' :: cstr name) = aim s dir name := by
  rw [Disk.fopenW, if_pos rfl, start_path, components_append]
  unfold aim
  rcases eq_or_ne (components (cstr name)) [] with h | h
  · rw [slash_path h, Tree.creates_slash, h]
    cases s.resolve dir <;> rfl
  · rw [slash_path_of_ne (ne_nil_of_components h), Tree.creates_append h]
    rfl

theorem removes_path (h : components (cstr name) ≠ []) :
    s.removes (dir ++ '/' :: cstr name) = (s.resolve dir).bind fun d ↦
      s.tree.removes d (components (cstr name)) (slash (cstr name)) := by
  rw [Disk.removes, start_path, components_append, slash_path_of_ne (ne_nil_of_components h),
    Tree.removes_append h]
  rfl

theorem removes_dir (h : components (cstr name) = []) :
    s.removes (dir ++ '/' :: cstr name) =
      s.tree.removes (s.start (dir ++ ['/'])) (components dir) true := by
  rw [Disk.removes, start_path, components_append, slash_path h, h, List.append_nil]

end Paths

section Plain

variable {δ : Type} {F : Folder} {s : Disk δ} {d : δ} {name : Text}

/-- A name as a directory can list it. -/
def Plain (x : Text) : Prop := x ≠ [] ∧ '/' ∉ x ∧ x ≠ ".".toList ∧ x ≠ "..".toList

def PlainLines (list : Text) : Prop :=
  ∀ line ∈ reads MAX_LINE_LEN list, ∀ n, chop line = some n → Plain n.text

structure Mirrors (F : Folder) (s : Disk δ) (d : δ) : Prop where
  dir : s.resolve F.path = some d
  files : ∀ f : FileName, Plain f.text → F.files.lookup f = s.tree.fileAt (d, f.text)

theorem components_plain (h : Plain (cstr name)) :
    components (cstr name) = [.name (cstr name)] := by
  obtain ⟨hne, hslash, hdot, hdots⟩ := h
  rw [components_of_noSlash hne hslash, component, if_neg hdot, if_neg hdots]

theorem slash_plain (h : Plain (cstr name)) : slash (cstr name) = false := by
  rw [slash, decide_eq_false_iff_not]
  exact fun hlast ↦ h.2.1 (List.mem_of_getLast? hlast)

theorem entry_plain (h : Plain (cstr name)) :
    s.tree.entry d (components (cstr name)) = some (d, cstr name) := by
  rw [components_plain h]
  rfl

theorem fits_ofC (F : Folder) (name : Text) :
    F.fits (FileName.ofC name) = true ↔ Fits F.path name := by
  unfold Folder.fits sprintf Fits
  rw [Option.isSome_ite]
  rfl

end Plain

section Handlers

variable {δ : Type} [DecidableEq δ]

/-- What the move and the sync server do with a name; `data` is what `fwrite`
takes from the message. -/
def storeName (DST_DIR : Text) (opened : Bool) (name data : Text) (s : Disk δ) :
    Option (Status × Disk δ) := do
  let fname ← sprintf MAX_NAME_LEN (DST_DIR ++ '/' :: cstr name)
  let some p := s.fopenW opened fname | return (.cancelled, s)
  return (.ok, s.fwrite p data)

def GMServer.afpmove : Text → Bool → Text → Text → Disk δ → Option (Status × Disk δ) := storeName

def ScServer.addafps : Text → Bool → Text → Text → Disk δ → Option (Status × Disk δ) := storeName

def ScServer.delafps (AFP_DIR : Text) (allowed : Bool) (rname : Text) (s : Disk δ) :
    Option (Status × Disk δ) := do
  let name ← sprintf MAX_NAME_LEN (AFP_DIR ++ '/' :: cstr rname)
  let some s := s.remove allowed name | return (.cancelled, s)
  return (.ok, s)

/-- The disk of the main cache, and that of the sub cache at each address. -/
abbrev Caches (δ : Type) := Option Text → Disk δ

namespace McServer

variable (DST_DIR : Option Text → Text)

def store (host : Option Text) (d : Delivery) (opened : Bool) (name data : Text)
    (w : Caches δ) : Option (Status × Caches δ) := do
  let (status, s) ← d.call (storeName (DST_DIR host) opened name data) (w host)
  return (status, update w host s)

def afpmoveLoop (turns : ℕ → Turn) (name data : Text) :
    ℕ → List Text → Caches δ → Option (Status × Caches δ)
  | _, [], w => some (.ok, w)
  | i, addr :: subs, w => do
    let (status, w) ← store DST_DIR (some addr) (turns i).add (turns i).stored name data w
    if status ≠ .ok then return (.cancelled, w)
    let (status, w) ← store DST_DIR none .answered (turns i).opened name data w
    if status ≠ .ok then return (.cancelled, w)
    afpmoveLoop turns name data (i + 1) subs w

def afpmove (g_sublist : List Text) (turns : ℕ → Turn) (name data : Text) (w : Caches δ) :
    Option (Status × Caches δ) :=
  afpmoveLoop DST_DIR turns name data 0 g_sublist w

end McServer

end Handlers

section Reached

variable {δ : Type} [DecidableEq δ] {dir name data : Text} {opened : Bool} {s : Disk δ}

theorem storeName_of_fits (h : Fits dir name) : storeName dir opened name data s =
    match if opened then aim s dir name else none with
    | none => some (.cancelled, s)
    | some p => some (.ok, s.fwrite p data) := by
  have hpath : sprintf MAX_NAME_LEN (dir ++ '/' :: cstr name) = some (dir ++ '/' :: cstr name) :=
    if_pos h
  have hopen : s.fopenW opened (dir ++ '/' :: cstr name) =
      if opened then aim s dir name else none := by
    cases opened with
    | false => rfl
    | true => exact fopenW_path s dir name
  rw [storeName, hpath, Option.bind_eq_bind, Option.bind_some, hopen]
  cases (if opened then aim s dir name else none) <;> rfl

theorem storeName_overflow (h : ¬ Fits dir name) : storeName dir opened name data s = none := by
  have hpath : sprintf MAX_NAME_LEN (dir ++ '/' :: cstr name) = none := if_neg h
  rw [storeName, hpath]
  rfl

theorem delafps_of_fits {allowed : Bool} (h : Fits dir name) :
    ScServer.delafps dir allowed name s =
      match s.remove allowed (dir ++ '/' :: cstr name) with
      | none => some (.cancelled, s)
      | some s' => some (.ok, s') := by
  have hpath : sprintf MAX_NAME_LEN (dir ++ '/' :: cstr name) = some (dir ++ '/' :: cstr name) :=
    if_pos h
  rw [ScServer.delafps, hpath, Option.bind_eq_bind, Option.bind_some]
  cases s.remove allowed (dir ++ '/' :: cstr name) <;> rfl

end Reached

section Flat

variable {δ : Type} [DecidableEq δ] {F : Folder} {s : Disk δ} {d : δ} {name : Text}

theorem Mirrors.write (h : Mirrors F s d) (hnode : ∀ e, s.tree.node (d, cstr name) ≠ some (.dir e))
    (data : Text) :
    Mirrors (F.write (FileName.ofC name) data) (s.fwrite (d, cstr name) data) d where
  dir := (Tree.walk_write hnode data).trans h.dir
  files f hf := by
    have hfile := Tree.fileAt_write s.tree (d, cstr name) (d, f.text) data
    have hsame : f = FileName.ofC name ↔ (d, f.text) = (d, cstr name) := by
      rw [Prod.mk.injEq, FileName.ext_iff]
      exact (and_iff_right rfl).symm
    rw [Disk.fwrite, hfile]
    split
    · next he => rw [hsame.mpr he, lookup_write_self]
    · next he => rw [lookup_write_ne (fun heq ↦ he (hsame.mp heq)), h.files f hf]

/-- For a name that a directory can list, the handlers do to the directory what
their models on a flat folder do. -/
theorem storeFinger_mirrored {opened : Bool} {req : FingerValue} {data : Text} (h : Mirrors F s d)
    (hname : Plain (cstr req.name)) (hnode : ∀ e, s.tree.node (d, cstr req.name) ≠ some (.dir e))
    (hdata : req.data = some data) {st : Status} {F' : Folder}
    (hstore : storeFinger opened req F = some (st, F')) :
    ∃ s', storeName F.path opened req.name data s = some (st, s') ∧ Mirrors F' s' d := by
  have hfits : Fits F.path req.name := by
    obtain ⟨_, hopen, -⟩ := Option.bind_eq_some_iff.mp hstore
    refine (fits_ofC F req.name).mp (Option.ite_none_right_eq_some.mp hopen).1
  rw [storeName_of_fits hfits]
  obtain ⟨rfl, rfl, rfl⟩ | ⟨rfl, rfl, rfl⟩ := storeFinger_cases hdata hstore
  · exact ⟨s, rfl, h⟩
  · have haim : aim s F.path req.name = some (d, cstr req.name) := by
      rw [aim, h.dir, Option.bind_some, slash_plain hname]
      exact Tree.creates_eq_some_iff.mpr ⟨entry_plain hname, hnode, rfl⟩
    rw [if_pos rfl, haim]
    exact ⟨_, rfl, h.write hnode data⟩

theorem Mirrors.erase (h : Mirrors F s d)
    (hnode : ∀ e, s.tree.node (d, cstr name) ≠ some (.dir e)) :
    Mirrors { F with files := F.files.erase (FileName.ofC name) }
      { s with tree := s.tree.erase (d, cstr name), touched := s.touched ++ [(d, cstr name)] }
      d where
  dir := (Tree.walk_erase hnode).trans h.dir
  files f hf := by
    have hfile := Tree.fileAt_erase s.tree (d, cstr name) (d, f.text)
    rw [hfile]
    split
    · next he =>
      have hsame : f = FileName.ofC name := FileName.ext (Prod.mk.inj he).2
      rw [hsame, AList.lookup_erase]
    · next he =>
      rw [AList.lookup_erase_ne (fun heq ↦ he (by rw [heq]; rfl)), h.files f hf]

theorem delafps_mirrored (h : Mirrors F s d) (hname : Plain (cstr name))
    (hnode : ∀ e, s.tree.node (d, cstr name) ≠ some (.dir e)) {st : Status} {F' : Folder}
    (hdel : Service.ScServer.delafps name F = some (st, F')) :
    ∃ s', ScServer.delafps F.path true name s = some (st, s') ∧ Mirrors F' s' d := by
  obtain ⟨_, hguard, hdel⟩ := Option.bind_eq_some_iff.mp hdel
  have hfits : Fits F.path name := (fits_ofC F name).mp (by simpa [guard] using hguard)
  have hsome : components (cstr name) ≠ [] := by
    rw [components_plain hname]
    exact List.cons_ne_nil _ _
  have hlisted : F.files.lookup (FileName.ofC name) = s.tree.fileAt (d, cstr name) :=
    h.files (FileName.ofC name) hname
  rw [delafps_of_fits hfits, Disk.remove, removes_path hsome, h.dir, Option.bind_some,
    slash_plain hname]
  split at hdel
  · next hmem =>
    obtain ⟨rfl, rfl⟩ := Prod.mk.inj (Option.some.inj hdel)
    obtain ⟨x, hx⟩ := Option.isSome_iff_exists.mp (AList.lookup_isSome.mpr hmem)
    have hfile := Tree.fileAt_eq_some_iff.mp (hlisted.symm.trans hx)
    have hremoves : s.tree.removes d (components (cstr name)) false = some (d, cstr name) :=
      Tree.removes_eq_some_iff.mpr ⟨entry_plain hname, .inr ⟨⟨x, hfile⟩, rfl⟩⟩
    rw [hremoves]
    exact ⟨_, rfl, h.erase hnode⟩
  · next hmem =>
    obtain ⟨rfl, rfl⟩ := Prod.mk.inj (Option.some.inj hdel)
    have hnone : s.tree.removes d (components (cstr name)) false = none := by
      rw [Option.eq_none_iff_forall_ne_some]
      intro p hp
      obtain ⟨hentry, ⟨e, hdir, -⟩ | ⟨⟨x, hfile⟩, -⟩⟩ := Tree.removes_eq_some_iff.mp hp
      · obtain rfl := Option.some.inj ((entry_plain hname).symm.trans hentry)
        exact hnode e hdir
      · obtain rfl := Option.some.inj ((entry_plain hname).symm.trans hentry)
        rw [AList.lookup_eq_none.mpr hmem, Tree.fileAt_eq_some_iff.mpr hfile] at hlisted
        cases hlisted
    rw [hnone]
    exact ⟨s, rfl, h⟩

end Flat

end FingerMove.Service.Confined
