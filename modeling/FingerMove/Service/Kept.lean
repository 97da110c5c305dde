import FingerMove.Library.Machine
import FingerMove.Service.Resolved

namespace FingerMove.Service.Resolved

open CText Directory Tally FileTree ProDeal Machine

inductive Pc
  | waiting
  | groups (list : List (Text × Text)) (lineCount : ℤ)

structure Loop (δ : Type) where
  files : FileSystem δ
  pc : Pc

inductive Label
  | round (opened : Bool) (e : Round) (dat : Dir FileName Text) (list : List (Text × Text))
  | visit (v : Rounds.Visit)
  | next

section Step

variable {δ : Type} [DecidableEq δ] [Fintype δ] (σ : Sorter (Text × ℕ)) (c : Config)

/-- The main loop on the files of the main cache; `dat` is what DAT_DIR has by then. -/
def step (s : Loop δ) : Label → Option (Loop δ)
  | .round opened e dat list =>
    match s.pc with
    | .waiting => do
      if !opened then return s
      let files ← gather σ c e 1 (s.files.setFiles c.DAT_DIR dat)
      let (thr, files) ← botAfpFile c e files
      if thr = -1 then return ⟨files, .waiting⟩
      return ⟨files, .groups list 0⟩
    | _ => none
  | .visit v =>
    match s.pc with
    | .groups (_ :: list) lineCount => do
      let (files, lineCount) ← visit c (s.files, lineCount) v
      return ⟨files, .groups list lineCount⟩
    | _ => none
  | .next =>
    match s.pc with
    | .groups [] _ => some { s with pc := .waiting }
    | _ => none

/-- Every file that AFP_DIR had can still be read there. -/
def Kept (s t : FileSystem δ) : Prop :=
  ∀ n x, s.read c.AFP_DIR n = some x → t.read c.AFP_DIR n = some x

def Apart (s : FileSystem δ) : Prop :=
  ∀ dir ∈ [c.DAT_DIR, c.WRK_DIR, c.LOG_DIR], ∀ d, s.resolve dir = some d →
    s.resolve c.AFP_DIR ≠ some d

def Leads (t : FileSystem δ) (P : δ → Component FileName → Prop) : Prop :=
  t.tree.Follows P (t.path (c.AFP_DIR ++ ['/'])).start (comps c.AFP_DIR)

def QuietClear (t : FileSystem δ) (o : δ) : Prop :=
  t.resolve c.AFP_DIR ≠ some o ∧ Leads c t (t.tree.AvoidsEmpty o)

/-- The rename of a name moves no file of AFP_DIR nor puts another in its place, and no
directory that the path of AFP_DIR goes by. -/
structure QuietRename (t : FileSystem δ) (n : FileName) : Prop where
  file : ∀ p q x,
    t.tree.Moves (t.path (under c.AFP_DIR n), t.path (under c.ORG_DIR n)) p q x →
      ∀ a, t.resolve c.AFP_DIR = some a → p.1 ≠ a ∧ (q.1 = a → t.tree.fileAt q = none)
  dir : ∀ p q d,
    t.tree.MovesDir (t.path (under c.AFP_DIR n), t.path (under c.ORG_DIR n)) p q d →
      Leads c t (Tree.Avoids p q d)

def renameStep (t : FileSystem δ) (n : FileName) : Option (FileSystem δ) :=
  some (t.rename (under c.AFP_DIR n) (under c.ORG_DIR n))

/-- A visit whose `movCntFile` leaves AFP_DIR alone, from the moment it empties ORG_DIR. -/
def Quiet (s : Loop δ) : Label → Prop
  | .visit v => ∀ r list lineCount o, v.result = some r → s.pc = .groups list lineCount →
      v.mov.call 0 = true → s.files.opendir c.ORG_DIR = some o → QuietClear c s.files o ∧
        (v.mov.call 1 = true → ∀ bots names,
          (s.files.clear o).read c.WRK_DIR botAfpsFile = some bots →
          (window lineCount r 0 (reads MAX_LINE_LEN bots)).mapM chop = some names →
            EachStep (renameStep c) (QuietRename c) (s.files.clear o) names)
  | .round .. => False
  | .next => True

end Step

section Keeps

variable {δ : Type} {σ : Sorter (Text × ℕ)} {c : Config} {s t u : FileSystem δ}
variable {n : FileName} {o : δ}

theorem Kept.refl (s : FileSystem δ) : Kept c s s := fun _ _ h ↦ h

theorem Kept.trans (h : Kept c s t) (h' : Kept c t u) : Kept c s u :=
  fun n x hx ↦ h' n x (h n x hx)

theorem kept_of_resolve (hsame : t.resolve c.AFP_DIR = s.resolve c.AFP_DIR)
    (h : ∀ a, s.resolve c.AFP_DIR = some a → ∀ n x, s.tree.fileAt (a, n) = some x →
      t.tree.fileAt (a, n) = some x) : Kept c s t := by
  intro n x hx
  obtain ⟨a, ha, hx⟩ := Option.bind_eq_some_iff.mp hx
  rw [FileSystem.read, hsame, ha]
  exact h a ha n x hx

theorem Apart.congr (h : Apart c s) (hsame : ∀ dir, t.resolve dir = s.resolve dir) :
    Apart c t := by
  intro dir hdir d hd
  rw [hsame] at hd ⊢
  exact h dir hdir d hd

variable [DecidableEq δ]

theorem kept_setFiles {dir : Text} (F : Dir FileName Text)
    (h : ∀ d, s.resolve dir = some d → s.resolve c.AFP_DIR ≠ some d) :
    Kept c s (s.setFiles dir F) := by
  refine kept_of_resolve (resolve_setFiles s dir F _) ?_
  intro a ha n x hx
  unfold FileSystem.setFiles
  split
  · exact hx
  · next d hd =>
    have hne : a ≠ d := by
      rintro rfl
      exact h a hd ha
    exact (Tree.fileAt_setFiles_of_ne hne F).trans hx

theorem kept_setFiles_apart (h : Apart c s) (dir : Text)
    (hdir : dir ∈ [c.DAT_DIR, c.WRK_DIR, c.LOG_DIR]) (F : Dir FileName Text) :
    Kept c s (s.setFiles dir F) ∧ Apart c (s.setFiles dir F) :=
  ⟨kept_setFiles F (h dir hdir), h.congr (resolve_setFiles s dir F)⟩

theorem kept_gatherCodes {e : Round} {flg : ℤ} {codes : List ℤ}
    (h : gatherCodes σ c e flg s = some (codes, t)) (hapart : Apart c s) :
    Kept c s t ∧ Apart c t := by
  obtain ⟨⟨named, wrk⟩, -, h⟩ := Option.bind_eq_some_iff.mp h
  obtain ⟨⟨moved, dat, log⟩, -, h⟩ := Option.bind_eq_some_iff.mp h
  obtain ⟨⟨counted, wrk'⟩, -, h⟩ := Option.bind_eq_some_iff.mp h
  obtain ⟨⟨kept, wrk''⟩, -, h⟩ := Option.bind_eq_some_iff.mp h
  obtain ⟨-, rfl⟩ := Prod.mk.inj (Option.some.inj h)
  obtain ⟨h1, hapart⟩ := kept_setFiles_apart hapart c.WRK_DIR (by simp) wrk.files
  obtain ⟨h2, hapart⟩ := kept_setFiles_apart hapart c.DAT_DIR (by simp) dat.files
  obtain ⟨h3, hapart⟩ := kept_setFiles_apart hapart c.LOG_DIR (by simp) log.files
  obtain ⟨h4, hapart⟩ := kept_setFiles_apart hapart c.WRK_DIR (by simp) wrk'.files
  obtain ⟨h5, hapart⟩ := kept_setFiles_apart hapart c.WRK_DIR (by simp) wrk''.files
  exact ⟨(((h1.trans h2).trans h3).trans h4).trans h5, hapart⟩

theorem kept_botAfpFile {e : Round} {thr : ℤ} (h : botAfpFile c e s = some (thr, t))
    (hapart : Apart c s) : Kept c s t := by
  obtain ⟨⟨r, wrk⟩, -, h⟩ := Option.bind_eq_some_iff.mp h
  obtain ⟨-, rfl⟩ := Prod.mk.inj (Option.some.inj h)
  exact (kept_setFiles_apart hapart c.WRK_DIR (by simp) wrk.files).1

theorem kept_clear (h : QuietClear c s o) : Kept c s (s.clear o) := by
  refine kept_of_resolve (Tree.walk_clear h.2) ?_
  intro a ha n x hx
  have hne : a ≠ o := by
    rintro rfl
    exact h.1 ha
  rw [FileSystem.clear, Tree.fileAt_clear, if_neg hne, hx]

variable [Fintype δ]

theorem kept_rename (h : QuietRename c s n) :
    Kept c s (s.rename (under c.AFP_DIR n) (under c.ORG_DIR n)) := by
  have htree : (s.rename (under c.AFP_DIR n) (under c.ORG_DIR n)).tree =
    s.tree.rename (s.path (under c.AFP_DIR n)) (s.path (under c.ORG_DIR n)) := rfl
  have hresolve : (s.rename (under c.AFP_DIR n) (under c.ORG_DIR n)).resolve c.AFP_DIR =
    (s.tree.rename (s.path (under c.AFP_DIR n)) (s.path (under c.ORG_DIR n))).walk
      (s.path (c.AFP_DIR ++ ['/'])).start (comps c.AFP_DIR) := rfl
  obtain hsame | ⟨p, q, x, hmoves⟩ | ⟨p, q, d, hdir, hgraft⟩ := Tree.rename_cases s.tree
    (s.path (under c.AFP_DIR n), s.path (under c.ORG_DIR n))
  · rw [hsame] at htree hresolve
    refine kept_of_resolve hresolve fun a _ k y hy ↦ ?_
    rw [htree, hy]
  · refine kept_of_resolve (hmoves.walk _ _) fun a ha k y hy ↦ ?_
    obtain ⟨hp, hq⟩ := h.file p q x hmoves a ha
    refine (hmoves.fileAt (a, k)).trans ?_
    rw [if_neg, if_neg, hy]
    · rintro rfl
      exact hp rfl
    · rintro rfl
      rw [hq rfl] at hy
      cases hy
  · rw [hgraft] at htree hresolve
    rw [Tree.walk_graft (h.dir p q d hdir)] at hresolve
    refine kept_of_resolve hresolve fun a _ k y hy ↦ ?_
    rw [htree, hdir.fileAt, hy]

theorem kept_renameAll {names : List FileName}
    (h : EachStep (renameStep c) (QuietRename c) s names) :
    Kept c s (s.renameAll c.AFP_DIR c.ORG_DIR names) := by
  have hrun : exec (renameStep c) s names = some (s.renameAll c.AFP_DIR c.ORG_DIR names) := by
    clear h
    induction names generalizing s with
    | nil => rfl
    | cons n names ih => exact ih
  refine (always_of_eachStep (P := Kept c s) ?_ (Kept.refl s) h).exec hrun
  intro u n u' hu hquiet hstep
  obtain rfl := Option.some.inj hstep
  exact hu.trans (kept_rename hquiet)

theorem kept_visit {l : Loop δ} {v : Rounds.Visit} {list : List (Text × Text)}
    {lineCount m : ℤ} (hquiet : Quiet c l (.visit v)) (hpc : l.pc = .groups list lineCount)
    (h : visit c (l.files, lineCount) v = some (t, m)) : Kept c l.files t := by
  unfold visit at h
  cases hv : v.result with
  | none =>
    simp only [hv] at h
    obtain ⟨rfl, -⟩ := Prod.mk.inj (Option.some.inj h)
    exact .refl _
  | some r =>
    simp only [hv] at h
    obtain ⟨⟨code, t'⟩, hmov, h⟩ := Option.bind_eq_some_iff.mp h
    obtain ⟨rfl, -⟩ := Prod.mk.inj (Option.some.inj h)
    obtain ⟨-, -, rfl⟩ | ⟨o, h0, ho, hcase⟩ := movFiles_cases hmov
    · exact .refl _
    · obtain ⟨hclear, hnames⟩ := hquiet r list lineCount o hv hpc h0 ho
      obtain ⟨-, -, rfl⟩ | ⟨h1, -, bots, names, hread, hmap, rfl⟩ := hcase
      · exact kept_clear hclear
      · exact (kept_clear hclear).trans (kept_renameAll (hnames h1 bots names hread hmap))

theorem kept_step {l l' : Loop δ} {a : Label} (hquiet : Quiet c l a)
    (h : step σ c l a = some l') : Kept c l.files l'.files := by
  cases a with
  | round => exact hquiet.elim
  | visit v =>
    simp only [step] at h
    split at h
    · next p list lineCount hpc =>
      obtain ⟨⟨t, m⟩, hvisit, h⟩ := Option.bind_eq_some_iff.mp h
      obtain rfl := Option.some.inj h
      exact kept_visit hquiet hpc hvisit
    · cases h
  | next =>
    simp only [step] at h
    split at h
    · obtain rfl := Option.some.inj h
      exact .refl _
    · cases h

def NoRound : Label → Prop
  | .round .. => False
  | _ => True

theorem always_waiting {P : Loop δ → Prop} {l : Loop δ} {es : List Label} (hpc : l.pc = .waiting)
    (hes : ∀ e ∈ es, NoRound e) (hl : P l) : Always (step σ c) P l es := by
  cases es with
  | nil => exact hl
  | cons e es =>
    refine ⟨hl, ?_⟩
    intro t ht
    cases e with
    | round => exact (hes _ List.mem_cons_self).elim
    | visit | next => simp [step, hpc] at ht

/-- A round in which a stage fails leaves every file in AFP_DIR if it is the last stage only,
or if every visit of the round is quiet. -/
theorem failed_round_keeps {l l' : Loop δ} {e : Round} {dat : Dir FileName Text}
    {list : List (Text × Text)} {g : FileSystem δ} {codes : List ℤ} {thr : ℤ} {es : List Label}
    (hapart : Apart c l.files)
    (hg : gatherCodes σ c e 1 (l.files.setFiles c.DAT_DIR dat) = some (codes, g))
    (hbot : botAfpFile c e g = some (thr, u))
    (hround : step σ c l (.round true e dat list) = some l') (hes : ∀ a ∈ es, NoRound a)
    (hquiet : -1 ∉ codes ∨ EachStep (step σ c) (Quiet c) l' es) (hfail : -1 ∈ thr :: codes) :
    Always (step σ c) (fun t ↦ Kept c l.files t.files) l (.round true e dat list :: es) := by
  have hnext : l' = ⟨u, if thr = -1 then .waiting else .groups list 0⟩ := by
    simp only [step, gather, hg, hbot, Option.map_some, Option.bind_eq_bind, Option.bind_some,
      Bool.not_true, Bool.false_eq_true, if_false] at hround
    split at hround
    · split at hround
      · next hthr => rw [if_pos hthr, ← Option.some.inj hround]
      · next hthr => rw [if_neg hthr, ← Option.some.inj hround]
    · cases hround
  have hstart : Kept c l.files l'.files := by
    obtain ⟨hdat, hapart⟩ := kept_setFiles_apart hapart c.DAT_DIR (by simp) dat
    obtain ⟨hcodes, hapart⟩ := kept_gatherCodes hg hapart
    rw [hnext]
    exact (hdat.trans hcodes).trans (kept_botAfpFile hbot hapart)
  refine ⟨.refl _, ?_⟩
  intro t ht
  obtain rfl := Option.some.inj (hround.symm.trans ht)
  rcases hquiet with hcodes | hquiet
  · have hthr : thr = -1 := by simpa [hcodes, eq_comm] using hfail
    exact always_waiting (by rw [hnext, if_pos hthr]) hes hstart
  · exact always_of_eachStep (fun s a t hs ha hstep ↦ hs.trans (kept_step ha hstep)) hstart hquiet

end Keeps

end FingerMove.Service.Resolved
