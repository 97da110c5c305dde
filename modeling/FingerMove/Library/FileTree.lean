import FingerMove.Library.Directory
import Mathlib.Logic.Function.Basic

namespace FingerMove.FileTree

open Directory Function

inductive Node (δ τ : Type)
  | dir (d : δ)
  | file (t : τ)

inductive Component (ν : Type)
  | here
  | up
  | name (x : ν)
  deriving DecidableEq

def Component.map {ν μ : Type} (f : ν → μ) : Component ν → Component μ
  | .here => .here
  | .up => .up
  | .name x => .name (f x)

/-- The directories `δ` of a file system, with what each of them lists. -/
structure Tree (δ ν τ : Type) where
  parent : δ → δ
  entries : δ → Dir ν (Node δ τ)

namespace Tree

variable {δ ν τ : Type} [DecidableEq ν]

def node (t : Tree δ ν τ) (p : δ × ν) : Option (Node δ τ) := (t.entries p.1).lookup p.2

def fileAt (t : Tree δ ν τ) (p : δ × ν) : Option τ :=
  match t.node p with
  | some (.file x) => some x
  | _ => none

theorem fileAt_eq_some_iff {t : Tree δ ν τ} {p : δ × ν} {x : τ} :
    t.fileAt p = some x ↔ t.node p = some (.file x) := by
  unfold fileAt
  split
  · next y hy => simp [hy]
  · next hnone => exact iff_of_false nofun (hnone x)

def enter (t : Tree δ ν τ) (d : δ) : Component ν → Option δ
  | .here => some d
  | .up => some (t.parent d)
  | .name x =>
    match t.node (d, x) with
    | some (.dir e) => some e
    | _ => none

def walk (t : Tree δ ν τ) (d : δ) (cs : List (Component ν)) : Option δ := cs.foldlM t.enter d

/-- The entry that a path is about, unless it ends in dots. -/
def entry (t : Tree δ ν τ) (d : δ) (cs : List (Component ν)) : Option (δ × ν) :=
  match cs.getLast? with
  | some (.name x) => (t.walk d cs.dropLast).map fun e ↦ (e, x)
  | _ => none

/-- The entry that `fopen(.., "wb")` creates or overwrites; a path with a slash
at its end is that of a directory. -/
def creates (t : Tree δ ν τ) (d : δ) (cs : List (Component ν)) (slash : Bool) :
    Option (δ × ν) := do
  let p ← t.entry d cs
  match t.node p with
  | some (.dir _) => none
  | _ => if slash then none else some p

/-- The entry that `remove` takes away: that of a file or of an empty directory. -/
def removes (t : Tree δ ν τ) (d : δ) (cs : List (Component ν)) (slash : Bool) :
    Option (δ × ν) := do
  let p ← t.entry d cs
  match ← t.node p with
  | .dir e => if (t.entries e).keys = [] then some p else none
  | .file _ => if slash then none else some p

section Steps

variable [DecidableEq δ]

def write (t : Tree δ ν τ) (p : δ × ν) (x : τ) : Tree δ ν τ :=
  { t with entries := update t.entries p.1 ((t.entries p.1).insert p.2 (.file x)) }

def erase (t : Tree δ ν τ) (p : δ × ν) : Tree δ ν τ :=
  { t with entries := update t.entries p.1 ((t.entries p.1).erase p.2) }

theorem node_write (t : Tree δ ν τ) (p q : δ × ν) (x : τ) :
    (t.write p x).node q = if q = p then some (.file x) else t.node q := by
  obtain ⟨d, n⟩ := p
  obtain ⟨e, m⟩ := q
  rcases eq_or_ne e d with rfl | he
  · rcases eq_or_ne m n with rfl | hm
    · simp [node, write]
    · simp [node, write, hm]
  · simp [node, write, he]

theorem node_erase (t : Tree δ ν τ) (p q : δ × ν) :
    (t.erase p).node q = if q = p then none else t.node q := by
  obtain ⟨d, n⟩ := p
  obtain ⟨e, m⟩ := q
  rcases eq_or_ne e d with rfl | he
  · rcases eq_or_ne m n with rfl | hm
    · simp [node, erase]
    · simp [node, erase, hm]
  · simp [node, erase, he]

theorem fileAt_write (t : Tree δ ν τ) (p q : δ × ν) (x : τ) :
    (t.write p x).fileAt q = if q = p then some x else t.fileAt q := by
  rw [fileAt, node_write]
  split_ifs <;> rfl

theorem fileAt_erase (t : Tree δ ν τ) (p q : δ × ν) :
    (t.erase p).fileAt q = if q = p then none else t.fileAt q := by
  rw [fileAt, node_erase]
  split_ifs <;> rfl

end Steps

section Walks

variable {t : Tree δ ν τ} {d : δ} {cs ds : List (Component ν)}

theorem walk_append (t : Tree δ ν τ) (d : δ) (cs ds : List (Component ν)) :
    t.walk d (cs ++ ds) = (t.walk d cs).bind fun e ↦ t.walk e ds := List.foldlM_append

theorem entry_append (h : ds ≠ []) :
    t.entry d (cs ++ ds) = (t.walk d cs).bind fun e ↦ t.entry e ds := by
  unfold entry
  rw [List.getLast?_append_of_ne_nil cs h, List.dropLast_append_of_ne_nil h]
  cases ds.getLast? with
  | none => cases t.walk d cs <;> rfl
  | some c =>
    cases c with
    | here | up => cases t.walk d cs <;> rfl
    | name x =>
      simp only [walk_append]
      cases t.walk d cs <;> rfl

theorem creates_append (h : ds ≠ []) (slash : Bool) :
    t.creates d (cs ++ ds) slash = (t.walk d cs).bind fun e ↦ t.creates e ds slash := by
  unfold creates
  rw [entry_append h]
  cases t.walk d cs <;> rfl

theorem removes_append (h : ds ≠ []) (slash : Bool) :
    t.removes d (cs ++ ds) slash = (t.walk d cs).bind fun e ↦ t.removes e ds slash := by
  unfold removes
  rw [entry_append h]
  cases t.walk d cs <;> rfl

theorem walk_of_entry {p : δ × ν} (h : t.entry d cs = some p) :
    t.walk d cs.dropLast = some p.1 := by
  unfold entry at h
  split at h
  · obtain ⟨e, he, rfl⟩ := Option.map_eq_some_iff.mp h
    exact he
  · cases h

theorem walk_of_entry_dir {p : δ × ν} {e : δ} (h : t.entry d cs = some p)
    (hp : t.node p = some (.dir e)) : t.walk d cs = some e := by
  unfold entry at h
  split at h
  · next x hlast =>
    obtain ⟨f, hf, rfl⟩ := Option.map_eq_some_iff.mp h
    have henter : t.enter f (.name x) = some e := by
      simp only [enter, hp]
    have hcs : cs.dropLast ++ [.name x] = cs := List.dropLast_append_getLast? _ hlast
    rw [← hcs, walk_append, hf, Option.bind_some, walk, List.foldlM_cons, henter]
    rfl
  · cases h

theorem creates_eq_some_iff {slash : Bool} {p : δ × ν} : t.creates d cs slash = some p ↔
    t.entry d cs = some p ∧ (∀ e, t.node p ≠ some (.dir e)) ∧ slash = false := by
  unfold creates
  constructor
  · intro h
    obtain ⟨q, hq, h⟩ := Option.bind_eq_some_iff.mp h
    split at h
    · cases h
    · next hnode =>
      obtain ⟨hslash, h⟩ := Option.ite_none_left_eq_some.mp h
      obtain rfl := Option.some.inj h
      exact ⟨hq, hnode, by simpa using hslash⟩
  · intro h
    obtain ⟨hentry, hnode, rfl⟩ := h
    rw [hentry, Option.bind_eq_bind, Option.bind_some]
    split
    · next e he => exact absurd he (hnode e)
    · rfl

theorem creates_slash : t.creates d cs true = none :=
  Option.eq_none_iff_forall_ne_some.mpr fun _ h ↦ nomatch (creates_eq_some_iff.mp h).2.2

theorem removes_eq_some_iff {slash : Bool} {p : δ × ν} : t.removes d cs slash = some p ↔
    t.entry d cs = some p ∧ ((∃ e, t.node p = some (.dir e) ∧ (t.entries e).keys = []) ∨
      (∃ x, t.node p = some (.file x)) ∧ slash = false) := by
  unfold removes
  constructor
  · intro h
    obtain ⟨q, hq, h⟩ := Option.bind_eq_some_iff.mp h
    obtain ⟨n, hn, h⟩ := Option.bind_eq_some_iff.mp h
    cases n with
    | dir e =>
      obtain ⟨hempty, h⟩ := Option.ite_none_right_eq_some.mp h
      obtain rfl := Option.some.inj h
      exact ⟨hq, .inl ⟨e, hn, hempty⟩⟩
    | file x =>
      obtain ⟨hslash, h⟩ := Option.ite_none_left_eq_some.mp h
      obtain rfl := Option.some.inj h
      exact ⟨hq, .inr ⟨⟨x, hn⟩, by simpa using hslash⟩⟩
  · intro h
    obtain ⟨hentry, ⟨e, hn, hempty⟩ | ⟨⟨x, hn⟩, rfl⟩⟩ := h
    · simp [hentry, hn, hempty]
    · simp [hentry, hn]

theorem walk_congr {t' : Tree δ ν τ} (hparent : t'.parent = t.parent)
    (hdir : ∀ p e, t'.node p = some (.dir e) ↔ t.node p = some (.dir e)) :
    t'.walk d cs = t.walk d cs := by
  have henter : t'.enter = t.enter := by
    funext e c
    cases c with
    | here => rfl
    | up => simp only [enter, hparent]
    | name y =>
      ext f
      have hiff : ∀ u : Tree δ ν τ,
          u.enter e (.name y) = some f ↔ u.node (e, y) = some (.dir f) := by
        intro u
        simp only [enter]
        split
        · next g hg => simp [hg]
        · next hnone => exact iff_of_false nofun (hnone f)
      rw [hiff, hiff, hdir]
  rw [walk, walk, henter]

theorem walk_write [DecidableEq δ] {p : δ × ν} (hp : ∀ e, t.node p ≠ some (.dir e)) (x : τ) :
    (t.write p x).walk d cs = t.walk d cs := by
  refine walk_congr rfl fun q e ↦ ?_
  rw [node_write]
  split
  · next hq => exact iff_of_false nofun (hq ▸ hp e)
  · rfl

theorem walk_erase [DecidableEq δ] {p : δ × ν} (hp : ∀ e, t.node p ≠ some (.dir e)) :
    (t.erase p).walk d cs = t.walk d cs := by
  refine walk_congr rfl fun q e ↦ ?_
  rw [node_erase]
  split
  · next hq => exact iff_of_false nofun (hq ▸ hp e)
  · rfl

theorem creates_write [DecidableEq δ] {p : δ × ν} (hp : ∀ e, t.node p ≠ some (.dir e)) (x : τ)
    (slash : Bool) : (t.write p x).creates d cs slash = t.creates d cs slash := by
  have hentry : (t.write p x).entry d cs = t.entry d cs := by
    unfold entry
    rw [walk_write hp]
  ext q
  rw [creates_eq_some_iff, creates_eq_some_iff, hentry, node_write]
  split
  · next hq => simp [hq, hp]
  · rfl

end Walks

end Tree

end FingerMove.FileTree
