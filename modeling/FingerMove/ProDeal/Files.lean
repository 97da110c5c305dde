import FingerMove.Library.CText
import FingerMove.Library.Directory

namespace FingerMove.ProDeal

open CText Directory

def MAX_NAME_LEN : ℕ := 256

def MAX_LINE_LEN : ℕ := 1024

/-- A name as a path can carry it. -/
@[ext] structure FileName where
  text : Text
  noNul : '\x00' ∉ text
  deriving DecidableEq

theorem not_mem_cstr (t : Text) : '\x00' ∉ cstr t := by
  intro h
  simpa using List.mem_takeWhile_imp h

def FileName.ofC (t : Text) : FileName := ⟨cstr t, not_mem_cstr t⟩

structure Folder where
  path : Text
  files : Dir FileName Text

namespace Folder

def ofList (path : String) (l : List (String × String)) : Folder :=
  ⟨path.toList, (l.map fun x ↦ ⟨FileName.ofC x.1.toList, x.2.toList⟩).toAList⟩

def fits (d : Folder) (n : FileName) : Bool :=
  (sprintf MAX_NAME_LEN (d.path ++ '/' :: n.text)).isSome

def fopenR (d : Folder) (ok : Bool) (n : FileName) : Option (Option Text) :=
  if d.fits n then some (if ok then d.files.lookup n else none) else none

def fopenW (d : Folder) (ok : Bool) (n : FileName) : Option Bool :=
  if d.fits n then some ok else none

def write (d : Folder) (n : FileName) (t : Text) : Folder :=
  { d with files := d.files.insert n t }

def clear (d : Folder) : Folder := { d with files := Directory.clear d.files }

end Folder

/-- Which `opendir` and `fopen` calls of a function succeed: its calls in the
order of the code, and the call for each entry of a directory it lists. -/
structure Opens where
  call : ℕ → Bool
  file : FileName → Bool

def allOpen : Opens := ⟨fun _ ↦ true, fun _ ↦ true⟩

variable {d : Folder} {ok : Bool} {n : FileName}

theorem Folder.fits_congr {d' : Folder} (h : d'.path = d.path) : d'.fits = d.fits := by
  funext n
  rw [Folder.fits, Folder.fits, h]

theorem fopenR_some {t : Text} (h : d.fopenR ok n = some (some t)) :
    ok = true ∧ d.files.lookup n = some t := by
  unfold Folder.fopenR at h
  split at h
  · simpa using h
  · cases h

theorem fopenR_none (h : d.fopenR ok n = some none) (hok : ok = true) :
    d.files.lookup n = none := by
  unfold Folder.fopenR at h
  split at h
  · simpa [hok] using h
  · cases h

theorem fopenW_eq_some {r : Bool} (h : d.fopenW ok n = some r) : r = ok := by
  unfold Folder.fopenW at h
  split at h
  · exact (Option.some.inj h).symm
  · cases h

@[simp] theorem lookup_write_self (t : Text) : (d.write n t).files.lookup n = some t :=
  AList.lookup_insert _

theorem lookup_write_ne {m : FileName} (h : m ≠ n) (t : Text) :
    (d.write n t).files.lookup m = d.files.lookup m := AList.lookup_insert_ne h

@[simp] theorem clear_files : d.clear.files = ∅ := clear_eq d.files

end FingerMove.ProDeal
