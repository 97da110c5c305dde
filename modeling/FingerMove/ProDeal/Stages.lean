import Mathlib.Data.Char
import FingerMove.Library.Tally
import FingerMove.ProDeal.Files

namespace FingerMove.ProDeal

open CText Directory Tally

def afpNameFile : FileName := .ofC "afpNameFile.tmp".toList

def logNumCount : FileName := .ofC "logNumCount.tmp".toList

def fltLogsFile : FileName := .ofC "fltLogsFile.tmp".toList

def topAfpsFile : FileName := .ofC "topAfpsFile.tmp".toList

def botAfpsFile : FileName := .ofC "botAfpsFile.tmp".toList

def serverLog : FileName := .ofC "server.log".toList

def cmp (x y : Text × ℕ) : Bool := x.2 > y.2

def lmp (x y : Text × ℕ) : Bool := x.2 < y.2

def getAfpName (o : Opens) (org dst : Folder) : Option (ℤ × Folder) := do
  if !o.call 0 then return (-1, dst)
  if !(← dst.fopenW (o.call 1) afpNameFile) then return (-1, dst)
  let lines ← org.files.keys.mapM fun n ↦ sprintf MAX_LINE_LEN (n.text ++ ['\n'])
  return (0, dst.write afpNameFile lines.flatten)

/-- One entry of the second loop of `movLogFile`: `server.log` is copied, any
other log is moved. -/
def movLog (o : Opens) (od : Folder × Folder) (n : FileName) : Option (Folder × Folder) := do
  let (org, dst) := od
  guard (org.fits n && dst.fits n)
  if n ≠ serverLog then
    let (a, b) := rename org.files dst.files n
    return ({ org with files := a }, { dst with files := b })
  let some t := if o.file n then org.files.lookup n else none | return (org, dst)
  -- the code writes through the copy's `fopen` without a check
  guard (o.call 2)
  return (org, dst.write n ((reads MAX_LINE_LEN t).map cstr).flatten)

/-- `s` is the name a log of six days ago would have. -/
def movLogFile (o : Opens) (s : Text) (org dst : Folder) : Option (ℤ × Folder × Folder) := do
  if !o.call 0 then return (-1, org, dst)
  let old := dst.files.keys.filter (·.text < s)
  guard (old.all dst.fits)
  let dst := { dst with files := old.foldl (fun d n ↦ d.erase n) dst.files }
  if !o.call 1 then return (-1, org, dst)
  let (org, dst) ← org.files.keys.foldlM (movLog o) (org, dst)
  return (0, org, dst)

def songId (line : Text) : Option Text := do
  guard (line.getD 0 '\x00' = '$' ∧ line.getD 1 '\x00' = '$')
  let tmp := cstr line
  let pos1 ← find tmp '|' 0
  let pos2 ← find tmp '|' (pos1 + 1)
  let sid := substr tmp (pos1 + 1) (pos2 - pos1 - 1)
  if sid = "-1".toList then none else some sid

def countedIds (o : Opens) (org : Folder) : List Text :=
  (org.files.keys.filterMap fun n ↦ if o.file n then org.files.lookup n else none).flatMap
    fun t ↦ (reads MAX_LINE_LEN t).filterMap songId

def countLine (x : Text × ℕ) : Option Text := do
  guard (x.2 < 2 ^ 31)
  sprintf MAX_LINE_LEN (x.1 ++ '|' :: decimal x.2 ++ ['\n'])

def cntSrhNums (o : Opens) (σ : Sorter (Text × ℕ)) (org dst : Folder) (flg : ℤ) :
    Option (ℤ × Folder) := do
  if !o.call 0 then return (-1, dst)
  if !(← dst.fopenW (o.call 1) logNumCount) then return (-1, dst)
  guard (org.files.keys.all org.fits)
  let cntmap := tally (countedIds o org)
  let veccnt := σ.sort (if flg = 0 then cmp else lmp) cntmap
  let lines ← veccnt.mapM countLine
  return (0, dst.write logNumCount lines.flatten)

def numbers (t : Text) : List ℤ := (reads MAX_LINE_LEN t).map fun line ↦ atoi (cstr line)

def filtered (afps logs : Text) : List Text :=
  ((reads MAX_LINE_LEN logs).filter fun line ↦ atoi (cstr line) ∈ numbers afps).map cstr

def fltLogFile (o : Opens) (org dst : Folder) : Option (ℤ × Folder) := do
  let some afps ← org.fopenR (o.call 0) afpNameFile | return (-1, dst)
  let some logs ← org.fopenR (o.call 1) logNumCount | return (-1, dst)
  if !(← dst.fopenW (o.call 2) fltLogsFile) then return (-1, dst)
  return (0, dst.write fltLogsFile (filtered afps logs).flatten)

def splitLine (line : Text) : Option (Text × ℤ) := do
  let (songid, rest) ← strtok '|' (cstr line)
  let (val, _) ← strtok '|' rest
  return (songid, atoi val)

def topLoop (limit : ℕ) (cnt : ℤ) : ℕ → List Text → Option (List Text)
  | _, [] => some []
  | count, line :: lines => do
    if limit ≤ count then return []
    let (songid, num) ← splitLine line
    if num ≤ cnt then return []
    let out ← sprintf MAX_LINE_LEN (songid ++ ".afp\n".toList)
    return out :: (← topLoop limit cnt (count + 1) lines)

def topAfpFile (o : Opens) (GROUP_LIMIT : ℕ) (org dst : Folder) (cnt : ℤ) :
    Option (ℤ × Folder) := do
  let some logs ← org.fopenR (o.call 0) fltLogsFile | return (-1, dst)
  if !(← dst.fopenW (o.call 1) topAfpsFile) then return (-1, dst)
  let out ← topLoop GROUP_LIMIT cnt 0 (reads MAX_LINE_LEN logs)
  return (out.length, dst.write topAfpsFile out.flatten)

/-- The first loop of `botAfpFile`: the names whose number is not counted. -/
def botNames (limit : ℕ) (fliter : List ℤ) : ℕ → List Text → List Text
  | _, [] => []
  | count, line :: lines =>
    if limit ≤ count then []
    else if atoi (cstr line) ∈ fliter then botNames limit fliter count lines
    else cstr line :: botNames limit fliter (count + 1) lines

/-- The second loop of `botAfpFile`: the lines it writes and the last tally. -/
def botSongs (limit : ℕ) : ℕ → ℤ → List Text → Option (List Text × ℤ)
  | _, thr, [] => some ([], thr)
  | count, thr, line :: lines => do
    if limit ≤ count then return ([], thr)
    let (songid, num) ← splitLine line
    let out ← sprintf MAX_LINE_LEN (songid ++ ['\n'])
    let (outs, thr) ← botSongs limit (count + 1) num lines
    return (out :: outs, thr)

def botAfpFile (o : Opens) (CACHE_LIMIT : ℕ) (org dst : Folder) : Option (ℤ × Folder) := do
  let some afps ← org.fopenR (o.call 0) afpNameFile | return (-1, dst)
  let some logs ← org.fopenR (o.call 1) fltLogsFile | return (-1, dst)
  if !(← dst.fopenW (o.call 2) botAfpsFile) then return (-1, dst)
  let names := botNames CACHE_LIMIT (numbers logs) 0 (reads MAX_LINE_LEN afps)
  let (songs, thr) ← botSongs CACHE_LIMIT names.length 0 (reads MAX_LINE_LEN logs)
  return (thr, dst.write botAfpsFile (names ++ songs).flatten)

def chop (line : Text) : Option FileName :=
  if cstr line = [] then none
  else some ⟨(cstr line).dropLast, fun h ↦ not_mem_cstr line (List.dropLast_subset _ h)⟩

/-- The calls of `rename` for a list of lines. Directories are flat and a line is a name in
them, not a path: this is the code for names that a directory can list. -/
def moveLines (org dst : Folder) (lines : List Text) : Option (Folder × Folder) := do
  let names ← lines.mapM chop
  guard (names.all fun n ↦ org.fits n && dst.fits n)
  let (a, b) := moveAll names org.files dst.files
  return ({ org with files := a }, { dst with files := b })

/-- What `movAfpFile` and `movCntFile` share: `dst` is emptied, and the files
that `take` leaves of a list of names are renamed into it. -/
def movFiles (o : Opens) (org dst wrk : Folder) (list : FileName)
    (take : List Text → List Text) : Option (ℤ × Folder × Folder) := do
  if !o.call 0 then return (-1, org, dst)
  guard (dst.files.keys.all dst.fits)
  let some names ← wrk.fopenR (o.call 1) list | return (-1, org, dst.clear)
  -- a rename that fails is passed over
  let (org, dst) ← moveLines org dst.clear (take (reads MAX_LINE_LEN names))
  return (0, org, dst)

def movAfpFile (o : Opens) (org dst wrk : Folder) : Option (ℤ × Folder × Folder) :=
  movFiles o org dst wrk topAfpsFile id

def window (pos cnt : ℤ) : ℤ → List Text → List Text
  | _, [] => []
  | count, line :: lines =>
    if count < pos then window pos cnt (count + 1) lines
    else if pos + cnt ≤ count then []
    else line :: window pos cnt (count + 1) lines

def movCntFile (o : Opens) (org dst wrk : Folder) (pos cnt : ℤ) :
    Option (ℤ × Folder × Folder) :=
  movFiles o org dst wrk botAfpsFile (window pos cnt 0)

end FingerMove.ProDeal
