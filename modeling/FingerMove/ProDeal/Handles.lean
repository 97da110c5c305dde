import FingerMove.Library.Handle
import FingerMove.ProDeal.Pipeline

namespace FingerMove.ProDeal.Handles

open CText Directory Tally Handle

variable {η : Type} [DecidableEq η] (A : Allocator η)

def fopenR (d : Folder) (ok : Bool) (n : FileName) : Prog η (Option (η × Text)) := do
  let some t ← d.fopenR ok n | return none
  return some (← acquire A, t)

def fopenW (d : Folder) (ok : Bool) (n : FileName) : Prog η (Option η) := do
  if !(← d.fopenW ok n) then return none
  return some (← acquire A)

def getAfpName (o : Opens) (org dst : Folder) : Prog η (ℤ × Folder) := do
  let some dp ← tryOpen A (o.call 0) | return (-1, dst)
  let some fp ← fopenW A dst (o.call 1) afpNameFile | return (-1, dst)
  let lines ← liftM (org.files.keys.mapM fun n ↦ sprintf MAX_LINE_LEN (n.text ++ ['\n']))
  release fp
  release dp
  return (0, dst.write afpNameFile lines.flatten)

def copyLog (o : Opens) (org dst : Folder) (n : FileName) : Prog η (Folder × Folder) := do
  let some (forg, t) ← fopenR A org (o.file n) n | return (org, dst)
  guard (o.call 2)
  let fdst ← acquire A
  release forg
  release fdst
  return (org, dst.write n ((reads MAX_LINE_LEN t).map cstr).flatten)

def movLog (o : Opens) (od : Folder × Folder) (n : FileName) : Prog η (Folder × Folder) := do
  let (org, dst) := od
  guard (org.fits n && dst.fits n)
  if n ≠ serverLog then
    let (a, b) := rename org.files dst.files n
    return ({ org with files := a }, { dst with files := b })
  copyLog A o org dst n

def movLogFile (o : Opens) (s : Text) (org dst : Folder) : Prog η (ℤ × Folder × Folder) := do
  let some dpd ← tryOpen A (o.call 0) | return (-1, org, dst)
  let old := dst.files.keys.filter (·.text < s)
  guard (old.all dst.fits)
  let dst := { dst with files := old.foldl (fun d n ↦ d.erase n) dst.files }
  release dpd
  let some dpo ← tryOpen A (o.call 1) | return (-1, org, dst)
  let (org, dst) ← org.files.keys.foldlM (movLog A o) (org, dst)
  release dpo
  return (0, org, dst)

def countLog (o : Opens) (org : Folder) (n : FileName) : Prog η (List Text) := do
  let some (forg, t) ← fopenR A org (o.file n) n | return []
  let ids := (reads MAX_LINE_LEN t).filterMap songId
  release forg
  return ids

def cntSrhNums (o : Opens) (σ : Sorter (Text × ℕ)) (org dst : Folder) (flg : ℤ) :
    Prog η (ℤ × Folder) := do
  let some dp ← tryOpen A (o.call 0) | return (-1, dst)
  let some fdst ← fopenW A dst (o.call 1) logNumCount | return (-1, dst)
  let ids ← org.files.keys.mapM (countLog A o org)
  let veccnt := σ.sort (if flg = 0 then cmp else lmp) (tally ids.flatten)
  let lines ← liftM (veccnt.mapM countLine)
  release fdst
  release dp
  return (0, dst.write logNumCount lines.flatten)

def fltLogFile (o : Opens) (org dst : Folder) : Prog η (ℤ × Folder) := do
  let some (fpafp, afps) ← fopenR A org (o.call 0) afpNameFile | return (-1, dst)
  let some (fplog, logs) ← fopenR A org (o.call 1) logNumCount
    | release fpafp
      return (-1, dst)
  let some fpdst ← fopenW A dst (o.call 2) fltLogsFile
    | release fpafp
      release fplog
      return (-1, dst)
  let lines := filtered afps logs
  release fpafp
  release fplog
  release fpdst
  return (0, dst.write fltLogsFile lines.flatten)

def topAfpFile (o : Opens) (GROUP_LIMIT : ℕ) (org dst : Folder) (cnt : ℤ) :
    Prog η (ℤ × Folder) := do
  let some (fpo, logs) ← fopenR A org (o.call 0) fltLogsFile | return (-1, dst)
  let some fpd ← fopenW A dst (o.call 1) topAfpsFile
    | release fpo
      return (-1, dst)
  let out ← topLoop GROUP_LIMIT cnt 0 (reads MAX_LINE_LEN logs)
  release fpo
  release fpd
  return (out.length, dst.write topAfpsFile out.flatten)

def botAfpFile (o : Opens) (CACHE_LIMIT : ℕ) (org dst : Folder) : Prog η (ℤ × Folder) := do
  let some (fpa, afps) ← fopenR A org (o.call 0) afpNameFile | return (-1, dst)
  let some (fpo, logs) ← fopenR A org (o.call 1) fltLogsFile
    | release fpa
      return (-1, dst)
  let some fpd ← fopenW A dst (o.call 2) botAfpsFile
    | release fpa
      release fpo
      return (-1, dst)
  let names := botNames CACHE_LIMIT (numbers logs) 0 (reads MAX_LINE_LEN afps)
  let (songs, thr) ← botSongs CACHE_LIMIT names.length 0 (reads MAX_LINE_LEN logs)
  release fpo
  release fpa
  release fpd
  return (thr, dst.write botAfpsFile (names ++ songs).flatten)

/-- The directory is never closed. -/
def movAfpFile (o : Opens) (org dst wrk : Folder) : Prog η (ℤ × Folder × Folder) := do
  let some _ ← tryOpen A (o.call 0) | return (-1, org, dst)
  guard (dst.files.keys.all dst.fits)
  let some (fp, names) ← fopenR A wrk (o.call 1) topAfpsFile | return (-1, org, dst.clear)
  let (org, dst) ← moveLines org dst.clear (reads MAX_LINE_LEN names)
  release fp
  return (0, org, dst)

/-- Neither the directory nor the list is ever closed. -/
def movCntFile (o : Opens) (org dst wrk : Folder) (pos cnt : ℤ) :
    Prog η (ℤ × Folder × Folder) := do
  let some _ ← tryOpen A (o.call 0) | return (-1, org, dst)
  guard (dst.files.keys.all dst.fits)
  let some (_, names) ← fopenR A wrk (o.call 1) botAfpsFile | return (-1, org, dst.clear)
  let (org, dst) ← moveLines org dst.clear (window pos cnt 0 (reads MAX_LINE_LEN names))
  return (0, org, dst)

section Rules

variable {A} {S : Finset η} {α : Type} {d : Folder} {ok : Bool} {n : FileName} {P : Prop}

theorem ends_fopenR {k : Option (η × Text) → Prog η α} {f : Option Text → Option α}
    (hopen : ∀ t h, h ∉ S → Ends (insert h S) (k (some (h, t))) (f (some t)) P)
    (hfail : Ends S (k none) (f none) P) :
    Ends S (fopenR A d ok n >>= k) ((d.fopenR ok n).bind f) P := by
  unfold fopenR
  rw [bind_assoc]
  apply Ends.lift
  intro t _
  cases t with
  | none => exact hfail
  | some t => exact Ends.acquire (A := A) (k := fun h ↦ k (some (h, t))) (hopen t)

theorem ends_fopenW {k : Option η → Prog η α} {x y : Option α}
    (hopen : ok = true → ∀ h, h ∉ S → Ends (insert h S) (k (some h)) y P)
    (hfail : ok = false → Ends S (k none) x P) :
    Ends S (fopenW A d ok n >>= k) ((d.fopenW ok n).bind fun b ↦ if !b then x else y) P := by
  unfold fopenW
  rw [bind_assoc]
  apply Ends.lift
  intro b hb
  obtain rfl := fopenW_eq_some hb
  cases b with
  | false => exact hfail rfl
  | true => exact Ends.acquire (A := A) (k := fun h ↦ k (some h)) (hopen rfl)

end Rules

section Stages

variable {A} {o : Opens} {org dst wrk : Folder}

theorem getAfpName_ends : Ends ∅ (getAfpName A o org dst) (ProDeal.getAfpName o org dst)
    (o.call 0 = true → o.call 1 = true) := by
  apply ends_tryOpen
  · intro h0 dp _
    apply ends_fopenW
    · intro h1 fp hfp
      refine Ends.congr ?_ (iff_of_true trivial fun _ ↦ h1)
      apply Ends.lift
      intro lines _
      exact ends_closing [fp, dp] (by grind) _
    · intro h1
      refine Ends.congr ?_ (iff_of_false id (by simp [h0, h1]))
      exact ends_leak (by simp) _
  · intro h0
    refine Ends.congr ?_ (iff_of_true trivial (by simp [h0]))
    exact ends_pure Finset.notMem_empty _

theorem fltLogFile_ends : Ends ∅ (fltLogFile A o org dst) (ProDeal.fltLogFile o org dst) True := by
  apply ends_fopenR
  · intro afps fpafp _
    apply ends_fopenR
    · intro logs fplog hfplog
      apply ends_fopenW
      · intro _ fpdst hfpdst
        exact ends_closing [fpafp, fplog, fpdst] (by grind) _
      · intro _
        exact ends_closing [fpafp, fplog] (by grind) _
    · exact ends_closing [fpafp] (by simp) _
  · exact ends_pure Finset.notMem_empty _

theorem topAfpFile_ends {limit : ℕ} {cnt : ℤ} : Ends ∅ (topAfpFile A o limit org dst cnt)
    (ProDeal.topAfpFile o limit org dst cnt) True := by
  apply ends_fopenR
  · intro logs fpo _
    apply ends_fopenW
    · intro _ fpd hfpd
      apply Ends.lift
      intro out _
      exact ends_closing [fpo, fpd] (by grind) _
    · intro _
      exact ends_closing [fpo] (by simp) _
  · exact ends_pure Finset.notMem_empty _

theorem botAfpFile_ends {limit : ℕ} : Ends ∅ (botAfpFile A o limit org dst)
    (ProDeal.botAfpFile o limit org dst) True := by
  apply ends_fopenR
  · intro afps fpa _
    apply ends_fopenR
    · intro logs fpo hfpo
      apply ends_fopenW
      · intro _ fpd hfpd
        apply Ends.lift
        intro songs _
        exact ends_closing [fpo, fpa, fpd] (by grind) _
      · intro _
        exact ends_closing [fpa, fpo] (by grind) _
    · exact ends_closing [fpa] (by simp) _
  · exact ends_pure Finset.notMem_empty _

theorem movAfpFile_ends : Ends ∅ (movAfpFile A o org dst wrk) (ProDeal.movAfpFile o org dst wrk)
    (o.call 0 = false) := by
  apply ends_tryOpen
  · intro h0 dp _
    refine Ends.congr ?_ (iff_of_false id (by simp [h0]))
    apply ends_guard
    intro _
    apply ends_fopenR
    · intro names fp hfp
      apply Ends.lift
      intro moved _
      apply Ends.release (by grind)
      exact ends_leak ⟨dp, by grind⟩ _
    · exact ends_leak (by simp) _
  · intro h0
    exact (ends_pure Finset.notMem_empty _).congr (iff_of_true trivial h0)

theorem movCntFile_ends {pos cnt : ℤ} : Ends ∅ (movCntFile A o org dst wrk pos cnt)
    (ProDeal.movCntFile o org dst wrk pos cnt) (o.call 0 = false) := by
  apply ends_tryOpen
  · intro h0 dp _
    refine Ends.congr ?_ (iff_of_false id (by simp [h0]))
    apply ends_guard
    intro _
    apply ends_fopenR
    · intro names fp hfp
      apply Ends.lift
      intro moved _
      exact ends_leak (by simp) _
    · exact ends_leak (by simp) _
  · intro h0
    exact (ends_pure Finset.notMem_empty _).congr (iff_of_true trivial h0)

theorem copyLog_ends {n : FileName} : Ends ∅ (copyLog A o org dst n)
    ((org.fopenR (o.file n) n).bind fun
      | some t => do
        guard (o.call 2)
        return (org, dst.write n ((reads MAX_LINE_LEN t).map cstr).flatten)
      | _ => return (org, dst)) True := by
  apply ends_fopenR
  · intro t forg _
    apply ends_guard
    intro _
    apply Ends.acquire
    intro fdst hfdst
    exact ends_closing [forg, fdst] (by grind) _
  · exact ends_pure Finset.notMem_empty _

theorem movLog_ends (od : Folder × Folder) (n : FileName) :
    Ends ∅ (movLog A o od n) (ProDeal.movLog o od n) True := by
  obtain ⟨org, dst⟩ := od
  apply ends_guard
  intro hfits
  by_cases hn : n ≠ serverLog
  · rw [if_pos hn, if_pos hn]
    exact ends_pure Finset.notMem_empty _
  · rw [if_neg hn, if_neg hn]
    have hfit : org.fits n = true := (Bool.and_eq_true_iff.mp hfits).1
    have hread : org.fopenR (o.file n) n =
        some (if o.file n then org.files.lookup n else none) := if_pos hfit
    have hmain : Ends ∅ (copyLog A o org dst n) _ True := copyLog_ends
    rw [hread, Option.bind_some] at hmain
    exact hmain

theorem movLogFile_ends {s : Text} : Ends ∅ (movLogFile A o s org dst)
    (ProDeal.movLogFile o s org dst) True := by
  apply ends_tryOpen
  · intro _ dpd _
    apply ends_guard
    intro _
    apply Ends.release (by grind)
    apply ends_tryOpen
    · intro _ dpo hdpo
      have hmoves := ends_foldlM (movLog_ends (A := A) (o := o)) org.files.keys
      refine Ends.congr (Ends.bind (hmoves _) ?_) (iff_of_true ⟨fun _ _ ↦ trivial, trivial⟩ trivial)
      intro moved _
      exact ends_closing [dpo] (by simp) _
    · intro _
      exact ends_pure (by simp) _
  · intro _
    exact ends_pure Finset.notMem_empty _

def entryIds (o : Opens) (org : Folder) (n : FileName) : List Text :=
  (if o.file n then org.files.lookup n else none).elim [] fun t ↦
    (reads MAX_LINE_LEN t).filterMap songId

theorem countLog_ends (org : Folder) (n : FileName) : Ends ∅ (countLog A o org n)
    (if org.fits n then some (entryIds o org n) else none) True := by
  have hread : Ends ∅ (countLog A o org n) ((org.fopenR (o.file n) n).bind fun t ↦
      some (t.elim [] fun t ↦ (reads MAX_LINE_LEN t).filterMap songId)) True := by
    apply ends_fopenR
    · intro t forg _
      exact ends_closing [forg] (by simp) _
    · exact ends_pure Finset.notMem_empty _
  unfold Folder.fopenR at hread
  split at hread
  · next hfits =>
    rw [if_pos hfits]
    exact hread
  · next hfits =>
    rw [if_neg hfits]
    exact hread

theorem flatten_entryIds (o : Opens) (org : Folder) :
    (org.files.keys.map (entryIds o org)).flatten = countedIds o org := by
  unfold countedIds
  generalize org.files.keys = ns
  induction ns with
  | nil => rfl
  | cons n ns ih =>
    rw [List.map_cons, List.flatten_cons, ih, List.filterMap_cons, entryIds]
    cases if o.file n then org.files.lookup n else none with
    | none => rfl
    | some t => rw [List.flatMap_cons]; rfl

theorem cntSrhNums_ends {σ : Sorter (Text × ℕ)} {flg : ℤ} :
    Ends ∅ (cntSrhNums A o σ org dst flg) (ProDeal.cntSrhNums o σ org dst flg)
      (o.call 0 = true → o.call 1 = true) := by
  have hcount := ends_mapM (countLog_ends (A := A) (o := o) org) org.files.keys
  rw [mapM_eq_ite fun _ ↦ rfl] at hcount
  apply ends_tryOpen
  · intro h0 dp _
    apply ends_fopenW
    · intro h1 fdst hfdst
      refine Ends.congr ?_ (iff_of_true trivial fun _ ↦ h1)
      by_cases hfits : org.files.keys.all org.fits = true
      · rw [if_pos (List.all_eq_true.mp hfits)] at hcount
        simp only [guard, if_pos hfits]
        apply hcount.bind_some
        rw [flatten_entryIds]
        apply Ends.lift
        intro lines _
        exact ends_closing [fdst, dp] (by grind) _
      · rw [if_neg fun h ↦ hfits (List.all_eq_true.mpr h)] at hcount
        simp only [guard, if_neg hfits]
        exact hcount.bind_none
    · intro h1
      refine Ends.congr ?_ (iff_of_false id (by simp [h0, h1]))
      exact ends_leak (by simp) _
  · intro h0
    exact (ends_pure Finset.notMem_empty _).congr (iff_of_true trivial (by simp [h0]))

end Stages

end FingerMove.ProDeal.Handles
