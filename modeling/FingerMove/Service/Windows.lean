import FingerMove.Library.Windows
import FingerMove.Service.Rounds

namespace FingerMove.Service.Rounds

open CText Directory ProDeal Function Windows

/-- The names that a call of `movCntFile` hands to `rename`, in this order. -/
def attempts (wrk : Folder) (pos cnt : ℤ) : Option (List FileName) := do
  let names ← wrk.files.lookup botAfpsFile
  (window pos cnt 0 (reads MAX_LINE_LEN names)).mapM chop

def Visit.share (v : Visit) : ℕ := (v.result.getD 0).toNat

def shares (vs : List Visit) : List ℕ := vs.map Visit.share

section Attempts

variable {wrk : Folder} {names : List FileName} {bots : Text}

theorem mapM_chop_nameText (names : List FileName) :
    (names.map nameText).mapM chop = some names := by
  induction names with
  | nil => rfl
  | cons n names ih =>
    rw [List.map_cons, List.mapM_cons, chop_nameText, ih]
    rfl

theorem reads_names (hnames : ∀ n ∈ names, '\n' ∉ n.text ∧ (nameText n).length < MAX_LINE_LEN) :
    reads MAX_LINE_LEN (names.map nameText).flatten = names.map nameText :=
  reads_flatten (List.forall_mem_map.mpr fun n hn ↦
    nameText_isLine (hnames n hn).1 (hnames n hn).2)

theorem window_names (hnames : ∀ n ∈ names, '\n' ∉ n.text ∧ (nameText n).length < MAX_LINE_LEN)
    (pos cnt : ℕ) :
    (window pos cnt 0 (reads MAX_LINE_LEN (names.map nameText).flatten)).mapM chop =
      some ((names.drop pos).take cnt) := by
  have hwindow : window pos cnt 0 (names.map nameText) =
      ((names.drop pos).take cnt).map nameText := by
    have hzero := window_eq pos cnt 0 (names.map nameText)
    rw [Nat.cast_zero, Nat.sub_zero, Nat.zero_sub, Nat.sub_zero] at hzero
    rw [hzero, ← List.map_drop, ← List.map_take]
  rw [reads_names hnames, hwindow, mapM_chop_nameText]

theorem attempts_eq (hbots : wrk.files.lookup botAfpsFile = some (names.map nameText).flatten)
    (hnames : ∀ n ∈ names, '\n' ∉ n.text ∧ (nameText n).length < MAX_LINE_LEN) (pos cnt : ℕ) :
    attempts wrk pos cnt = some ((names.drop pos).take cnt) := by
  rw [attempts, hbots, Option.bind_eq_bind, Option.bind_some, window_names hnames]

end Attempts

section Visits

variable {g_sublist : List Text} {s t : RunLoop.State} {v : Visit} {vs : List Visit}
variable {n m : ℤ} {r : ℤ}

theorem visit_moves (hv : v.result = some r) (h0 : v.mov.call 0 = true) (h1 : v.mov.call 1 = true)
    {bots : Text} (hbots : s.host.wrk.files.lookup botAfpsFile = some bots)
    (h : visit g_sublist (s, n) v = some (t, m)) : m = n + r ∧ t.host.wrk = s.host.wrk ∧
      ∃ ns, attempts s.host.wrk n r = some ns ∧
        t.host.afp.files = (moveAll ns s.host.afp.files ∅).1 ∧
        t.host.org.files = (moveAll ns s.host.afp.files ∅).2 := by
  unfold visit at h
  simp only [hv] at h
  obtain ⟨⟨code, afp, org⟩, hmov, h⟩ := Option.bind_eq_some_iff.mp h
  obtain ⟨_, -, h⟩ := Option.bind_eq_some_iff.mp h
  obtain ⟨rfl, rfl⟩ := Prod.mk.inj (Option.some.inj h)
  refine ⟨rfl, rfl, ?_⟩
  obtain ⟨hclosed, -⟩ | ⟨-, ns, hafp, horg, hread⟩ := movFiles_cases hmov
  · rw [h0] at hclosed
    cases hclosed
  · obtain ⟨-, -, hnone⟩ | ⟨-, -, names, hnames, hns⟩ := hread
    · rw [hnone h1] at hbots
      cases hbots
    · refine ⟨ns, ?_, hafp, horg⟩
      rw [attempts, hnames]
      exact hns

theorem visit_count (hr : ∀ r, v.result = some r → 0 ≤ r)
    (h : visit g_sublist (s, n) v = some (t, m)) :
    m = n + v.share ∧ t.host.wrk = s.host.wrk := by
  cases hv : v.result with
  | none =>
    rw [visit_failed hv] at h
    obtain ⟨rfl, rfl⟩ := Prod.mk.inj (Option.some.inj h)
    simp [Visit.share, hv]
  | some r =>
    have hpos := hr r hv
    unfold visit at h
    simp only [hv] at h
    obtain ⟨_, -, h⟩ := Option.bind_eq_some_iff.mp h
    obtain ⟨_, -, h⟩ := Option.bind_eq_some_iff.mp h
    obtain ⟨rfl, rfl⟩ := Prod.mk.inj (Option.some.inj h)
    refine ⟨?_, rfl⟩
    simp only [Visit.share, hv, Option.getD_some]
    omega

theorem visits_count (hr : ∀ v ∈ vs, ∀ r, v.result = some r → 0 ≤ r)
    (h : vs.foldlM (visit g_sublist) (s, n) = some (t, m)) :
    m = n + (shares vs).sum ∧ t.host.wrk = s.host.wrk := by
  induction vs generalizing s n with
  | nil =>
    obtain ⟨rfl, rfl⟩ := Prod.mk.inj (Option.some.inj h)
    simp [shares]
  | cons v vs ih =>
    obtain ⟨hv, hvs⟩ := List.forall_mem_cons.mp hr
    obtain ⟨⟨u, k⟩, hu, h⟩ := Option.bind_eq_some_iff.mp h
    obtain ⟨hk, hwrk⟩ := visit_count hv hu
    obtain ⟨hm, hwrk'⟩ := ih hvs h
    have hsum : (shares (v :: vs)).sum = v.share + (shares vs).sum := List.sum_cons
    refine ⟨?_, hwrk'.trans hwrk⟩
    rw [hm, hk, hsum, Nat.cast_add, add_assoc]

def twoNames : List FileName := [.ofC "1.afp".toList, .ofC "2.afp".toList]

def listedHost : RunLoop.State where
  host := {
    afp := .ofList "afp" [("1.afp", "x"), ("2.afp", "y")]
    dat := .ofList "runlog" []
    wrk := .ofList "wrk" [("botAfpsFile.tmp", "1.afp\n2.afp\n")]
    org := .ofList "org" []
    dst := .ofList "dst" []
    log := .ofList "log" [] }
  group _ := ⟨.ofList "dst" [], []⟩
  sub _ := .ofList "afp" []
  pc := .waiting

def visitOf (addr : String) (result : ℤ) : Visit :=
  ⟨addr.toList, some result, allOpen, false, fun _ ↦ ⟨true, .answered, true, fun _ ↦ .answered⟩⟩

def twoGroups : List Visit := [visitOf "g1" 1, visitOf "g2" 3]

end Visits

end FingerMove.Service.Rounds
