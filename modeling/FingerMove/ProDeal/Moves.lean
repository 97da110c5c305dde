import FingerMove.ProDeal.Pipeline

namespace FingerMove.ProDeal

open CText Directory

variable {o : Opens} {org dst wrk org' dst' : Folder} {list : FileName}
variable {take : List Text → List Text} {r : ℤ}

theorem chop_nameText (n : FileName) : chop (nameText n) = some n := by
  have hne : nameText n ≠ [] := by simp [nameText]
  simp only [chop, cstr_nameText, hne, if_false]
  simp [nameText]

theorem mapM_chop {lines : List Text} {ns : List FileName}
    (hl : ∀ line ∈ lines, ∃ n, line = nameText n) (h : lines.mapM chop = some ns) :
    lines = ns.map nameText := by
  induction lines generalizing ns with
  | nil =>
    obtain rfl := Option.some.inj h
    rfl
  | cons line lines ih =>
    obtain ⟨⟨n, rfl⟩, hls⟩ := List.forall_mem_cons.mp hl
    simp only [List.mapM_cons, chop_nameText, Option.bind_eq_bind, Option.bind_some,
      Option.bind_eq_some_iff, Option.pure_def, Option.some.injEq] at h
    obtain ⟨ns', hns, rfl⟩ := h
    rw [List.map_cons, ← ih hls hns]

theorem mem_mapM {α β : Type*} {f : α → Option β} {l : List α} {ys : List β}
    (h : l.mapM f = some ys) {y : β} : y ∈ ys ↔ ∃ x ∈ l, f x = some y := by
  induction l generalizing ys with
  | nil =>
    obtain rfl := Option.some.inj h
    simp
  | cons x l ih =>
    simp only [List.mapM_cons, Option.bind_eq_bind, Option.bind_eq_some_iff, Option.pure_def,
      Option.some.injEq] at h
    obtain ⟨z, hz, zs, hzs, rfl⟩ := h
    simp [ih hzs, hz, eq_comm]

theorem length_mapM {α β : Type*} {f : α → Option β} {l : List α} {ys : List β}
    (h : l.mapM f = some ys) : ys.length = l.length := by
  induction l generalizing ys with
  | nil =>
    obtain rfl := Option.some.inj h
    rfl
  | cons x l ih =>
    simp only [List.mapM_cons, Option.bind_eq_bind, Option.bind_eq_some_iff, Option.pure_def,
      Option.some.injEq] at h
    obtain ⟨z, -, zs, hzs, rfl⟩ := h
    rw [List.length_cons, List.length_cons, ih hzs]

theorem moveLines_eq_some {lines : List Text} {r : Folder × Folder}
    (h : moveLines org dst lines = some r) : ∃ ns, lines.mapM chop = some ns ∧
      r.1.files = (moveAll ns org.files dst.files).1 ∧
      r.2.files = (moveAll ns org.files dst.files).2 := by
  simp only [moveLines, Option.bind_eq_bind, Option.bind_eq_some_iff, Option.pure_def,
    Option.some.injEq] at h
  obtain ⟨ns, hns, _, _, rfl⟩ := h
  exact ⟨ns, hns, rfl, rfl⟩

theorem movFiles_cases (h : movFiles o org dst wrk list take = some (r, org', dst')) :
    (o.call 0 = false ∧ r = -1 ∧ org' = org ∧ dst' = dst) ∨
      (o.call 0 = true ∧ ∃ ns, org'.files = (moveAll ns org.files ∅).1 ∧
        dst'.files = (moveAll ns org.files ∅).2 ∧
        (r = -1 ∧ ns = [] ∧ (o.call 1 = true → wrk.files.lookup list = none) ∨
          r = 0 ∧ o.call 1 = true ∧ ∃ names, wrk.files.lookup list = some names ∧
            (take (reads MAX_LINE_LEN names)).mapM chop = some ns)) := by
  unfold movFiles at h
  split at h
  · next hopen =>
    simp only [Option.pure_def, Option.some.injEq, Prod.mk.injEq] at h
    exact .inl ⟨by simpa using hopen, h.1.symm, h.2.1.symm, h.2.2.symm⟩
  · next hopen =>
    refine .inr ⟨by simpa using hopen, ?_⟩
    simp only [Option.bind_eq_bind, Option.bind_eq_some_iff] at h
    obtain ⟨_, _, _ | names, hnames, h⟩ := h
    · simp only [Option.pure_def, Option.some.injEq, Prod.mk.injEq] at h
      obtain ⟨rfl, rfl, rfl⟩ := h
      exact ⟨[], rfl, clear_files, .inl ⟨rfl, rfl, fopenR_none hnames⟩⟩
    · simp only [Option.bind_eq_some_iff, Option.pure_def, Option.some.injEq, Prod.mk.injEq] at h
      obtain ⟨⟨a, d⟩, hmove, rfl, rfl, rfl⟩ := h
      obtain ⟨ns, hns, horg, hdst⟩ := moveLines_eq_some hmove
      rw [clear_files] at horg hdst
      obtain ⟨hcall, hlookup⟩ := fopenR_some hnames
      exact ⟨ns, horg, hdst, .inr ⟨rfl, hcall, names, hlookup, hns⟩⟩

theorem movFiles_path (h : movFiles o org dst wrk list take = some (r, org', dst')) :
    org'.path = org.path ∧ dst'.path = dst.path := by
  unfold movFiles at h
  split at h
  · obtain ⟨-, h⟩ := Prod.mk.inj (Option.some.inj h)
    obtain ⟨rfl, rfl⟩ := Prod.mk.inj h
    exact ⟨rfl, rfl⟩
  · simp only [Option.bind_eq_bind, Option.bind_eq_some_iff] at h
    obtain ⟨_, -, _ | names, -, h⟩ := h
    · obtain ⟨-, h⟩ := Prod.mk.inj (Option.some.inj h)
      obtain ⟨rfl, rfl⟩ := Prod.mk.inj h
      exact ⟨rfl, rfl⟩
    · obtain ⟨⟨a, b⟩, hmove, h⟩ := Option.bind_eq_some_iff.mp h
      obtain ⟨-, h⟩ := Prod.mk.inj (Option.some.inj h)
      obtain ⟨rfl, rfl⟩ := Prod.mk.inj h
      obtain ⟨_, -, hmove⟩ := Option.bind_eq_some_iff.mp hmove
      obtain ⟨_, -, hmove⟩ := Option.bind_eq_some_iff.mp hmove
      obtain ⟨rfl, rfl⟩ := Prod.mk.inj (Option.some.inj hmove)
      exact ⟨rfl, rfl⟩

/-- Of the files of `org` none is lost on the way; those of `dst` are. -/
theorem movFiles_keeps (h : movFiles o org dst wrk list take = some (r, org', dst')) :
    (o.call 0 = false ∧ org' = org ∧ dst' = dst) ∨
      (o.call 0 = true ∧ files org'.files ∪ files dst'.files =
        files org.files) := by
  obtain ⟨hopen, -, horg, hdst⟩ | ⟨hopen, ns, horg, hdst, -⟩ := movFiles_cases h
  · exact .inl ⟨hopen, horg, hdst⟩
  · rw [horg, hdst, files_moveAll]
    exact .inr ⟨hopen, rfl⟩

theorem movFiles_ok (h : movFiles o org dst wrk list take = some (0, org', dst')) :
    ∃ names ns, wrk.files.lookup list = some names ∧
      (take (reads MAX_LINE_LEN names)).mapM chop = some ns ∧
      org'.files = (moveAll ns org.files ∅).1 ∧ dst'.files = (moveAll ns org.files ∅).2 := by
  obtain ⟨-, h0, -⟩ | ⟨-, ns, horg, hdst, ⟨h0, -⟩ | ⟨-, -, names, hnames, hns⟩⟩ := movFiles_cases h
  · simp at h0
  · simp at h0
  · exact ⟨names, ns, hnames, hns, horg, hdst⟩

theorem window_sublist (pos cnt count : ℤ) (lines : List Text) :
    (window pos cnt count lines).Sublist lines := by
  induction lines generalizing count with
  | nil => exact .slnil
  | cons line lines ih =>
    rw [window]
    split
    · exact (ih _).cons _
    · split
      · exact List.nil_sublist _
      · exact (ih _).cons_cons _

theorem length_window (pos cnt count : ℤ) (lines : List Text) :
    (window pos cnt count lines).length ≤ (pos + cnt - max pos count).toNat := by
  induction lines generalizing count with
  | nil => exact Nat.zero_le _
  | cons line lines ih =>
    have hnext := ih (count + 1)
    rw [window]
    split
    · omega
    · split
      · exact Nat.zero_le _
      · rw [List.length_cons]
        omega

theorem window_eq (pos cnt count : ℕ) (lines : List Text) :
    window pos cnt count lines = (lines.drop (pos - count)).take (cnt - (count - pos)) := by
  induction lines generalizing count with
  | nil => simp [window]
  | cons line lines ih =>
    simp only [window]
    have hnext := ih (count + 1)
    push_cast at hnext
    split
    · next hlt =>
      rw [hnext, show pos - count = pos - (count + 1) + 1 by omega, List.drop_succ_cons]
      congr 1
      omega
    · next hge =>
      rw [show pos - count = 0 by omega, List.drop_zero]
      split
      · next hend => rw [show cnt - (count - pos) = 0 by omega, List.take_zero]
      · next hin =>
        rw [hnext, show cnt - (count - pos) = cnt - (count + 1 - pos) + 1 by omega,
          List.take_succ_cons, show pos - (count + 1) = 0 by omega, List.drop_zero]

end FingerMove.ProDeal
