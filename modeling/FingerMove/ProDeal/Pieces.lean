import Mathlib.Data.Multiset.Bind
import FingerMove.ProDeal.Counts
import FingerMove.ProDeal.LogHistory

namespace FingerMove.ProDeal

open CText Directory LogHistory

/-- The song of a line whose second bar is in its first piece. -/
def early (line : Text) : Option Text :=
  (songId line).filter fun id ↦ line.idxOf '|' + 1 + id.length < MAX_LINE_LEN - 1

/-- The song of a line whose second bar is not in its first piece. -/
def late (line : Text) : Option Text :=
  (songId line).filter fun id ↦ MAX_LINE_LEN - 1 ≤ line.idxOf '|' + 1 + id.length

/-- The songs that the pieces of a line after the first one seem to name. -/
def stray (line : Text) : List Text :=
  (List.range line.length).filterMap fun k ↦ songId (piece MAX_LINE_LEN line (k + 1))

def logDir (path : Text) (n : FileName) (log : Text) : Folder := ⟨path, AList.singleton n log⟩

section Pieces

variable {line log : Text}

theorem countedIds_logDir (path : Text) (n : FileName) (log : Text) :
    countedIds allOpen (logDir path n log) = songs log := by
  have hlookup : (AList.singleton n log : Dir FileName Text).lookup n = some log :=
    AList.lookup_insert ∅
  simp [countedIds, logDir, allOpen, AList.keys, songs, hlookup]

theorem idxOf_bar {u v : Text} (hu : '|' ∉ u) : (u ++ '|' :: v).idxOf '|' = u.length := by
  rw [List.idxOf_append_of_notMem hu, List.idxOf_cons_self, Nat.add_zero]

theorem songId_take (h : '\x00' ∉ line) (m : ℕ) : songId (line.take m) =
    (songId line).filter fun id ↦ line.idxOf '|' + 1 + id.length < m := by
  have htake : '\x00' ∉ line.take m := fun hmem ↦ h (List.take_subset _ _ hmem)
  ext id
  rw [Option.filter_eq_some_iff, songId_eq_some_iff, songId_eq_some_iff, decide_eq_true_eq,
    Qualifies, Qualifies, cstr_eq_self h, cstr_eq_self htake]
  constructor
  · intro hq
    obtain ⟨hdollars, hne, u, v, huv, hu, hid⟩ := hq
    have hline : line = u ++ '|' :: (id ++ '|' :: (v ++ line.drop m)) := by
      conv_lhs => rw [← List.take_append_drop m line, huv]
      simp
    have hlength := congrArg List.length huv
    simp only [List.length_take, List.length_append, List.length_cons] at hlength
    refine ⟨⟨hdollars.trans (List.take_prefix _ _), hne, u, _, hline, hu, hid⟩, ?_⟩
    rw [hline, idxOf_bar hu]
    omega
  · intro hq
    obtain ⟨⟨hdollars, hne, u, v, huv, hu, hid⟩, hlt⟩ := hq
    rw [huv, idxOf_bar hu] at hlt
    have hshort : line.take m =
        u ++ '|' :: (id ++ '|' :: v.take (m - (u ++ '|' :: (id ++ ['|'])).length)) := by
      have hsplit : line = (u ++ '|' :: (id ++ ['|'])) ++ v := by rw [huv]; simp
      have hle : (u ++ '|' :: (id ++ ['|'])).length ≤ m := by
        simp only [List.length_append, List.length_cons, List.length_nil]
        omega
      conv_lhs => rw [hsplit, List.take_append, List.take_of_length_le hle]
      simp
    refine ⟨List.prefix_take_iff.mpr ⟨hdollars, ?_⟩, hne, u, _, hshort, hu, hid⟩
    simp only [List.length_cons, List.length_nil]
    omega

theorem songs_line (hnul : '\x00' ∉ line) (h : '\n' ∉ line.dropLast) :
    songs line = (early line).toList ++ stray line := by
  have hnone : songId [] = none := rfl
  have hfirst : songId (piece MAX_LINE_LEN line 0) = early line := by
    rw [piece, Nat.mul_zero, List.drop_zero, songId_take hnul, early]
  rw [songs, reads_filterMap (by decide) hnone h (Nat.le_succ _), List.range_succ_eq_map,
    List.filterMap_cons, List.filterMap_map, hfirst, stray]
  cases early line <;> rfl

theorem early_add_late (line : Text) :
    ((early line).toList : Multiset Text) + (late line).toList = (songId line).toList := by
  unfold early late
  cases songId line with
  | none => rfl
  | some id =>
    by_cases h : line.idxOf '|' + 1 + id.length < MAX_LINE_LEN - 1
    · rw [Option.filter_some_pos (by simpa only [decide_eq_true_eq] using h),
        Option.filter_some_neg (by simpa only [decide_eq_false_iff_not, not_le] using h)]
      rfl
    · rw [Option.filter_some_neg (by simpa only [decide_eq_false_iff_not] using h),
        Option.filter_some_pos (by simpa only [decide_eq_true_eq, not_lt] using h)]
      rfl

theorem songs_eq (h : '\x00' ∉ log) : songs log =
    (lines log).flatMap fun line ↦ (early line).toList ++ stray line := by
  rw [songs, ← reads_lines (by decide), List.filterMap_flatMap]
  apply List.flatMap_congr
  intro line hline
  exact songs_line (fun hmem ↦ h (subset_of_mem_lines hline hmem)) (newline_of_mem_lines hline)

/-- The pieces of a log give the songs of its lines exactly when the pieces that
only look like a record stand in for the records that are cut before their
second bar, and no line has two pieces that count. -/
theorem pieces_agree_iff (path : Text) (n : FileName) (h : '\x00' ∉ log) :
    ((countedIds allOpen (logDir path n log) : Multiset Text) = (lines log).filterMap songId ∧
      ∀ line ∈ lines log, (songs line).length ≤ 1) ↔
    (((lines log).flatMap stray : Multiset Text) = (lines log).filterMap late ∧
      ∀ line ∈ lines log, (early line).toList.length + (stray line).length ≤ 1) := by
  have hcounted : (songs log : Multiset Text) = ((lines log : Multiset Text).bind fun line ↦
      ((early line).toList : Multiset Text)) + ((lines log).flatMap stray : Multiset Text) := by
    rw [songs_eq h, ← Multiset.coe_bind, ← Multiset.coe_bind, ← Multiset.bind_add]
    rfl
  have hwhole : ((lines log).filterMap songId : Multiset Text) =
      ((lines log : Multiset Text).bind fun line ↦ ((early line).toList : Multiset Text)) +
        (lines log).filterMap late := by
    simp only [List.filterMap_eq_flatMap_toList, ← Multiset.coe_bind, ← Multiset.bind_add,
      early_add_late]
  rw [countedIds_logDir, hcounted, hwhole, add_right_inj]
  refine and_congr Iff.rfl (forall₂_congr fun line hline ↦ ?_)
  rw [songs_line (fun hmem ↦ h (subset_of_mem_lines hline hmem)) (newline_of_mem_lines hline),
    List.length_append]

def twoRecords : Text := "$$|5|x\n$$|7\n".toList

theorem pieces_agree_iff_twoRecords :
    ((countedIds allOpen (logDir [] serverLog twoRecords) : Multiset Text) =
        (lines twoRecords).filterMap songId ∧
      ∀ line ∈ lines twoRecords, (songs line).length ≤ 1) ↔
    (((lines twoRecords).flatMap stray : Multiset Text) = (lines twoRecords).filterMap late ∧
      ∀ line ∈ lines twoRecords, (early line).toList.length + (stray line).length ≤ 1) :=
  pieces_agree_iff [] serverLog (by decide)

def longLine : Text := "$$|5|".toList ++ List.replicate 1018 'x' ++ "$$|6|y\n".toList

theorem pieces_agree_not :
    countedIds allOpen (logDir [] serverLog longLine) = ["5".toList, "6".toList] ∧
      (lines longLine).filterMap songId = ["5".toList] := by
  decide +kernel

end Pieces

end FingerMove.ProDeal
