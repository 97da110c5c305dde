import FingerMove.ProDeal.Round

namespace FingerMove.ProDeal

open CText Directory Tally

variable {σ : Sorter (Text × ℕ)} {CACHE_LIMIT : ℕ} {afp logs wrk : Folder}

/-- The tally behind an entry of the bottom list. -/
inductive EntryTally (b : Bottom σ CACHE_LIMIT afp logs wrk) : Text → ℕ → Prop
  | cold (n : FileName) : n ∈ afp.files.keys → (∀ id ∈ b.ids, atoi id ≠ atoi n.text) →
      EntryTally b (nameText n) 0
  | song (id : Text) : id ∈ b.ids → EntryTally b (id ++ ['\n']) (b.ids.count id)

theorem EntryTally.unique {b : Bottom σ CACHE_LIMIT afp logs wrk} {line : Text} {t u : ℕ}
    (ht : EntryTally b line t) (hu : EntryTally b line u) : t = u := by
  have hdisjoint : ∀ n : FileName, (∀ id ∈ b.ids, atoi id ≠ atoi n.text) → ∀ id ∈ b.ids,
      id ++ ['\n'] ≠ nameText n := by
    intro n hfree id hid he
    exact hfree id hid (congrArg atoi (List.append_cancel_right he))
  generalize hl : line = l at ht
  cases ht with
  | cold n hn hfree =>
    cases hu with
    | cold => rfl
    | song id hid => exact absurd hl (hdisjoint n hfree id hid)
  | song id hid =>
    cases hu with
    | cold n hn hfree => exact absurd hl.symm (hdisjoint n hfree id hid)
    | song id' hid' => rw [List.append_cancel_right hl]

theorem le_of_getLast {es : List (Text × ℕ)} (h : es.Pairwise fun x y ↦ x.2 ≤ y.2) {x : Text × ℕ}
    (hx : x ∈ es) : (x.2 : ℤ) ≤ es.getLast?.elim 0 fun x ↦ (x.2 : ℤ) := by
  rcases List.eq_nil_or_concat' es with rfl | ⟨init, z, rfl⟩
  · simp at hx
  · rw [List.getLast?_concat]
    obtain ⟨-, -, hlast⟩ := List.pairwise_append.mp h
    rcases List.mem_append.mp hx with hx | hx
    · simpa using hlast x hx z (List.mem_singleton_self z)
    · simp [List.mem_singleton.mp hx]

theorem getLast_le {es : List (Text × ℕ)} {k : ℕ} (h : ∀ x ∈ es, x.2 ≤ k) :
    (es.getLast?.elim 0 fun x ↦ (x.2 : ℤ)) ≤ k := by
  cases hl : es.getLast? with
  | none => simp
  | some z => simpa using h z (List.mem_of_getLast? hl)

variable (b : Bottom σ CACHE_LIMIT afp logs wrk)

theorem survivors_ascending : b.survivors.Pairwise fun x y ↦ x.2 ≤ y.2 :=
  b.survivors_sorted.imp fun h ↦ by simpa [lmp] using h

theorem bottom_le_thr (hn : ∀ n ∈ afp.files.keys, '\n' ∉ n.text) (hids : ∀ id ∈ b.ids, id ≠ [])
    {line : Text} (hl : line ∈ b.lines) : ∃ t : ℕ, EntryTally b line t ∧ (t : ℤ) ≤ b.thr := by
  obtain ⟨hlines, hthr⟩ := b.spec hn hids
  rw [hlines] at hl
  rw [hthr]
  rcases List.mem_append.mp hl with hl | hl
  · obtain ⟨n, hmem, rfl⟩ := List.mem_map.mp hl
    obtain ⟨hkey, hfree⟩ := b.mem_unmatched.mp (List.mem_of_mem_take hmem)
    refine ⟨0, .cold n hkey hfree, ?_⟩
    cases b.songs.getLast? <;> simp
  · obtain ⟨x, hmem, rfl⟩ := List.mem_map.mp hl
    obtain ⟨hid, hcount, -⟩ := b.mem_survivors.mp (List.mem_of_mem_take hmem)
    refine ⟨x.2, hcount ▸ .song x.1 hid, ?_⟩
    exact le_of_getLast ((survivors_ascending b).sublist (List.take_sublist _ _)) hmem

theorem thr_le_left_off (hn : ∀ n ∈ afp.files.keys, '\n' ∉ n.text) (hids : ∀ id ∈ b.ids, id ≠ [])
    {id : Text} (hid : id ∈ b.ids) (hk : countText (id, b.ids.count id) ∈ b.kept)
    (hoff : id ++ ['\n'] ∉ b.lines) : b.thr ≤ b.ids.count id := by
  obtain ⟨hlines, hthr⟩ := b.spec hn hids
  have hmem := b.mem_survivors_of_kept hn hids hid hk
  rw [hthr]
  apply getLast_le
  intro x hx
  have hsplit := survivors_ascending b
  rw [← List.take_append_drop (CACHE_LIMIT - b.cold.length) b.survivors] at hsplit hmem
  rcases List.mem_append.mp hmem with htake | hdrop
  · refine absurd ?_ hoff
    rw [hlines]
    exact List.mem_append_right _ (List.mem_map_of_mem (f := botText) htake)
  · exact (List.pairwise_append.mp hsplit).2.2 x hx _ hdrop

theorem thr_lt_top {thr : ℤ} {GROUP_LIMIT : ℕ} (g : Top σ GROUP_LIMIT thr afp logs wrk)
    (hn : ∀ n ∈ afp.files.keys, '\n' ∉ n.text) (hids : ∀ id ∈ g.ids, id ≠ [])
    {line : Text} (hl : line ∈ g.lines) :
    ∃ id ∈ g.ids, line = id ++ ".afp\n".toList ∧ thr < g.ids.count id := by
  rw [(g.spec hn hids).1] at hl
  obtain ⟨x, hx, rfl⟩ := List.mem_map.mp hl
  have hthr : thr < x.2 := by simpa using List.mem_takeWhile_imp hx
  have hsurvivor := List.mem_of_mem_take ((List.takeWhile_prefix _).subset hx)
  obtain ⟨hid, hcount, -⟩ := g.mem_survivors.mp hsurvivor
  exact ⟨x.1, hid, rfl, hcount ▸ hthr⟩

/-- The threshold of a round separates what the main cache gives away from
what it keeps, and from everything that any group offers it. -/
theorem threshold_separates (hn : ∀ n ∈ afp.files.keys, '\n' ∉ n.text)
    (hids : ∀ id ∈ b.ids, id ≠ []) :
    (∀ line ∈ b.lines, ∃ t : ℕ, EntryTally b line t ∧ (t : ℤ) ≤ b.thr) ∧
    (∀ id ∈ b.ids, countText (id, b.ids.count id) ∈ b.kept → id ++ ['\n'] ∉ b.lines →
      b.thr ≤ b.ids.count id) ∧
    ∀ {σ' : Sorter (Text × ℕ)} {GROUP_LIMIT : ℕ} {afp' logs' wrk' : Folder}
      (g : Top σ' GROUP_LIMIT b.thr afp' logs' wrk'),
      (∀ n ∈ afp'.files.keys, '\n' ∉ n.text) → (∀ id ∈ g.ids, id ≠ []) →
      ∀ offer ∈ g.lines, ∃ id ∈ g.ids, offer = id ++ ".afp\n".toList ∧ b.thr < g.ids.count id ∧
        ∀ line ∈ b.lines, ∃ t : ℕ, EntryTally b line t ∧ t < g.ids.count id := by
  refine ⟨fun line hl ↦ bottom_le_thr b hn hids hl,
    fun id hid hk hoff ↦ thr_le_left_off b hn hids hid hk hoff, ?_⟩
  intro σ' GROUP_LIMIT afp' logs' wrk' g hn' hids' offer hoffer
  obtain ⟨id, hid, he, hthr⟩ := thr_lt_top g hn' hids' hoffer
  refine ⟨id, hid, he, hthr, ?_⟩
  intro line hl
  obtain ⟨t, ht, hle⟩ := bottom_le_thr b hn hids hl
  exact ⟨t, ht, by omega⟩

def mainRound : Bottom (insertion _) 5 (.ofList "afp" [("1.afp", "x"), ("2.afp", "y")])
    (.ofList "log" [("server.log", "$$|1|\n$$|1|\n$$|1|\n")]) (.ofList "wrk" []) where
  names := allOpen
  counts := allOpen
  filter := allOpen
  bottom := allOpen
  named := .ofList "wrk" [("afpNameFile.tmp", "1.afp\n2.afp\n")]
  counted := .ofList "wrk" [("logNumCount.tmp", "1|3\n"), ("afpNameFile.tmp", "1.afp\n2.afp\n")]
  ready := .ofList "wrk" [("fltLogsFile.tmp", "1|3\n"), ("logNumCount.tmp", "1|3\n"),
    ("afpNameFile.tmp", "1.afp\n2.afp\n")]
  done := .ofList "wrk" [("botAfpsFile.tmp", "2.afp\n1\n"), ("fltLogsFile.tmp", "1|3\n"),
    ("logNumCount.tmp", "1|3\n"), ("afpNameFile.tmp", "1.afp\n2.afp\n")]
  thr := 3
  getAfpName_ok := rfl
  cntSrhNums_ok := rfl
  fltLogFile_ok := rfl
  botAfpFile_ok := rfl
  thr_ne := by decide

def groupRound : Top (insertion _) 5 3 (.ofList "afp" [("3.afp", "z")])
    (.ofList "log" [("server.log", "$$|3|\n$$|3|\n$$|3|\n$$|3|\n")]) (.ofList "wrk" []) where
  names := allOpen
  counts := allOpen
  filter := allOpen
  top := allOpen
  named := .ofList "wrk" [("afpNameFile.tmp", "3.afp\n")]
  counted := .ofList "wrk" [("logNumCount.tmp", "3|4\n"), ("afpNameFile.tmp", "3.afp\n")]
  ready := .ofList "wrk" [("fltLogsFile.tmp", "3|4\n"), ("logNumCount.tmp", "3|4\n"),
    ("afpNameFile.tmp", "3.afp\n")]
  done := .ofList "wrk" [("topAfpsFile.tmp", "3.afp\n"), ("fltLogsFile.tmp", "3|4\n"),
    ("logNumCount.tmp", "3|4\n"), ("afpNameFile.tmp", "3.afp\n")]
  count := 1
  getAfpName_ok := rfl
  cntSrhNums_ok := rfl
  fltLogFile_ok := rfl
  topAfpFile_ok := rfl
  count_ne := by decide

theorem threshold_separates_rounds :
    (∀ line ∈ mainRound.lines, ∃ t : ℕ, EntryTally mainRound line t ∧ (t : ℤ) ≤ 3) ∧
      ∀ offer ∈ groupRound.lines, ∃ id ∈ groupRound.ids, offer = id ++ ".afp\n".toList ∧
        3 < groupRound.ids.count id ∧
        ∀ line ∈ mainRound.lines, ∃ t : ℕ, EntryTally mainRound line t ∧
          t < groupRound.ids.count id := by
  obtain ⟨hle, -, htop⟩ := threshold_separates mainRound (by decide) (by decide)
  refine ⟨hle, ?_⟩
  intro offer hoffer
  obtain ⟨id, hid, he, hthr, hlines⟩ := htop groupRound (by decide) (by decide) offer hoffer
  exact ⟨id, hid, he, Int.ofNat_lt.mp hthr, hlines⟩

end FingerMove.ProDeal
