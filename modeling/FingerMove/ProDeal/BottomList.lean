import FingerMove.ProDeal.Moves
import FingerMove.ProDeal.Round

namespace FingerMove.ProDeal

open CText Directory Tally

variable {σ : Sorter (Text × ℕ)} {CACHE_LIMIT : ℕ} {afp logs wrk : Folder}
variable (b : Bottom σ CACHE_LIMIT afp logs wrk)

def NamesFiles : Prop :=
  (∀ line ∈ b.lines, ∃ n ∈ afp.files.keys, line = nameText n) ∧ b.lines.Nodup

def MovesWindow : Prop := ∀ (o : Opens) (org afp' org' : Folder) (pos cnt : ℕ),
  movCntFile o afp org b.done pos cnt = some (0, afp', org') →
    org'.files.keys.length = min cnt (b.lines.length - pos)

theorem movesWindow_of_namesFiles (h : NamesFiles b) : MovesWindow b := by
  intro o org afp' org' pos cnt hmov
  obtain ⟨bots, ns, hbots, hns, -, horg⟩ := movFiles_ok hmov
  have hlines : reads MAX_LINE_LEN bots = b.lines := by rw [Bottom.lines, hbots, Option.getD_some]
  have hwindow : window pos cnt 0 b.lines = (b.lines.drop pos).take cnt := by
    simpa using window_eq pos cnt 0 b.lines
  rw [hlines, hwindow] at hns
  have hsub : (b.lines.drop pos).take cnt ⊆ b.lines :=
    fun _ hl ↦ List.mem_of_mem_drop (List.mem_of_mem_take hl)
  have hnames := mapM_chop (fun line hl ↦ (h.1 line (hsub hl)).imp fun _ ↦ And.right) hns
  have hnodup : (ns.map nameText).Nodup :=
    hnames ▸ h.2.sublist ((List.take_sublist _ _).trans (List.drop_sublist _ _))
  have hfound : ∀ n ∈ ns, n ∈ afp.files := by
    intro n hn
    obtain ⟨m, hm, he⟩ := h.1 _ (hsub (hnames ▸ List.mem_map_of_mem hn))
    rwa [nameText_injective he]
  have hall := (length_moveAll_iff ns afp.files).mpr ⟨hnodup.of_map _, hfound⟩
  rw [horg, hall, ← List.length_map nameText, ← hnames, List.length_take, List.length_drop]

def IsDecimal (t : Text) : Prop := t ≠ [] ∧ t.all Char.isDigit = true

theorem IsDecimal.not_mem {t : Text} (h : IsDecimal t) {c : Char} (hc : c.isDigit = false) :
    c ∉ t := by
  intro hmem
  simp [List.all_eq_true.mp h.2 c hmem] at hc

theorem botText_ne_nameText {t : Text} {n : FileName} {x : Text × ℕ} (hx : IsDecimal x.1)
    (hn : n.text = t ++ ".afp".toList) : botText x ≠ nameText n := by
  intro he
  have hdot : '.' ∈ x.1 := by
    rw [List.append_cancel_right he, hn]
    simp
  exact hx.not_mem rfl hdot

theorem songs_eq_nil_iff : b.songs = [] ↔
    (∀ id ∈ b.ids, ∀ n ∈ afp.files.keys, atoi id ≠ atoi n.text) ∨
      CACHE_LIMIT ≤ b.unmatched.length := by
  have hcold : b.cold.length = min CACHE_LIMIT b.unmatched.length := List.length_take
  rw [Bottom.songs, List.take_eq_nil_iff, hcold, or_comm]
  apply or_congr
  · rw [List.eq_nil_iff_forall_not_mem]
    constructor
    · intro hnil id hid n hn he
      exact hnil (id, b.ids.count id) (b.mem_survivors.mpr ⟨hid, rfl, n, hn, he.symm⟩)
    · intro hfree x hx
      obtain ⟨hid, -, n, hn, he⟩ := b.mem_survivors.mp hx
      exact hfree x.1 hid n hn he.symm
  · omega

theorem namesFiles_iff
    (hnames : ∀ n ∈ afp.files.keys, ∃ t, IsDecimal t ∧ n.text = t ++ ".afp".toList)
    (hids : ∀ id ∈ b.ids, IsDecimal id) : NamesFiles b ↔ b.songs = [] := by
  have hn : ∀ n ∈ afp.files.keys, '\n' ∉ n.text := by
    intro n hmem
    obtain ⟨t, ht, he⟩ := hnames n hmem
    rw [he]
    simp [ht.not_mem (c := '\n') rfl]
  obtain ⟨hlines, -⟩ := b.spec hn fun id hid ↦ (hids id hid).1
  constructor
  · rintro ⟨hfile, -⟩
    by_contra hne
    obtain ⟨x, rest, hsongs⟩ := List.exists_cons_of_ne_nil hne
    obtain ⟨m, hm, hline⟩ := hfile (botText x) (by simp [hlines, hsongs])
    have hx : x ∈ b.songs := hsongs ▸ List.mem_cons_self
    have hid := (b.mem_survivors.mp (List.mem_of_mem_take hx)).1
    obtain ⟨t, -, ht⟩ := hnames m hm
    exact botText_ne_nameText (hids x.1 hid) ht hline
  · intro hsongs
    rw [hsongs, List.map_nil, List.append_nil] at hlines
    rw [NamesFiles, hlines]
    constructor
    · intro line hline
      obtain ⟨n, hmem, rfl⟩ := List.mem_map.mp hline
      exact ⟨n, (b.mem_unmatched.mp (List.mem_of_mem_take hmem)).1, rfl⟩
    · have hkeys : b.unmatched.Nodup := (AList.keys_nodup _).filter _
      exact (hkeys.sublist (List.take_sublist _ _)).map nameText_injective

/-- The bottom list names files exactly as long as its second loop, which
writes an id without the suffix, has nothing to write. -/
theorem bottom_names_files_iff
    (hnames : ∀ n ∈ afp.files.keys, ∃ t, IsDecimal t ∧ n.text = t ++ ".afp".toList)
    (hids : ∀ id ∈ b.ids, IsDecimal id) :
    NamesFiles b ∧ MovesWindow b ↔
      (∀ id ∈ b.ids, ∀ n ∈ afp.files.keys, atoi id ≠ atoi n.text) ∨
        CACHE_LIMIT ≤ b.unmatched.length := by
  rw [and_iff_left_of_imp (movesWindow_of_namesFiles b), namesFiles_iff b hnames hids,
    songs_eq_nil_iff]

def oneFile : Folder := .ofList "afp" [("1.afp", "x")]

def oneSong : Bottom (insertion _) 5 oneFile (.ofList "log" [("server.log", "$$|1|\n$$|1|\n")])
    (.ofList "wrk" []) where
  names := allOpen
  counts := allOpen
  filter := allOpen
  bottom := allOpen
  named := .ofList "wrk" [("afpNameFile.tmp", "1.afp\n")]
  counted := .ofList "wrk" [("logNumCount.tmp", "1|2\n"), ("afpNameFile.tmp", "1.afp\n")]
  ready := .ofList "wrk" [("fltLogsFile.tmp", "1|2\n"), ("logNumCount.tmp", "1|2\n"),
    ("afpNameFile.tmp", "1.afp\n")]
  done := .ofList "wrk" [("botAfpsFile.tmp", "1\n"), ("fltLogsFile.tmp", "1|2\n"),
    ("logNumCount.tmp", "1|2\n"), ("afpNameFile.tmp", "1.afp\n")]
  thr := 2
  getAfpName_ok := rfl
  cntSrhNums_ok := rfl
  fltLogFile_ok := rfl
  botAfpFile_ok := rfl
  thr_ne := by decide

theorem oneFile_named : ∀ n ∈ oneFile.files.keys, ∃ t, IsDecimal t ∧ n.text = t ++ ".afp".toList :=
  List.forall_mem_singleton.mpr ⟨"1".toList, ⟨by decide, rfl⟩, rfl⟩

theorem oneSong_decimal : ∀ id ∈ oneSong.ids, IsDecimal id := by
  intro id hid
  have hone : id ∈ List.replicate 2 "1".toList := hid
  rw [List.eq_of_mem_replicate hone]
  exact ⟨by decide, rfl⟩

theorem bottom_names_files_iff_oneSong : NamesFiles oneSong ∧ MovesWindow oneSong ↔
    (∀ id ∈ oneSong.ids, ∀ n ∈ oneFile.files.keys, atoi id ≠ atoi n.text) ∨
      5 ≤ oneSong.unmatched.length :=
  bottom_names_files_iff oneSong oneFile_named oneSong_decimal

/-- The bottom list of this round is the line `1`, which no file is called, and
a group that reported one fingerprint gets none. -/
theorem bottom_list_names_no_file :
    (∀ n ∈ oneFile.files.keys, ∃ t, IsDecimal t ∧ n.text = t ++ ".afp".toList) ∧
      (∀ id ∈ oneSong.ids, IsDecimal id) ∧ ¬ NamesFiles oneSong ∧ ¬ MovesWindow oneSong := by
  refine ⟨oneFile_named, oneSong_decimal, ?_, ?_⟩
  · intro h
    obtain ⟨n, hn, he⟩ := h.1 "1\n".toList (by decide)
    obtain rfl := List.mem_singleton.mp (show n ∈ [FileName.ofC "1.afp".toList] from hn)
    exact absurd he (by decide)
  · intro h
    exact absurd (h allOpen (.ofList "org" []) _ _ 0 1 rfl) (by decide)

end FingerMove.ProDeal
