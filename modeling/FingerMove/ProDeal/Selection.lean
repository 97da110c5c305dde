import FingerMove.ProDeal.Returns
import FingerMove.ProDeal.Threshold

namespace FingerMove.ProDeal

open CText Directory Tally

variable {σ : Sorter (Text × ℕ)} {afp logs wrk : Folder}

section Groups

variable {GROUP_LIMIT : ℕ} {cnt : ℤ} (g : Top σ GROUP_LIMIT cnt afp logs wrk)

def Top.hot : List Text :=
  g.ids.dedup.filter fun id ↦ Prepared.Matched afp id ∧ cnt < g.ids.count id

theorem survivors_descending : g.survivors.Pairwise fun x y ↦ y.2 ≤ x.2 :=
  g.survivors_sorted.imp fun h ↦ by simpa [cmp] using h

theorem Prepared.survivors_nodup {flg : ℤ} (p : Prepared σ flg afp logs wrk) :
    (p.survivors.map Prod.fst).Nodup := by
  have hsorted := σ.perm _ (tally p.ids) (strictWeak_order flg)
  have hkeys : ((tally p.ids).map Prod.fst).Nodup :=
    (List.pairwise_map.mpr (tally_spec p.ids).1).imp ne_of_lt
  exact ((hsorted.map _).nodup_iff.mpr hkeys).sublist ((List.filter_sublist).map _)

theorem Top.songs_eq : g.songs = (g.survivors.filter fun x ↦ cnt < x.2).take GROUP_LIMIT := by
  rw [Top.songs, ← List.take_takeWhile, takeWhile_eq_filter]
  exact (survivors_descending g).imp fun h hlt ↦ by simp at hlt ⊢; omega

theorem Top.hot_perm :
    ((g.survivors.filter fun x ↦ cnt < x.2).map Prod.fst).Perm g.hot := by
  have hkeys : ((g.survivors.filter fun x ↦ cnt < x.2).map Prod.fst).Nodup :=
    g.survivors_nodup.sublist ((List.filter_sublist).map _)
  rw [Top.hot, List.perm_ext_iff_of_nodup hkeys (g.ids.nodup_dedup.filter _)]
  intro id
  simp only [List.mem_map, List.mem_filter, g.mem_survivors, List.mem_dedup,
    decide_eq_true_eq]
  constructor
  · intro h
    obtain ⟨x, ⟨⟨hid, hcount, hmatched⟩, hlt⟩, he⟩ := h
    subst he
    exact ⟨hid, hmatched, hcount ▸ hlt⟩
  · intro h
    obtain ⟨hid, hmatched, hlt⟩ := h
    exact ⟨(id, g.ids.count id), ⟨⟨hid, rfl, hmatched⟩, hlt⟩, rfl⟩

theorem Top.selected (hn : ∀ n ∈ afp.files.keys, '\n' ∉ n.text) (hids : ∀ id ∈ g.ids, id ≠ []) :
    ∃ ids : List Text, g.lines = ids.map (fun id ↦ id ++ ".afp\n".toList) ∧ ids.Nodup ∧
      (∀ id ∈ ids, id ∈ g.ids ∧ Prepared.Matched afp id ∧ cnt < g.ids.count id) ∧
      ids.Pairwise (fun a b ↦ g.ids.count b ≤ g.ids.count a) ∧
      ids.length = min GROUP_LIMIT g.hot.length ∧
      (∀ id ∈ g.ids, Prepared.Matched afp id → id ∉ ids →
        (g.ids.count id : ℤ) ≤ cnt ∨ ∀ a ∈ ids, g.ids.count id ≤ g.ids.count a) ∧
      g.count = ids.length := by
  obtain ⟨hlines, hcount⟩ := g.spec hn hids
  have hsub : g.songs ⊆ g.survivors.filter fun x ↦ cnt < x.2 := by
    rw [g.songs_eq]
    exact List.take_subset _ _
  have hsong : ∀ x ∈ g.songs, x.1 ∈ g.ids ∧ x.2 = g.ids.count x.1 ∧
      Prepared.Matched afp x.1 ∧ cnt < x.2 := by
    intro x hx
    obtain ⟨hx, hlt⟩ := List.mem_filter.mp (hsub hx)
    obtain ⟨hid, htally, hmatched⟩ := g.mem_survivors.mp hx
    exact ⟨hid, htally, hmatched, of_decide_eq_true hlt⟩
  have hdescending := (survivors_descending g).filter fun x ↦ cnt < x.2
  refine ⟨g.songs.map Prod.fst, ?_, ?_, ?_, ?_, ?_, ?_, by simpa using hcount⟩
  · rw [hlines, List.map_map]
    rfl
  · rw [g.songs_eq]
    exact g.survivors_nodup.sublist (((List.take_sublist _ _).trans List.filter_sublist).map _)
  · intro id hid
    obtain ⟨x, hx, rfl⟩ := List.mem_map.mp hid
    obtain ⟨hid, htally, hmatched, hlt⟩ := hsong x hx
    exact ⟨hid, hmatched, htally ▸ hlt⟩
  · rw [List.pairwise_map]
    apply List.Pairwise.imp_of_mem _ (g.songs_eq ▸ hdescending.sublist (List.take_sublist _ _))
    intro x y hx hy hle
    rwa [← (hsong x hx).2.1, ← (hsong y hy).2.1]
  · rw [g.songs_eq, List.map_take, List.length_take, g.hot_perm.length_eq]
  · intro id hid hmatched hout
    by_cases hle : (g.ids.count id : ℤ) ≤ cnt
    · exact .inl hle
    · right
      intro a ha
      obtain ⟨y, hy, rfl⟩ := List.mem_map.mp ha
      have hx : (id, g.ids.count id) ∈ g.survivors.filter fun x ↦ cnt < x.2 :=
        List.mem_filter.mpr ⟨g.mem_survivors.mpr ⟨hid, rfl, hmatched⟩, by simpa using hle⟩
      have hlate : (id, g.ids.count id) ∉
          (g.survivors.filter fun x ↦ cnt < x.2).take GROUP_LIMIT := by
        intro hmem
        rw [← g.songs_eq] at hmem
        exact hout (List.mem_map_of_mem (f := Prod.fst) hmem)
      rw [← (hsong y hy).2.1]
      exact take_before hdescending hx hlate y (g.songs_eq ▸ hy)

/-- Within its buffers a group's round returns, and what it then offers is the
top of its matched ids. -/
theorem top_list_is_top (σ : Sorter (Text × ℕ)) (GROUP_LIMIT : ℕ) (cnt : ℤ) (afp logs wrk : Folder)
    (hn : ∀ n ∈ afp.files.keys, '\n' ∉ n.text) :
    (Within afp logs wrk → wrk.fits topAfpsFile = true →
      (∀ id ∈ countedIds allOpen logs, id ≠ [] ∧
        (Prepared.Matched afp id → (id ++ ".afp\n".toList).length < MAX_LINE_LEN)) →
      ∃ g : Top σ GROUP_LIMIT cnt afp logs wrk, g.counts = allOpen) ∧
    ∀ g : Top σ GROUP_LIMIT cnt afp logs wrk, (∀ id ∈ g.ids, id ≠ []) →
      ∃ ids : List Text, g.lines = ids.map (fun id ↦ id ++ ".afp\n".toList) ∧ ids.Nodup ∧
        (∀ id ∈ ids, id ∈ g.ids ∧ Prepared.Matched afp id ∧ cnt < g.ids.count id) ∧
        ids.Pairwise (fun a b ↦ g.ids.count b ≤ g.ids.count a) ∧
        ids.length = min GROUP_LIMIT g.hot.length ∧
        (∀ id ∈ g.ids, Prepared.Matched afp id → id ∉ ids →
          (g.ids.count id : ℤ) ≤ cnt ∨ ∀ a ∈ ids, g.ids.count id ≤ g.ids.count a) ∧
        g.count = ids.length := by
  refine ⟨?_, fun g ↦ g.selected hn⟩
  intro hwithin hfits hids
  exact hwithin.top hn (fun id hid ↦ (hids id hid).1) hfits fun id hid ↦ (hids id hid).2

theorem within_groupRound : Within (.ofList "afp" [("3.afp", "z")])
    (.ofList "log" [("server.log", "$$|3|\n$$|3|\n$$|3|\n$$|3|\n")]) (.ofList "wrk" []) where
  listing := by decide
  paths := by decide
  names := by decide
  tallies := by decide

theorem top_list_is_top_groupRound :
    (∃ g : Top (insertion _) 5 3 (.ofList "afp" [("3.afp", "z")])
      (.ofList "log" [("server.log", "$$|3|\n$$|3|\n$$|3|\n$$|3|\n")]) (.ofList "wrk" []),
        g.counts = allOpen) ∧
    ∃ ids : List Text, groupRound.lines = ids.map (fun id ↦ id ++ ".afp\n".toList) ∧ ids.Nodup ∧
      ids.length = min 5 groupRound.hot.length ∧ groupRound.count = ids.length := by
  obtain ⟨hreturns, hselects⟩ := top_list_is_top (insertion _) 5 3 (.ofList "afp" [("3.afp", "z")])
    (.ofList "log" [("server.log", "$$|3|\n$$|3|\n$$|3|\n$$|3|\n")]) (.ofList "wrk" []) (by decide)
  obtain ⟨ids, hlines, hnodup, -, -, hlength, -, hcount⟩ := hselects groupRound (by decide)
  exact ⟨hreturns within_groupRound (by decide) (by decide), ids, hlines, hnodup, hlength, hcount⟩

end Groups

section MainCache

variable {CACHE_LIMIT : ℕ} (b : Bottom σ CACHE_LIMIT afp logs wrk)

def Bottom.nums : List ℤ := b.lines.map fun line ↦ atoi (cstr line)

def Bottom.tallyOf (k : ℤ) : ℕ := b.ids.countP fun id ↦ atoi id = k

def Bottom.ranking : List ℤ :=
  (b.unmatched.map fun n ↦ atoi n.text) ++ b.survivors.map fun x ↦ atoi x.1

theorem Bottom.nums_eq (hn : ∀ n ∈ afp.files.keys, '\n' ∉ n.text) (hids : ∀ id ∈ b.ids, id ≠ []) :
    b.nums = b.ranking.take CACHE_LIMIT := by
  have hcold : ∀ n, atoi (cstr (nameText n)) = atoi n.text := by
    intro n
    rw [cstr_nameText, atoi_nameText]
  have hsongs : ∀ x ∈ b.songs, atoi (cstr (botText x)) = atoi x.1 := by
    intro x hx
    have hisId := (b.survivors_entry x (List.mem_of_mem_take hx)).isId
    have hnul : '\x00' ∉ botText x := by simp [botText, hisId.noNul]
    rw [cstr_eq_self hnul, botText, atoi_newline]
  have hnums : b.nums = (b.cold.map fun n ↦ atoi n.text) ++ b.songs.map fun x ↦ atoi x.1 := by
    rw [nums, (b.spec hn hids).1, List.map_append, List.map_map, List.map_map]
    exact congrArg₂ _ (List.map_congr_left fun n _ ↦ hcold n) (List.map_congr_left hsongs)
  have hlength : b.cold.length = min CACHE_LIMIT b.unmatched.length := List.length_take
  have hrest : CACHE_LIMIT - b.cold.length = CACHE_LIMIT - b.unmatched.length := by omega
  rw [hnums, ranking, List.take_append, List.length_map, ← hrest, ← List.map_take, ← List.map_take]
  rfl

theorem Bottom.mem_ranking {k : ℤ} :
    k ∈ b.ranking ↔ k ∈ afp.files.keys.map fun n ↦ atoi n.text := by
  simp only [ranking, List.mem_append, List.mem_map, b.mem_unmatched, b.mem_survivors]
  constructor
  · intro h
    obtain ⟨n, ⟨hn, -⟩, he⟩ | ⟨x, ⟨-, -, n, hn, hx⟩, he⟩ := h
    · exact ⟨n, hn, he⟩
    · exact ⟨n, hn, hx.trans he⟩
  · intro h
    obtain ⟨n, hn, he⟩ := h
    by_cases hfree : ∀ id ∈ b.ids, atoi id ≠ atoi n.text
    · exact .inl ⟨n, ⟨hn, hfree⟩, he⟩
    · push Not at hfree
      obtain ⟨id, hid, hnum⟩ := hfree
      exact .inr ⟨(id, b.ids.count id), ⟨hid, rfl, n, hn, hnum.symm⟩, hnum.trans he⟩

/-- `<n>.afp` with a number that fits in `int`. -/
def IsNumbered (n : FileName) : Prop := ∃ m < 2 ^ 31, n.text = decimal m ++ ".afp".toList

def IsPlain (id : Text) : Prop := ∃ m < 2 ^ 31, id = decimal m

theorem IsNumbered.eq_of_atoi {n n' : FileName} (h : IsNumbered n) (h' : IsNumbered n')
    (he : atoi n.text = atoi n'.text) : n = n' := by
  obtain ⟨m, hm, hn⟩ := h
  obtain ⟨m', hm', hn'⟩ := h'
  rw [hn, hn', atoi_decimal hm (by simp), atoi_decimal hm' (by simp)] at he
  apply FileName.ext
  rw [hn, hn', Int.ofNat_inj.mp he]

theorem IsPlain.eq_of_atoi {id id' : Text} (h : IsPlain id) (h' : IsPlain id')
    (he : atoi id = atoi id') : id = id' := by
  obtain ⟨m, hm, rfl⟩ := h
  obtain ⟨m', hm', rfl⟩ := h'
  have hval : ∀ {k : ℕ}, k < 2 ^ 31 → atoi (decimal k) = k := fun hk ↦ by
    simpa using atoi_decimal hk (u := []) (by simp)
  rw [hval hm, hval hm'] at he
  rw [Int.ofNat_inj.mp he]

theorem newline_of_numbered (h : ∀ n ∈ afp.files.keys, IsNumbered n) :
    ∀ n ∈ afp.files.keys, '\n' ∉ n.text := by
  intro n hmem
  obtain ⟨m, -, he⟩ := h n hmem
  rw [he]
  simp [not_mem_decimal (c := '\n') rfl]

theorem ne_nil_of_plain {id : Text} (h : IsPlain id) : id ≠ [] := by
  obtain ⟨m, -, rfl⟩ := h
  exact decimal_ne_nil m

variable {b}

theorem Bottom.ranking_perm (hnames : ∀ n ∈ afp.files.keys, IsNumbered n)
    (hids : ∀ id ∈ b.ids, IsPlain id) :
    b.ranking.Perm (afp.files.keys.map fun n ↦ atoi n.text) := by
  have hlisted : (afp.files.keys.map fun n ↦ atoi n.text).Nodup :=
    (AList.keys_nodup _).map_on fun n hn n' hn' ↦ (hnames n hn).eq_of_atoi (hnames n' hn')
  have hcold : (b.unmatched.map fun n ↦ atoi n.text).Nodup :=
    hlisted.sublist ((List.filter_sublist).map _)
  have hsongs : (b.survivors.map fun x ↦ atoi x.1).Nodup := by
    have hmap := b.survivors_nodup.map_on (f := atoi) <| by
      intro id hid id' hid'
      obtain ⟨x, hx, rfl⟩ := List.mem_map.mp hid
      obtain ⟨y, hy, rfl⟩ := List.mem_map.mp hid'
      exact (hids x.1 (b.mem_survivors.mp hx).1).eq_of_atoi (hids y.1 (b.mem_survivors.mp hy).1)
    rwa [List.map_map] at hmap
  have hdisjoint : List.Disjoint (b.unmatched.map fun n ↦ atoi n.text)
      (b.survivors.map fun x ↦ atoi x.1) := by
    intro k hk hk'
    obtain ⟨n, hn, rfl⟩ := List.mem_map.mp hk
    obtain ⟨x, hx, he⟩ := List.mem_map.mp hk'
    exact (b.mem_unmatched.mp hn).2 x.1 (b.mem_survivors.mp hx).1 he
  rw [ranking, List.perm_ext_iff_of_nodup (hcold.append hsongs hdisjoint) hlisted]
  exact fun k ↦ b.mem_ranking

theorem Bottom.tallyOf_atoi (hids : ∀ id ∈ b.ids, IsPlain id) {id : Text} (hid : id ∈ b.ids) :
    b.tallyOf (atoi id) = b.ids.count id := by
  apply List.countP_congr
  intro id' hid'
  simp only [decide_eq_true_eq, beq_iff_eq]
  exact ⟨(hids id' hid').eq_of_atoi (hids id hid), congrArg atoi⟩

theorem Bottom.ranking_ascending (hids : ∀ id ∈ b.ids, IsPlain id) :
    b.ranking.Pairwise fun j k ↦ b.tallyOf j ≤ b.tallyOf k := by
  have hcold : ∀ k ∈ b.unmatched.map fun n ↦ atoi n.text, b.tallyOf k = 0 := by
    intro k hk
    obtain ⟨n, hn, rfl⟩ := List.mem_map.mp hk
    rw [tallyOf, List.countP_eq_zero]
    intro id hid
    simpa using (b.mem_unmatched.mp hn).2 id hid
  rw [ranking, List.pairwise_append]
  refine ⟨?_, ?_, ?_⟩
  · exact List.pairwise_of_forall_mem_list fun j hj k _ ↦ (hcold j hj).trans_le (Nat.zero_le _)
  · rw [List.pairwise_map]
    apply List.Pairwise.imp_of_mem _ (survivors_ascending b)
    intro x y hx hy hle
    obtain ⟨hxid, hxcount, -⟩ := b.mem_survivors.mp hx
    obtain ⟨hyid, hycount, -⟩ := b.mem_survivors.mp hy
    rwa [tallyOf_atoi hids hxid, tallyOf_atoi hids hyid, ← hxcount, ← hycount]
  · exact fun j hj k _ ↦ (hcold j hj).trans_le (Nat.zero_le _)

theorem Bottom.selected (b : Bottom σ CACHE_LIMIT afp logs wrk)
    (hnames : ∀ n ∈ afp.files.keys, IsNumbered n) (hids : ∀ id ∈ b.ids, IsPlain id) :
    b.nums.Nodup ∧ (∀ k ∈ b.nums, ∃ n ∈ afp.files.keys, atoi n.text = k) ∧
      b.nums.length = min CACHE_LIMIT afp.files.keys.length ∧
      b.nums.Pairwise (fun j k ↦ b.tallyOf j ≤ b.tallyOf k) ∧
      ∀ n ∈ afp.files.keys, atoi n.text ∉ b.nums →
        ∀ k ∈ b.nums, b.tallyOf k ≤ b.tallyOf (atoi n.text) := by
  have hn := newline_of_numbered hnames
  have hne : ∀ id ∈ b.ids, id ≠ [] := fun id hid ↦ ne_nil_of_plain (hids id hid)
  have hperm := Bottom.ranking_perm hnames hids
  have hnodup : b.ranking.Nodup := hperm.nodup_iff.mpr <|
    (AList.keys_nodup _).map_on fun n hn n' hn' ↦ (hnames n hn).eq_of_atoi (hnames n' hn')
  have hascending := Bottom.ranking_ascending hids
  rw [b.nums_eq hn hne]
  refine ⟨hnodup.sublist (List.take_sublist _ _), ?_, ?_, ?_, ?_⟩
  · intro k hk
    exact List.mem_map.mp (b.mem_ranking.mp (List.mem_of_mem_take hk))
  · rw [List.length_take, hperm.length_eq, List.length_map]
  · exact hascending.sublist (List.take_sublist _ _)
  · intro n hmem hout
    exact take_before hascending (b.mem_ranking.mpr (List.mem_map_of_mem hmem)) hout

theorem length_decimal_le {m : ℕ} (h : m < 2 ^ 31) : (decimal m).length ≤ 10 :=
  (Nat.length_toDigits_le_iff (by decide) (by decide)).mpr (h.trans (by decide))

theorem within_of_plain (hnames : ∀ n ∈ afp.files.keys, IsNumbered n)
    (hids : ∀ id ∈ countedIds allOpen logs, IsPlain id ∧
      (countedIds allOpen logs).count id < 2 ^ 31)
    (hlisting : logs.files.keys.all logs.fits = true)
    (hpaths : ∀ n ∈ [afpNameFile, logNumCount, fltLogsFile], wrk.fits n = true) :
    Within afp logs wrk := by
  refine ⟨hlisting, hpaths, ?_, ?_⟩
  · intro n hn
    obtain ⟨m, hm, he⟩ := hnames n hn
    have hlength := length_decimal_le hm
    have hsuffix : ".afp".toList.length = 4 := rfl
    simp only [nameText, he, List.length_append, List.length_singleton, hsuffix, MAX_LINE_LEN]
    omega
  · intro id hid
    obtain ⟨⟨m, hm, he⟩, hcount⟩ := hids id hid
    have hlength : id.length ≤ 10 := he ▸ length_decimal_le hm
    have htally := length_decimal_le hcount
    refine ⟨hcount, ?_⟩
    simp only [countText, List.length_append, List.length_cons, List.length_nil, MAX_LINE_LEN]
    omega

/-- With numbered files and plain ids the main cache's round returns, and what it
then gives away is the bottom of its listed files. -/
theorem bottom_list_is_bottom (σ : Sorter (Text × ℕ)) (CACHE_LIMIT : ℕ) (afp logs wrk : Folder)
    (hnames : ∀ n ∈ afp.files.keys, IsNumbered n) :
    (logs.files.keys.all logs.fits = true →
      (∀ n ∈ [afpNameFile, logNumCount, fltLogsFile, botAfpsFile], wrk.fits n = true) →
      (∀ id ∈ countedIds allOpen logs, IsPlain id ∧ (countedIds allOpen logs).count id < 2 ^ 31) →
      ∃ b : Bottom σ CACHE_LIMIT afp logs wrk, b.counts = allOpen) ∧
    ∀ b : Bottom σ CACHE_LIMIT afp logs wrk, (∀ id ∈ b.ids, IsPlain id) →
      b.nums.Nodup ∧ (∀ k ∈ b.nums, ∃ n ∈ afp.files.keys, atoi n.text = k) ∧
        b.nums.length = min CACHE_LIMIT afp.files.keys.length ∧
        b.nums.Pairwise (fun j k ↦ b.tallyOf j ≤ b.tallyOf k) ∧
        ∀ n ∈ afp.files.keys, atoi n.text ∉ b.nums →
          ∀ k ∈ b.nums, b.tallyOf k ≤ b.tallyOf (atoi n.text) := by
  refine ⟨?_, fun b ↦ b.selected hnames⟩
  intro hlisting hpaths hids
  obtain ⟨hnamesFit, hcountsFit, hfilterFit, hlistFit⟩ : wrk.fits afpNameFile = true ∧
      wrk.fits logNumCount = true ∧ wrk.fits fltLogsFile = true ∧ wrk.fits botAfpsFile = true := by
    simpa using hpaths
  have hwithin : Within afp logs wrk :=
    within_of_plain hnames hids hlisting (by simp [hnamesFit, hcountsFit, hfilterFit])
  exact hwithin.bottom (newline_of_numbered hnames)
    (fun id hid ↦ ne_nil_of_plain (hids id hid).1) hlistFit

theorem mainRound_numbered :
    ∀ n ∈ (Folder.ofList "afp" [("1.afp", "x"), ("2.afp", "y")]).files.keys, IsNumbered n :=
  List.forall_mem_cons.mpr ⟨⟨1, by decide, rfl⟩, List.forall_mem_singleton.mpr ⟨2, by decide, rfl⟩⟩

theorem mainRound_plain : ∀ id ∈ mainRound.ids, IsPlain id := by
  intro id hid
  have hone : id ∈ List.replicate 3 "1".toList := hid
  rw [List.eq_of_mem_replicate hone]
  exact ⟨1, by decide, rfl⟩

theorem bottom_list_is_bottom_mainRound : mainRound.nums.Nodup ∧ mainRound.nums.length = min 5 2 ∧
    mainRound.nums.Pairwise fun j k ↦ mainRound.tallyOf j ≤ mainRound.tallyOf k := by
  obtain ⟨-, hselects⟩ := bottom_list_is_bottom (insertion _) 5
    (.ofList "afp" [("1.afp", "x"), ("2.afp", "y")])
    (.ofList "log" [("server.log", "$$|1|\n$$|1|\n$$|1|\n")]) (.ofList "wrk" []) mainRound_numbered
  obtain ⟨hnodup, -, hlength, hascending, -⟩ := hselects mainRound mainRound_plain
  exact ⟨hnodup, hlength, hascending⟩

end MainCache

end FingerMove.ProDeal
