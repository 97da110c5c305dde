import FingerMove.ProDeal.Pipeline

namespace FingerMove.ProDeal

open CText Directory Tally

/-- A read that counts for `id`: it starts with `$$`, and `id` is what stands
between its first two bars. -/
def Qualifies (line id : Text) : Prop :=
  ['$', '$'] <+: cstr line ∧ id ≠ "-1".toList ∧
    ∃ u v, cstr line = u ++ '|' :: (id ++ '|' :: v) ∧ '|' ∉ u ∧ '|' ∉ id

theorem find_eq_some_iff {t : Text} {c : Char} {p q : ℕ} : find t c p = some q ↔
    ∃ u v, t.drop p = u ++ c :: v ∧ c ∉ u ∧ q = p + u.length := by
  unfold find
  constructor
  · intro h
    split at h
    · next hmem =>
      obtain ⟨u, v, huv, hu⟩ := List.eq_append_cons_of_mem hmem
      refine ⟨u, v, huv, hu, ?_⟩
      rw [← Option.some.inj h, huv, List.idxOf_append_of_notMem hu, List.idxOf_cons_self,
        Nat.add_zero]
    · cases h
  · intro h
    obtain ⟨u, v, huv, hu, rfl⟩ := h
    rw [huv, if_pos (by simp), List.idxOf_append_of_notMem hu, List.idxOf_cons_self, Nat.add_zero]

theorem dollars_iff (line : Text) :
    line.getD 0 '\x00' = '$' ∧ line.getD 1 '\x00' = '$' ↔ ['$', '$'] <+: cstr line := by
  rcases line with _ | ⟨a, _ | ⟨b, line⟩⟩
  · simp [cstr]
  · by_cases ha : a = '\x00' <;> simp [cstr, ha]
  · by_cases ha : a = '\x00'
    · simp [cstr, ha]
    · by_cases hb : b = '\x00'
      · simp [cstr, ha, hb]
      · simp [cstr, ha, hb, List.cons_prefix_cons, eq_comm]

theorem drop_append_cons {u v : Text} {c : Char} : (u ++ c :: v).drop (u.length + 1) = v := by
  rw [← List.drop_drop, List.drop_left, List.drop_one, List.tail_cons]

theorem songId_eq_some_iff {line id : Text} : songId line = some id ↔ Qualifies line id := by
  have hguard : songId line = if ['$', '$'] <+: cstr line then (find (cstr line) '|' 0).bind fun p ↦
      (find (cstr line) '|' (p + 1)).bind fun q ↦
        if substr (cstr line) (p + 1) (q - p - 1) = "-1".toList then none
        else some (substr (cstr line) (p + 1) (q - p - 1)) else none := by
    unfold songId guard
    simp only [dollars_iff]
    split <;> rfl
  rw [hguard, Qualifies]
  split
  · next hdollars =>
    constructor
    · intro h
      obtain ⟨p, hp, h⟩ := Option.bind_eq_some_iff.mp h
      obtain ⟨q, hq, h⟩ := Option.bind_eq_some_iff.mp h
      obtain ⟨u, v, huv, hu, rfl⟩ := find_eq_some_iff.mp hp
      obtain ⟨w, x, hwx, hw, rfl⟩ := find_eq_some_iff.mp hq
      rw [List.drop_zero] at huv
      rw [Nat.zero_add] at hwx h
      have hcut : substr (cstr line) (u.length + 1)
          (u.length + 1 + w.length - u.length - 1) = w := by
        rw [substr, hwx, show u.length + 1 + w.length - u.length - 1 = w.length by omega,
          List.take_left]
      rw [hcut] at h
      obtain ⟨hne, hid⟩ := Option.ite_none_left_eq_some.mp h
      obtain rfl := Option.some.inj hid
      rw [huv, drop_append_cons] at hwx
      exact ⟨hdollars, hne, u, x, hwx ▸ huv, hu, hw⟩
    · intro h
      obtain ⟨_, hne, u, v, huv, hu, hid⟩ := h
      have hdrop : (cstr line).drop (u.length + 1) = id ++ '|' :: v := by
        rw [huv, drop_append_cons]
      have hp : find (cstr line) '|' 0 = some u.length :=
        find_eq_some_iff.mpr ⟨u, id ++ '|' :: v, huv, hu, (Nat.zero_add _).symm⟩
      have hq : find (cstr line) '|' (u.length + 1) = some (u.length + 1 + id.length) :=
        find_eq_some_iff.mpr ⟨id, v, hdrop, hid, rfl⟩
      have hcut : substr (cstr line) (u.length + 1)
          (u.length + 1 + id.length - u.length - 1) = id := by
        rw [substr, hdrop, show u.length + 1 + id.length - u.length - 1 = id.length by omega,
          List.take_left]
      rw [hp, Option.bind_some, hq, Option.bind_some, hcut, if_neg hne]
  · next hdollars => simp [hdollars]

instance (id : Text) : DecidablePred fun line ↦ Qualifies line id := fun _ ↦
  decidable_of_iff _ songId_eq_some_iff

instance : DecidablePred fun line ↦ ∃ id, Qualifies line id := fun line ↦
  decidable_of_iff ((songId line).isSome = true) <| by
    simp only [Option.isSome_iff_exists, songId_eq_some_iff]

def logReads (o : Opens) (org : Folder) : List Text :=
  (org.files.keys.filterMap fun n ↦ if o.file n then org.files.lookup n else none).flatMap
    (reads MAX_LINE_LEN)

/-- What a tally file says about the reads it was made of. -/
structure Tallied (rs : List Text) (flg : ℤ) (es : List (Text × ℕ)) : Prop where
  nodup : (es.map Prod.fst).Nodup
  mem : ∀ id, id ∈ es.map Prod.fst ↔ ∃ line ∈ rs, Qualifies line id
  count : ∀ x ∈ es, x.2 = rs.countP fun line ↦ Qualifies line x.1
  total : (es.map Prod.snd).sum = rs.countP fun line ↦ ∃ id, Qualifies line id
  descending : flg = 0 → es.Pairwise fun x y ↦ y.2 ≤ x.2
  ascending : flg ≠ 0 → es.Pairwise fun x y ↦ x.2 ≤ y.2

section Counted

variable {o : Opens} {σ : Sorter (Text × ℕ)} {org org' dst dst' : Folder} {flg : ℤ}

theorem countedIds_eq (o : Opens) (org : Folder) :
    countedIds o org = (logReads o org).filterMap songId := by
  rw [countedIds, logReads, List.filterMap_flatMap]

theorem count_countedIds (o : Opens) (org : Folder) (id : Text) :
    (countedIds o org).count id = (logReads o org).countP fun line ↦ Qualifies line id := by
  rw [countedIds_eq, List.count_filterMap]
  apply List.countP_congr
  intro line _
  simp [songId_eq_some_iff]

theorem tallied_sort (o : Opens) (σ : Sorter (Text × ℕ)) (org : Folder) (flg : ℤ) :
    Tallied (logReads o org) flg
      (σ.sort (if flg = 0 then cmp else lmp) (tally (countedIds o org))) := by
  have hperm := σ.perm _ (tally (countedIds o org)) (strictWeak_order flg)
  have hsorted := σ.sorted _ (tally (countedIds o org)) (strictWeak_order flg)
  have hmem : ∀ id, id ∈ countedIds o org ↔ ∃ line ∈ logReads o org, Qualifies line id := by
    intro id
    simp only [countedIds_eq, List.mem_filterMap, songId_eq_some_iff]
  constructor
  · rw [(hperm.map _).nodup_iff]
    exact (List.pairwise_map.mpr (tally_spec (countedIds o org)).1).imp ne_of_lt
  · intro id
    rw [(hperm.map _).mem_iff, ← hmem]
    constructor
    · intro h
      obtain ⟨x, hx, rfl⟩ := List.mem_map.mp h
      exact (mem_tally.mp hx).1
    · intro h
      exact List.mem_map_of_mem (f := Prod.fst) (mem_tally.mpr ⟨h, rfl⟩)
  · intro x hx
    rw [← count_countedIds]
    exact (mem_tally.mp (hperm.mem_iff.mp hx)).2
  · rw [(hperm.map _).sum_nat, sum_tally, countedIds_eq, List.length_filterMap_eq_countP]
    apply List.countP_congr
    intro line _
    simp [Option.isSome_iff_exists, songId_eq_some_iff]
  · intro hflg
    rw [if_pos hflg] at hsorted ⊢
    exact hsorted.imp fun h ↦ by simpa [cmp] using h
  · intro hflg
    rw [if_neg hflg] at hsorted ⊢
    exact hsorted.imp fun h ↦ by simpa [lmp] using h

theorem Tallied.mem_iff {rs : List Text} {es : List (Text × ℕ)} (h : Tallied rs flg es)
    {x : Text × ℕ} : x ∈ es ↔ (∃ line ∈ rs, Qualifies line x.1) ∧
      x.2 = rs.countP fun line ↦ Qualifies line x.1 := by
  constructor
  · intro hx
    exact ⟨(h.mem x.1).mp (List.mem_map_of_mem hx), h.count x hx⟩
  · intro h
    obtain ⟨hid, hcount⟩ := h
    obtain ⟨y, hy, he⟩ := List.mem_map.mp ((h.mem x.1).mpr hid)
    have hxy : y = x := Prod.ext he (by rw [h.count y hy, he, hcount])
    exact hxy ▸ hy

theorem Tallied.perm {rs rs' : List Text} {flg' : ℤ} {es es' : List (Text × ℕ)}
    (h : Tallied rs flg es) (h' : Tallied rs' flg' es') (hrs : rs.Perm rs') : es.Perm es' := by
  rw [List.perm_ext_iff_of_nodup (h.nodup.of_map _) (h'.nodup.of_map _)]
  intro x
  rw [h.mem_iff, h'.mem_iff, hrs.countP_eq]
  simp only [hrs.mem_iff]

theorem logReads_perm (h : org.files.entries.Perm org'.files.entries) :
    (logReads o org).Perm (logReads o org') := by
  apply List.Perm.flatMap_right
  simp only [AList.perm_lookup h]
  exact (h.map Sigma.fst).filterMap _

theorem cntSrhNums_eq_some_iff : cntSrhNums o σ org dst flg = some (0, dst') ↔
    (o.call 0 = true ∧ o.call 1 = true ∧ dst.fits logNumCount = true ∧
      org.files.keys.all org.fits = true ∧
      ∀ x ∈ tally (countedIds o org), x.2 < 2 ^ 31 ∧ (countText x).length < MAX_LINE_LEN) ∧
    dst' = dst.write logNumCount ((σ.sort (if flg = 0 then cmp else lmp)
      (tally (countedIds o org))).map countText).flatten := by
  have hperm := σ.perm _ (tally (countedIds o org)) (strictWeak_order flg)
  constructor
  · intro h
    obtain ⟨hdst', hentry⟩ := cntSrhNums_ok h
    refine ⟨?_, hdst'⟩
    have h0 := call_opened h (by decide)
    have h := call_ok h (by decide)
    obtain ⟨b, hb, h⟩ := Option.bind_eq_some_iff.mp h
    obtain rfl := fopenW_eq_some hb
    have h1 := call_opened h (by decide)
    have h := call_ok h (by decide)
    obtain ⟨_, hall, -⟩ := Option.bind_eq_some_iff.mp h
    refine ⟨h0, h1, ?_, by simpa [guard] using hall, ?_⟩
    · by_contra hfits
      simp [Folder.fopenW, hfits] at hb
    · intro x hx
      have hx := hentry x (hperm.mem_iff.mpr hx)
      exact ⟨hx.lt, hx.fits⟩
  · intro h
    obtain ⟨⟨h0, h1, hdst, horg, hlines⟩, hdst'⟩ := h
    have hmap := mapM_of_checked countLine_eq fun x hx ↦ hlines x (hperm.mem_iff.mp hx)
    simp [cntSrhNums, h0, h1, Folder.fopenW, hdst, guard, horg, hmap, hdst']

theorem mem_tally_countedIds {x : Text × ℕ} (hx : x ∈ tally (countedIds o org)) :
    (∃ line ∈ logReads o org, Qualifies line x.1) ∧
      x.2 = (logReads o org).countP fun line ↦ Qualifies line x.1 :=
  (tallied_sort o (insertion _) org 0).mem_iff.mp
    (((insertion _).perm _ _ (strictWeak_order 0)).mem_iff.mpr hx)

def tallyLines (d : Folder) : List Text :=
  reads MAX_LINE_LEN ((d.files.lookup logNumCount).getD [])

theorem tallyLines_eq (h : cntSrhNums o σ org dst flg = some (0, dst')) : tallyLines dst' =
    (σ.sort (if flg = 0 then cmp else lmp) (tally (countedIds o org))).map countText := by
  obtain ⟨hdst', hentry⟩ := cntSrhNums_ok h
  rw [tallyLines, hdst', lookup_write_self, Option.getD_some]
  exact reads_flatten (List.forall_mem_map.mpr fun x hx ↦ (hentry x hx).isLine)

/-- Within its buffers `cntSrhNums` ends well; its file then tallies the reads,
and the order of the directory does not change which lines it holds. -/
theorem cntSrhNums_tallies (o : Opens) (σ : Sorter (Text × ℕ)) (org dst : Folder) (flg : ℤ) :
    (o.call 0 = true → o.call 1 = true → dst.fits logNumCount = true →
      org.files.keys.all org.fits = true → (logReads o org).length < 2 ^ 31 →
      (∀ line ∈ logReads o org, ∀ id, Qualifies line id →
        (countText (id, (logReads o org).countP fun l ↦ Qualifies l id)).length < MAX_LINE_LEN) →
      ∃ dst', cntSrhNums o σ org dst flg = some (0, dst')) ∧
    ∀ dst', cntSrhNums o σ org dst flg = some (0, dst') →
      (∃ es, Tallied (logReads o org) flg es ∧
        dst'.files.lookup logNumCount = some (es.map countText).flatten ∧
        tallyLines dst' = es.map countText) ∧
      ∀ (σ' : Sorter (Text × ℕ)) (org' : Folder), org'.path = org.path →
        org.files.entries.Perm org'.files.entries →
        ∃ dst'', cntSrhNums o σ' org' dst flg = some (0, dst'') ∧
          (tallyLines dst').Perm (tallyLines dst'') := by
  constructor
  · intro h0 h1 hdst horg hreads hlen
    refine ⟨_, cntSrhNums_eq_some_iff.mpr ⟨⟨h0, h1, hdst, horg, ?_⟩, rfl⟩⟩
    intro x hx
    obtain ⟨⟨line, hline, hid⟩, hcount⟩ := mem_tally_countedIds hx
    refine ⟨hcount ▸ List.countP_le_length.trans_lt hreads, ?_⟩
    have hfits := hlen line hline x.1 hid
    rwa [← hcount] at hfits
  · intro dst' h
    obtain ⟨⟨h0, h1, hdst, horg, hfits⟩, -⟩ := cntSrhNums_eq_some_iff.mp h
    have hlines := tallyLines_eq h
    refine ⟨⟨_, tallied_sort o σ org flg, ?_, hlines⟩, ?_⟩
    · rw [(cntSrhNums_ok h).1, lookup_write_self]
    · intro σ' org' hpath hentries
      have hreads := logReads_perm (o := o) hentries
      have hkeys : org'.files.keys.Perm org.files.keys := (hentries.map Sigma.fst).symm
      have hids : (countedIds o org').Perm (countedIds o org) := by
        rw [countedIds_eq, countedIds_eq]
        exact (hreads.filterMap _).symm
      have hsame : org'.fits = org.fits := Folder.fits_congr hpath
      have hlen : ∀ x ∈ tally (countedIds o org'),
          x.2 < 2 ^ 31 ∧ (countText x).length < MAX_LINE_LEN := by
        intro x hx
        obtain ⟨hid, hcount⟩ := mem_tally.mp hx
        exact hfits x (mem_tally.mpr ⟨hids.mem_iff.mp hid, hids.count_eq x.1 ▸ hcount⟩)
      have h' : cntSrhNums o σ' org' dst flg = some (0, _) :=
        cntSrhNums_eq_some_iff.mpr ⟨⟨h0, h1, hdst, hkeys.all_eq ▸ hsame ▸ horg, hlen⟩, rfl⟩
      refine ⟨_, h', ?_⟩
      rw [hlines, tallyLines_eq h']
      exact ((tallied_sort o σ org flg).perm (tallied_sort o σ' org' flg) hreads).map countText

def twoLogs : Folder :=
  .ofList "log" [("0612.log", "$$|4|\n$$|5|"), ("server.log", "$$|4|q\n$$|-1|\n$$4|\n")]

def twoCounts : Folder := .ofList "wrk" [("logNumCount.tmp", "4|2\n5|1\n")]

theorem cntSrhNums_tallies_twoLogs :
    (∃ es, Tallied (logReads allOpen twoLogs) 0 es ∧
      twoCounts.files.lookup logNumCount = some (es.map countText).flatten ∧
      tallyLines twoCounts = es.map countText) ∧
    ∀ (σ' : Sorter (Text × ℕ)) (org' : Folder), org'.path = twoLogs.path →
      twoLogs.files.entries.Perm org'.files.entries →
      ∃ dst'', cntSrhNums allOpen σ' org' (.ofList "wrk" []) 0 = some (0, dst'') ∧
        (tallyLines twoCounts).Perm (tallyLines dst'') :=
  (cntSrhNums_tallies allOpen (insertion _) twoLogs (.ofList "wrk" []) 0).2 twoCounts rfl

end Counted

end FingerMove.ProDeal
