import FingerMove.ProDeal.Pipeline

namespace FingerMove.ProDeal

open CText Directory Tally

section Loops

variable {limit count : ℕ}

def topText (x : Text × ℕ) : Text := x.1 ++ ".afp\n".toList

def botText (x : Text × ℕ) : Text := x.1 ++ ['\n']

theorem botNames_eq (fliter : List ℤ) (lines : List Text) :
    botNames limit fliter count lines =
      ((lines.filter fun line ↦ atoi (cstr line) ∉ fliter).take (limit - count)).map cstr := by
  induction lines generalizing count with
  | nil => simp [botNames]
  | cons line lines ih =>
    simp only [botNames]
    split
    · next hle => simp [Nat.sub_eq_zero_of_le hle]
    · next hlt =>
      split
      · next hmem => simp [hmem, ih]
      · next hmem =>
        obtain ⟨k, hk⟩ := Nat.exists_eq_add_of_lt (not_le.mp hlt)
        rw [List.filter_cons_of_pos (by simpa using hmem), ih,
          show limit - count = (limit - (count + 1)) + 1 by omega, List.take_succ_cons,
          List.map_cons]

theorem splitLine_entries {es : List (Text × ℕ)} (h : ∀ x ∈ es, Entry x ∧ x.1 ≠ []) :
    (es.map countText).filterMap splitLine = es.map fun x ↦ (x.1, (x.2 : ℤ)) := by
  rw [List.filterMap_map, ← List.filterMap_eq_map]
  apply List.filterMap_congr
  intro x hx
  exact (h x hx).1.split (h x hx).2

theorem topLoop_entries {cnt : ℤ} {es : List (Text × ℕ)} {out : List Text}
    (h : ∀ x ∈ es, Entry x ∧ x.1 ≠ []) (ho : topLoop limit cnt 0 (es.map countText) = some out) :
    out = ((es.take limit).takeWhile fun x ↦ cnt < x.2).map topText ∧
      ∀ line ∈ out, line.length < MAX_LINE_LEN := by
  obtain ⟨rfl, hfits⟩ := topLoop_eq ho
  refine ⟨?_, hfits⟩
  rw [Nat.sub_zero, ← List.map_take,
    splitLine_entries fun x hx ↦ h x (List.mem_of_mem_take hx), List.takeWhile_map, List.map_map]
  rfl

theorem botSongs_entries {thr t : ℤ} {es : List (Text × ℕ)} {out : List Text}
    (h : ∀ x ∈ es, Entry x ∧ x.1 ≠ [])
    (ho : botSongs limit count thr (es.map countText) = some (out, t)) :
    out = (es.take (limit - count)).map botText ∧ (∀ line ∈ out, line.length < MAX_LINE_LEN) ∧
      t = ((es.take (limit - count)).getLast?).elim thr fun x ↦ x.2 := by
  induction es generalizing count thr out with
  | nil =>
    obtain ⟨rfl, rfl⟩ := Prod.mk.inj (Option.some.inj ho)
    simp
  | cons x es ih =>
    obtain ⟨⟨hx, hne⟩, hes⟩ := List.forall_mem_cons.mp h
    simp only [List.map_cons, botSongs] at ho
    split at ho
    · next hle =>
      obtain ⟨rfl, rfl⟩ := Prod.mk.inj (Option.some.inj ho)
      simp [Nat.sub_eq_zero_of_le hle]
    · next hlt =>
      rw [show limit - count = (limit - (count + 1)) + 1 by omega, List.take_succ_cons]
      simp only [hx.split hne, Option.bind_eq_bind, Option.bind_some, Option.bind_eq_some_iff,
        Option.pure_def, Option.some.injEq, Prod.mk.injEq, sprintf,
        Option.ite_none_right_eq_some] at ho
      obtain ⟨_, ⟨hlen, rfl⟩, ⟨rest, t'⟩, hrest, rfl, rfl⟩ := ho
      obtain ⟨rfl, hfits, rfl⟩ := ih hes hrest
      refine ⟨rfl, List.forall_mem_cons.mpr ⟨hlen, hfits⟩, ?_⟩
      rw [List.getLast?_cons]
      cases (es.take (limit - (count + 1))).getLast? <;> rfl

end Loops

/-- The first three stages of a round on one host, all of them successful. -/
structure Prepared (σ : Sorter (Text × ℕ)) (flg : ℤ) (afp logs wrk : Folder) where
  names : Opens
  counts : Opens
  filter : Opens
  named : Folder
  counted : Folder
  ready : Folder
  getAfpName_ok : getAfpName names afp wrk = some (0, named)
  cntSrhNums_ok : cntSrhNums counts σ logs named flg = some (0, counted)
  fltLogFile_ok : fltLogFile filter counted counted = some (0, ready)

namespace Prepared

variable {σ : Sorter (Text × ℕ)} {flg : ℤ} {afp logs wrk : Folder} (p : Prepared σ flg afp logs wrk)

def ids : List Text := countedIds p.counts logs

def Matched (afp : Folder) (id : Text) : Prop := ∃ n ∈ afp.files.keys, atoi n.text = atoi id

instance (afp : Folder) : DecidablePred (Matched afp) := fun _ ↦ List.decidableBEx _ _

def unmatched : List FileName :=
  afp.files.keys.filter fun n ↦ ∀ id ∈ p.ids, atoi id ≠ atoi n.text

def survivors : List (Text × ℕ) :=
  (σ.sort (if flg = 0 then cmp else lmp) (tally p.ids)).filter fun x ↦ Matched afp x.1

def kept : List Text := reads MAX_LINE_LEN ((p.ready.files.lookup fltLogsFile).getD [])

theorem mem_sorted {x : Text × ℕ} :
    x ∈ σ.sort (if flg = 0 then cmp else lmp) (tally p.ids) ↔
      x.1 ∈ p.ids ∧ x.2 = p.ids.count x.1 :=
  (σ.perm _ _ (strictWeak_order flg)).mem_iff.trans mem_tally

theorem mem_survivors {x : Text × ℕ} :
    x ∈ p.survivors ↔ x.1 ∈ p.ids ∧ x.2 = p.ids.count x.1 ∧ Matched afp x.1 := by
  simp [survivors, p.mem_sorted, and_assoc]

theorem entry_of_counted {id : Text} (h : id ∈ p.ids) : Entry (id, p.ids.count id) :=
  (ProDeal.cntSrhNums_ok p.cntSrhNums_ok).2 _ (p.mem_sorted.mpr ⟨h, rfl⟩)

theorem survivors_entry : ∀ x ∈ p.survivors, Entry x := fun x hx ↦
  (ProDeal.cntSrhNums_ok p.cntSrhNums_ok).2 x (List.mem_of_mem_filter hx)

theorem survivors_sorted :
    p.survivors.Pairwise fun x y ↦ (if flg = 0 then cmp else lmp) y x = false :=
  (σ.sorted _ _ (strictWeak_order flg)).filter _

include p in
theorem names_isLine (hn : ∀ n ∈ afp.files.keys, '\n' ∉ n.text) :
    ∀ line ∈ afp.files.keys.map nameText, IsLine MAX_LINE_LEN line :=
  List.forall_mem_map.mpr fun n hmem ↦
    nameText_isLine (hn n hmem) ((ProDeal.getAfpName_ok p.getAfpName_ok).2 n hmem)

include p in
theorem numbers_names (hn : ∀ n ∈ afp.files.keys, '\n' ∉ n.text) :
    numbers (afp.files.keys.map nameText).flatten = afp.files.keys.map fun n ↦ atoi n.text := by
  rw [numbers, reads_flatten (p.names_isLine hn), List.map_map]
  simp [Function.comp_def, cstr_nameText, atoi_nameText]

def listed (afp : Folder) : List ℤ := numbers (afp.files.keys.map nameText).flatten

theorem lookup_ready :
    p.ready.files.lookup afpNameFile = some (afp.files.keys.map nameText).flatten ∧
      p.ready.files.lookup fltLogsFile = some (((σ.sort (if flg = 0 then cmp else lmp)
        (tally p.ids)).filter fun x ↦ atoi x.1 ∈ listed afp).map countText).flatten := by
  obtain ⟨hnamed, -⟩ := ProDeal.getAfpName_ok p.getAfpName_ok
  obtain ⟨hcounted, hentry⟩ := ProDeal.cntSrhNums_ok p.cntSrhNums_ok
  obtain ⟨afps, tallies, hafps, htallies, hready⟩ := ProDeal.fltLogFile_ok p.fltLogFile_ok
  rw [hcounted, lookup_write_ne (by decide), hnamed, lookup_write_self] at hafps
  rw [hcounted, lookup_write_self] at htallies
  obtain rfl := Option.some.inj hafps
  obtain rfl := Option.some.inj htallies
  constructor
  · rw [hready, lookup_write_ne (by decide), hcounted, lookup_write_ne (by decide), hnamed,
      lookup_write_self]
  · have hlines : ∀ x ∈ σ.sort (if flg = 0 then cmp else lmp) (tally p.ids),
        decide (atoi (cstr (countText x)) ∈ listed afp) = decide (atoi x.1 ∈ listed afp) := by
      intro x hx
      rw [(hentry x hx).cstr_eq, atoi_countText]
    rw [hready, lookup_write_self, filtered, reads_flatten, List.filter_map, List.map_map,
      ← List.filter_congr hlines]
    · congr 2
      exact List.map_congr_left fun x hx ↦ (hentry x (List.mem_of_mem_filter hx)).cstr_eq
    · exact List.forall_mem_map.mpr fun x hx ↦ (hentry x hx).isLine

theorem spec (hn : ∀ n ∈ afp.files.keys, '\n' ∉ n.text) :
    p.ready.files.lookup afpNameFile = some (afp.files.keys.map nameText).flatten ∧
      p.ready.files.lookup fltLogsFile = some (p.survivors.map countText).flatten := by
  obtain ⟨hnames, hfiltered⟩ := p.lookup_ready
  refine ⟨hnames, ?_⟩
  rw [hfiltered, listed, numbers_names p hn, survivors]
  simp [Matched]

theorem mem_unmatched {n : FileName} :
    n ∈ p.unmatched ↔ n ∈ afp.files.keys ∧ ∀ id ∈ p.ids, atoi id ≠ atoi n.text := by
  simp [unmatched]

theorem survivors_ready (hids : ∀ id ∈ p.ids, id ≠ []) :
    ∀ x ∈ p.survivors, Entry x ∧ x.1 ≠ [] := fun x hx ↦
  ⟨p.survivors_entry x hx, hids x.1 (p.mem_survivors.mp hx).1⟩

theorem reads_survivors : reads MAX_LINE_LEN (p.survivors.map countText).flatten =
    p.survivors.map countText :=
  reads_flatten (List.forall_mem_map.mpr fun x hx ↦ (p.survivors_entry x hx).isLine)

theorem numbers_survivors : numbers (p.survivors.map countText).flatten =
    p.survivors.map fun x ↦ atoi x.1 := by
  rw [numbers, p.reads_survivors, List.map_map]
  apply List.map_congr_left
  intro x hx
  rw [Function.comp_apply, (p.survivors_entry x hx).cstr_eq, atoi_countText]

theorem filter_unmatched : (afp.files.keys.filter fun n ↦
    atoi n.text ∉ p.survivors.map fun x ↦ atoi x.1) = p.unmatched := by
  apply List.filter_congr
  intro n hn
  rw [decide_eq_decide]
  constructor
  · intro h id hid he
    have hmem : (id, p.ids.count id) ∈ p.survivors :=
      p.mem_survivors.mpr ⟨hid, rfl, n, hn, he.symm⟩
    exact h (List.mem_map.mpr ⟨_, hmem, he⟩)
  · intro h hmem
    obtain ⟨x, hx, he⟩ := List.mem_map.mp hmem
    exact h x.1 (p.mem_survivors.mp hx).1 he

theorem mem_survivors_of_kept (hn : ∀ n ∈ afp.files.keys, '\n' ∉ n.text)
    (hids : ∀ id ∈ p.ids, id ≠ []) {id : Text} (hid : id ∈ p.ids)
    (hk : countText (id, p.ids.count id) ∈ p.kept) : (id, p.ids.count id) ∈ p.survivors := by
  rw [kept, (p.spec hn).2, Option.getD_some, p.reads_survivors] at hk
  obtain ⟨x, hx, he⟩ := List.mem_map.mp hk
  obtain ⟨hentry, hne⟩ := p.survivors_ready hids x hx
  have hsplit := hentry.split hne
  rw [he, (p.entry_of_counted hid).split (hids id hid)] at hsplit
  obtain ⟨hfst, hsnd⟩ := Prod.mk.inj (Option.some.inj hsplit)
  have hxe : (id, p.ids.count id) = x := Prod.ext hfst (by exact_mod_cast hsnd)
  exact hxe ▸ hx

end Prepared

/-- All stages of the main cache's round up to `botAfpFile`, successful. -/
structure Bottom (σ : Sorter (Text × ℕ)) (CACHE_LIMIT : ℕ) (afp logs wrk : Folder)
    extends Prepared σ 1 afp logs wrk where
  bottom : Opens
  thr : ℤ
  done : Folder
  botAfpFile_ok : botAfpFile bottom CACHE_LIMIT ready ready = some (thr, done)
  thr_ne : thr ≠ -1

namespace Bottom

variable {σ : Sorter (Text × ℕ)} {CACHE_LIMIT : ℕ} {afp logs wrk : Folder}
variable (b : Bottom σ CACHE_LIMIT afp logs wrk)

def lines : List Text := reads MAX_LINE_LEN ((b.done.files.lookup botAfpsFile).getD [])

def cold : List FileName := b.unmatched.take CACHE_LIMIT

def songs : List (Text × ℕ) := b.survivors.take (CACHE_LIMIT - b.cold.length)

theorem spec (hn : ∀ n ∈ afp.files.keys, '\n' ∉ n.text) (hids : ∀ id ∈ b.ids, id ≠ []) :
    b.lines = b.cold.map nameText ++ b.songs.map botText ∧
      b.thr = b.songs.getLast?.elim 0 fun x ↦ (x.2 : ℤ) := by
  obtain ⟨afps, tallies, songs, hafps, htallies, hsongs, hdone⟩ :=
    ProDeal.botAfpFile_ok b.botAfpFile_ok b.thr_ne
  obtain ⟨hnames, hfiltered⟩ := b.toPrepared.spec hn
  obtain rfl := Option.some.inj (hnames.symm.trans hafps)
  obtain rfl := Option.some.inj (hfiltered.symm.trans htallies)
  have hline := b.names_isLine hn
  have hcold : botNames CACHE_LIMIT (numbers (b.survivors.map countText).flatten) 0
      (reads MAX_LINE_LEN (afp.files.keys.map nameText).flatten) = b.cold.map nameText := by
    rw [reads_flatten hline, b.numbers_survivors, botNames_eq, List.filter_map, ← List.map_take,
      List.map_map, cold, ← b.filter_unmatched, Nat.sub_zero]
    simp only [Function.comp_def, cstr_nameText, atoi_nameText]
  rw [hcold, b.reads_survivors, List.length_map] at hsongs
  obtain ⟨rfl, hfits, hthr⟩ := botSongs_entries (b.survivors_ready hids) hsongs
  refine ⟨?_, hthr⟩
  rw [lines, hdone, lookup_write_self, hcold, Option.getD_some, reads_flatten]
  · rfl
  · intro line hmem
    rcases List.mem_append.mp hmem with hmem | hmem
    · obtain ⟨n, hn, rfl⟩ := List.mem_map.mp hmem
      exact hline _ (List.mem_map_of_mem (b.mem_unmatched.mp (List.mem_of_mem_take hn)).1)
    · obtain ⟨x, hx, rfl⟩ := List.mem_map.mp hmem
      exact ⟨hfits _ hmem, x.1,
        (b.survivors_entry x (List.mem_of_mem_take hx)).isId.noNewline, rfl⟩

end Bottom

structure Top (σ : Sorter (Text × ℕ)) (GROUP_LIMIT : ℕ) (thr : ℤ) (afp logs wrk : Folder)
    extends Prepared σ 0 afp logs wrk where
  top : Opens
  count : ℤ
  done : Folder
  topAfpFile_ok : topAfpFile top GROUP_LIMIT ready ready thr = some (count, done)
  count_ne : count ≠ -1

namespace Top

variable {σ : Sorter (Text × ℕ)} {GROUP_LIMIT : ℕ} {thr : ℤ} {afp logs wrk : Folder}
variable (g : Top σ GROUP_LIMIT thr afp logs wrk)

def lines : List Text := reads MAX_LINE_LEN ((g.done.files.lookup topAfpsFile).getD [])

def songs : List (Text × ℕ) := (g.survivors.take GROUP_LIMIT).takeWhile fun x ↦ thr < x.2

theorem spec (hn : ∀ n ∈ afp.files.keys, '\n' ∉ n.text) (hids : ∀ id ∈ g.ids, id ≠ []) :
    g.lines = g.songs.map topText ∧ g.count = g.songs.length := by
  obtain ⟨tallies, out, htallies, hout, hcount, hdone⟩ :=
    ProDeal.topAfpFile_ok g.topAfpFile_ok g.count_ne
  obtain rfl := Option.some.inj ((g.toPrepared.spec hn).2.symm.trans htallies)
  rw [g.reads_survivors] at hout
  obtain ⟨rfl, hfits⟩ := topLoop_entries (g.survivors_ready hids) hout
  refine ⟨?_, by simpa [songs] using hcount⟩
  rw [lines, hdone, lookup_write_self, Option.getD_some, reads_flatten]
  · rfl
  · intro line hmem
    obtain ⟨x, hx, rfl⟩ := List.mem_map.mp hmem
    have hx := List.mem_of_mem_take ((List.takeWhile_prefix _).subset hx)
    exact ⟨hfits _ hmem, x.1 ++ ".afp".toList,
      by simpa using (g.survivors_entry x hx).isId.noNewline, by simp [topText]⟩

end Top

end FingerMove.ProDeal
