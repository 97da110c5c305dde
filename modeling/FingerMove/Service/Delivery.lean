import FingerMove.Service.Disk
import FingerMove.Service.Stored
import FingerMove.Service.Windows

namespace FingerMove.Service.Rounds

open CText Directory ProDeal Function Windows Evict

def Good (x : Parcel) : Prop := Delivered x ∧ ∀ j, x.dels j = .answered

structure Visit.Good (v : Visit) : Prop where
  opens : v.mov.call 0 = true ∧ v.mov.call 1 = true
  listed : v.listed = true
  result : ∀ r, v.result = some r → 0 ≤ r
  parcels : ∀ f, Rounds.Good (v.parcels f)

section Files

variable {subs : List Text} {org : Folder} {x : Parcel} {f g : FileName} {data addr : Text}
variable {p p' : Progress} {parcels : FileName → Parcel} {fs : List FileName}

theorem appDels_lookup {dels : ℕ → Delivery} {i : ℕ} {sub sub' : Text → Folder}
    (hdels : ∀ j, dels j = .answered)
    (h : McMoveClient.appDels dels f.text i subs sub = some sub') (addr : Text) (g : FileName) :
    (sub' addr).files.lookup g =
      if g = f ∧ addr ∈ subs then none else (sub addr).files.lookup g := by
  induction subs generalizing i sub with
  | nil =>
    obtain rfl := Option.some.inj h
    simp
  | cons a subs ih =>
    obtain ⟨⟨st, d⟩, hcall, h⟩ := Option.bind_eq_some_iff.mp h
    rw [hdels i] at hcall
    have hlookup := lookup_delafps hcall g
    rw [file_of_text] at hlookup
    rw [ih h]
    rcases eq_or_ne addr a with rfl | ha
    · rw [update_self, hlookup]
      by_cases hg : g = f <;> simp [hg]
    · rw [update_of_ne ha]
      simp [ha]

theorem moveFile_lookup (hx : Good x) (hf : org.files.lookup f = some data)
    (h : moveFile subs org x f p = some p') :
    (∀ g, p'.group.dst.files.lookup g =
        if g = f then some data else p.group.dst.files.lookup g) ∧
      ∀ addr g, (p'.sub addr).files.lookup g =
        if g = f ∧ addr ∈ subs then none else (p.sub addr).files.lookup g := by
  obtain ⟨⟨hopened, hsend, hstored⟩, hdels⟩ := hx
  obtain ⟨_ | req, hread, h⟩ := Option.bind_eq_some_iff.mp h
  · have hclosed := readFinger_none (AList.lookup_isSome.mp (by rw [hf]; rfl)) hread
    rw [hopened] at hclosed
    cases hclosed
  · obtain ⟨-, val, hval, rfl⟩ := readFinger_some hread
    obtain rfl : val = data := Option.some.inj (hval.symm.trans hf)
    obtain ⟨⟨st, grp⟩, hcall, h⟩ := Option.bind_eq_some_iff.mp h
    obtain ⟨sub, hdel, h⟩ := Option.bind_eq_some_iff.mp h
    obtain rfl := Option.some.inj h
    rw [hsend, hstored] at hcall
    obtain ⟨⟨st', dst⟩, hstore, hcall⟩ := Option.bind_eq_some_iff.mp hcall
    obtain ⟨-, rfl⟩ := Prod.mk.inj (Option.some.inj hcall)
    obtain ⟨-, rfl⟩ := storeFinger_opened (data_of_len rfl) hstore
    refine ⟨fun g ↦ ?_, appDels_lookup hdels hdel⟩
    have hname : FingerValue.file ⟨f.text, val, val.length⟩ = f := file_of_text f
    rw [hname]
    rcases eq_or_ne g f with rfl | hg
    · rw [if_pos rfl, lookup_write_self]
    · rw [if_neg hg, lookup_write_ne hg]

theorem moveFiles_lookup (hx : ∀ f, Good (parcels f)) (hfs : ∀ f ∈ fs, f ∈ org.files)
    (h : moveFiles subs parcels org fs p = some p') :
    (∀ g, p'.group.dst.files.lookup g =
        if g ∈ fs then org.files.lookup g else p.group.dst.files.lookup g) ∧
      ∀ addr g, (p'.sub addr).files.lookup g =
        if g ∈ fs ∧ addr ∈ subs then none else (p.sub addr).files.lookup g := by
  induction fs generalizing p with
  | nil =>
    obtain rfl := Option.some.inj h
    simp
  | cons f fs ih =>
    obtain ⟨hf, hfs⟩ := List.forall_mem_cons.mp hfs
    obtain ⟨data, hdata⟩ := Option.isSome_iff_exists.mp (AList.lookup_isSome.mpr hf)
    obtain ⟨q, hq, h⟩ := Option.bind_eq_some_iff.mp h
    obtain ⟨hgroup, hsub⟩ := moveFile_lookup (hx f) hdata hq
    obtain ⟨hgroup', hsub'⟩ := ih hfs h
    constructor
    · intro g
      rw [hgroup', hgroup]
      rcases eq_or_ne g f with rfl | hg
      · simp [hdata]
      · simp [hg]
    · intro addr g
      rw [hsub', hsub]
      rcases eq_or_ne g f with rfl | hg
      · by_cases haddr : addr ∈ subs <;> simp [haddr]
      · simp [hg]

end Files

/-- The files `ns` have left AFP_DIR, and the sub caches drop those that were there;
group servers have taken the files that go to them. -/
structure Handed (g_sublist : List Text) (ns : List FileName) (gets : Text → FileName → Prop)
    (s t : RunLoop.State) : Prop where
  afp : ∀ f, t.host.afp.files.lookup f = if f ∈ ns then none else s.host.afp.files.lookup f
  taken : ∀ addr f, gets addr f → (t.group addr).dst.files.lookup f =
    (s.host.afp.files.lookup f).or ((s.group addr).dst.files.lookup f)
  others : ∀ addr f, ¬ gets addr f →
    (t.group addr).dst.files.lookup f = (s.group addr).dst.files.lookup f
  dropped : ∀ addr f, (t.sub addr).files.lookup f =
    if addr ∈ g_sublist ∧ f ∈ ns ∧ f ∈ s.host.afp.files then none else (s.sub addr).files.lookup f

/-- The names in the windows of the visits to `addr`, where the first starts at `n`. -/
def Gets (names : List FileName) (n : ℕ) (vs : List Visit) (addr : Text) (f : FileName) : Prop :=
  ∃ i v, vs[i]? = some v ∧ v.addr = addr ∧
    f ∈ (names.drop (n + start (shares vs) i)).take v.share

section Handed

variable {g_sublist : List Text} {ns ns' names : List FileName}
variable {gets gets' : Text → FileName → Prop}
variable {s t u : RunLoop.State} {v : Visit} {vs : List Visit} {n : ℕ}

theorem handed_refl (s : RunLoop.State) : Handed g_sublist [] (fun _ _ ↦ False) s s where
  afp f := by simp
  taken addr f h := h.elim
  others addr f _ := rfl
  dropped addr f := by simp

theorem Handed.trans (h : Handed g_sublist ns gets s u) (h' : Handed g_sublist ns' gets' u t)
    (hto : ∀ addr f, gets addr f → f ∈ ns) (hto' : ∀ addr f, gets' addr f → f ∈ ns')
    (hdisjoint : ∀ f ∈ ns, f ∉ ns') :
    Handed g_sublist (ns ++ ns') (fun addr f ↦ gets addr f ∨ gets' addr f) s t := by
  have hstill : ∀ f ∈ ns', u.host.afp.files.lookup f = s.host.afp.files.lookup f := by
    intro f hf
    rw [h.afp, if_neg fun hns ↦ hdisjoint f hns hf]
  constructor
  · intro f
    rw [h'.afp, h.afp]
    by_cases hf : f ∈ ns <;> by_cases hf' : f ∈ ns' <;> simp [hf, hf']
  · rintro addr f (hf | hf)
    · rw [h'.others addr f fun hf' ↦ hdisjoint f (hto addr f hf) (hto' addr f hf'),
        h.taken addr f hf]
    · rw [h'.taken addr f hf, hstill f (hto' addr f hf),
        h.others addr f fun hns ↦ hdisjoint f (hto addr f hns) (hto' addr f hf)]
  · intro addr f hf
    obtain ⟨hns, hns'⟩ := not_or.mp hf
    rw [h'.others addr f hns', h.others addr f hns]
  · intro addr f
    rw [h'.dropped, h.dropped]
    by_cases hf' : f ∈ ns'
    · have hmem : f ∈ u.host.afp.files ↔ f ∈ s.host.afp.files := by
        rw [← AList.lookup_isSome, hstill f hf', AList.lookup_isSome]
      have hf : f ∉ ns := fun hns ↦ hdisjoint f hns hf'
      simp [hmem, hf, hf']
    · simp [hf']

theorem visit_handed (hv : v.Good) {r m : ℤ} (hr : v.result = some r) {bots : Text}
    (hbots : s.host.wrk.files.lookup botAfpsFile = some bots)
    (hns : attempts s.host.wrk n r = some ns) (h : visit g_sublist (s, n) v = some (t, m)) :
    Handed g_sublist ns (fun addr f ↦ v.addr = addr ∧ f ∈ ns) s t := by
  obtain ⟨-, -, ns', hns', hafp, horg⟩ := visit_moves hr hv.opens.1 hv.opens.2 hbots h
  obtain rfl := Option.some.inj (hns'.symm.trans hns)
  unfold visit at h
  simp only [hr] at h
  obtain ⟨⟨code, afp, org⟩, -, h⟩ := Option.bind_eq_some_iff.mp h
  obtain ⟨⟨code', p⟩, hmove, h⟩ := Option.bind_eq_some_iff.mp h
  obtain ⟨rfl, -⟩ := Prod.mk.inj (Option.some.inj h)
  rw [hv.listed] at hmove
  obtain ⟨q, hq, hmove⟩ := Option.bind_eq_some_iff.mp hmove
  obtain ⟨-, rfl⟩ := Prod.mk.inj (Option.some.inj hmove)
  obtain ⟨hgroup, hsub⟩ := moveFiles_lookup hv.parcels (fun f hf ↦ AList.mem_keys.mpr hf) hq
  replace horg : org.files = (moveAll ns' s.host.afp.files ∅).2 := horg
  have hkeys : ∀ f, f ∈ org.files.keys ↔ f ∈ ns' ∧ f ∈ s.host.afp.files := by
    intro f
    rw [← AList.mem_keys, horg, mem_moveAll_snd]
  constructor
  · intro f
    rw [hafp, lookup_moveAll_fst]
  · rintro addr f ⟨rfl, hf⟩
    simp only [update_self]
    rw [hgroup]
    by_cases hmem : f ∈ s.host.afp.files
    · obtain ⟨data, hdata⟩ := Option.isSome_iff_exists.mp (AList.lookup_isSome.mpr hmem)
      rw [if_pos ((hkeys f).mpr ⟨hf, hmem⟩), horg, lookup_moveAll_snd, if_pos ⟨hf, hmem⟩, hdata]
      rfl
    · rw [if_neg fun hin ↦ hmem ((hkeys f).mp hin).2, AList.lookup_eq_none.mpr hmem]
      rfl
  · intro addr f hf
    rcases eq_or_ne addr v.addr with rfl | haddr
    · simp only [update_self]
      rw [hgroup, if_neg fun hin ↦ hf ⟨rfl, ((hkeys f).mp hin).1⟩]
    · simp only [update_of_ne haddr]
  · intro addr f
    have hiff : (f ∈ org.files.keys ∧ addr ∈ g_sublist) ↔
        addr ∈ g_sublist ∧ f ∈ ns' ∧ f ∈ s.host.afp.files := by
      rw [hkeys]
      tauto
    simp only [hsub, hiff]

theorem share_handed (hv : v.Good)
    (hbots : s.host.wrk.files.lookup botAfpsFile = some (names.map nameText).flatten)
    (hnames : ∀ n ∈ names, '\n' ∉ n.text ∧ (nameText n).length < MAX_LINE_LEN) {m : ℤ}
    (h : visit g_sublist (s, (n : ℤ)) v = some (t, m)) :
    Handed g_sublist ((names.drop n).take v.share)
      (fun addr f ↦ v.addr = addr ∧ f ∈ (names.drop n).take v.share) s t := by
  cases hr : v.result with
  | none =>
    rw [visit_failed hr] at h
    obtain ⟨rfl, -⟩ := Prod.mk.inj (Option.some.inj h)
    have hshare : v.share = 0 := by rw [Visit.share, hr]; rfl
    simpa [hshare] using handed_refl s
  | some r =>
    have hpos := hv.result r hr
    have hshare : r = v.share := by
      rw [Visit.share, hr]
      exact (Int.toNat_of_nonneg hpos).symm
    refine visit_handed hv hr hbots ?_ h
    rw [hshare]
    exact attempts_eq hbots hnames n v.share

theorem gets_cons (addr : Text) (f : FileName) : Gets names n (v :: vs) addr f ↔
    (v.addr = addr ∧ f ∈ (names.drop n).take v.share) ∨ Gets names (n + v.share) vs addr f := by
  have hstart : ∀ i, start (shares (v :: vs)) (i + 1) = v.share + start (shares vs) i := by
    intro i
    simp [start, shares]
  unfold Gets
  constructor
  · rintro ⟨i, w, hi, haddr, hf⟩
    cases i with
    | zero =>
      obtain rfl := Option.some.inj hi
      exact .inl ⟨haddr, hf⟩
    | succ i =>
      rw [hstart, ← Nat.add_assoc] at hf
      exact .inr ⟨i, w, hi, haddr, hf⟩
  · rintro (⟨haddr, hf⟩ | ⟨i, w, hi, haddr, hf⟩)
    · exact ⟨0, v, rfl, haddr, hf⟩
    · refine ⟨i + 1, w, hi, haddr, ?_⟩
      rwa [hstart, ← Nat.add_assoc]

theorem mem_of_gets {addr : Text} {f : FileName} (h : Gets names n vs addr f) :
    f ∈ (names.drop n).take (shares vs).sum := by
  induction vs generalizing n with
  | nil =>
    obtain ⟨i, v, hi, -⟩ := h
    cases hi
  | cons v vs ih =>
    have hsum : (shares (v :: vs)).sum = v.share + (shares vs).sum := List.sum_cons
    rw [hsum, List.take_add, List.drop_drop]
    rcases (gets_cons addr f).mp h with ⟨-, hf⟩ | hf
    · exact List.mem_append_left _ hf
    · exact List.mem_append_right _ (ih hf)

theorem visits_handed (hgood : ∀ v ∈ vs, v.Good) (hnodup : names.Nodup)
    (hbots : s.host.wrk.files.lookup botAfpsFile = some (names.map nameText).flatten)
    (hnames : ∀ n ∈ names, '\n' ∉ n.text ∧ (nameText n).length < MAX_LINE_LEN) {m : ℤ}
    (h : vs.foldlM (visit g_sublist) (s, (n : ℤ)) = some (t, m)) :
    Handed g_sublist ((names.drop n).take (shares vs).sum) (Gets names n vs) s t := by
  induction vs generalizing s n with
  | nil =>
    obtain ⟨rfl, -⟩ := Prod.mk.inj (Option.some.inj h)
    have hgets : Gets names n [] = fun _ _ ↦ False := by
      funext addr f
      simp [Gets]
    rw [hgets]
    exact handed_refl s
  | cons v vs ih =>
    obtain ⟨hv, hvs⟩ := List.forall_mem_cons.mp hgood
    obtain ⟨⟨u, k⟩, hu, h⟩ := Option.bind_eq_some_iff.mp h
    obtain ⟨rfl, hwrk⟩ := visit_count hv.result hu
    rw [← Nat.cast_add] at h
    have hhead := share_handed hv hbots hnames hu
    have htail := ih hvs (hwrk ▸ hbots) h
    have hdisjoint : ∀ f ∈ (names.drop n).take v.share,
        f ∉ (names.drop (n + v.share)).take (shares vs).sum := by
      intro f hf hf'
      have hsplit : ((names.drop n).take v.share ++ (names.drop n).drop v.share).Nodup := by
        rw [List.take_append_drop]
        exact hnodup.sublist (List.drop_sublist n names)
      rw [← List.drop_drop] at hf'
      exact (List.nodup_append.mp hsplit).2.2 f hf f (List.mem_of_mem_take hf') rfl
    have hsum : (shares (v :: vs)).sum = v.share + (shares vs).sum := List.sum_cons
    have hall := hhead.trans htail (fun addr f hf ↦ hf.2) (fun addr f ↦ mem_of_gets) hdisjoint
    rw [hsum, List.take_add, List.drop_drop]
    have hgets : Gets names n (v :: vs) = fun addr f ↦
        (v.addr = addr ∧ f ∈ (names.drop n).take v.share) ∨ Gets names (n + v.share) vs addr f := by
      funext addr f
      exact propext (gets_cons addr f)
    rw [hgets]
    exact hall

end Handed

/-- What makes the lines of a bottom list name one file each. -/
structure Listed (names : List FileName) : Prop where
  nodup : names.Nodup
  plain : ∀ n ∈ names, Confined.Plain n.text
  line : ∀ n ∈ names, '\n' ∉ n.text ∧ (nameText n).length < MAX_LINE_LEN

theorem Listed.plainLines {names : List FileName} (h : Listed names) :
    Confined.PlainLines (names.map nameText).flatten := by
  intro line hline n hn
  rw [reads_names h.line] at hline
  obtain ⟨k, hk, rfl⟩ := List.mem_map.mp hline
  rw [chop_nameText] at hn
  exact Option.some.inj hn ▸ h.plain k hk

structure Room (g_sublist : List Text) (names : List FileName) (vs : List Visit)
    (s : RunLoop.State) : Prop where
  wrk : s.host.wrk.fits botAfpsFile = true
  afp : ∀ f ∈ names, s.host.afp.fits f = true
  org : ∀ f, f ∈ names ∨ f ∈ s.host.org.files → s.host.org.fits f = true
  group : ∀ v ∈ vs, ∀ f ∈ names, (s.group v.addr).dst.fits f = true
  sub : ∀ addr ∈ g_sublist, ∀ f ∈ names, (s.sub addr).fits f = true
  size : ∀ f data, s.host.afp.files.lookup f = some data → data.length < 2 ^ 31

theorem Room.mono {g_sublist : List Text} {names names' : List FileName} {vs : List Visit}
    {s : RunLoop.State} (h : Room g_sublist names vs s) (hsub : names' ⊆ names) :
    Room g_sublist names' vs s where
  wrk := h.wrk
  afp f hf := h.afp f (hsub hf)
  org f hf := h.org f (hf.imp_left (hsub ·))
  group v hv f hf := h.group v hv f (hsub hf)
  sub addr ha f hf := h.sub addr ha f (hsub hf)
  size := h.size

section Returns

variable {g_sublist subs : List Text} {org : Folder} {x : Parcel} {f : FileName} {data : Text}
variable {p : Progress} {parcels : FileName → Parcel} {fs : List FileName}

theorem appDels_returns {dels : ℕ → Delivery} {i : ℕ} {sub : Text → Folder}
    (hdels : ∀ j, dels j = .answered) (hfits : ∀ addr ∈ subs, (sub addr).fits f = true) :
    ∃ sub', McMoveClient.appDels dels f.text i subs sub = some sub' ∧
      ∀ addr, (sub' addr).path = (sub addr).path := by
  induction subs generalizing i sub with
  | nil => exact ⟨sub, rfl, fun _ ↦ rfl⟩
  | cons a subs ih =>
    obtain ⟨st, d, hcall, hd⟩ : ∃ st d, ScServer.delafps f.text (sub a) = some (st, d) ∧
        d.path = (sub a).path := by
      have hfit := hfits a List.mem_cons_self
      by_cases hmem : f ∈ (sub a).files
      · refine ⟨.ok, { sub a with files := (sub a).files.erase f }, ?_, rfl⟩
        simp [ScServer.delafps, file_of_text, guard, hfit, hmem]
      · refine ⟨.cancelled, sub a, ?_, rfl⟩
        simp [ScServer.delafps, file_of_text, guard, hfit, hmem]
    have hpath : ∀ addr, (update sub a d addr).path = (sub addr).path := by
      intro addr
      rcases eq_or_ne addr a with rfl | ha
      · rw [update_self, hd]
      · rw [update_of_ne ha]
    have hfits' : ∀ addr ∈ subs, (update sub a d addr).fits f = true := by
      intro addr haddr
      rw [Folder.fits_congr (hpath addr)]
      exact hfits addr (List.mem_cons_of_mem a haddr)
    obtain ⟨sub', hrest, hsub'⟩ := ih (i := i + 1) hfits'
    refine ⟨sub', ?_, fun addr ↦ (hsub' addr).trans (hpath addr)⟩
    rw [McMoveClient.appDels, hdels i]
    exact Option.bind_eq_some_iff.mpr ⟨(st, d), hcall, hrest⟩

theorem moveFile_returns (hx : Good x) (hf : org.files.lookup f = some data)
    (hsize : data.length < 2 ^ 31) (horg : org.fits f = true)
    (hdst : p.group.dst.fits f = true) (hsub : ∀ addr ∈ subs, (p.sub addr).fits f = true) :
    ∃ p', moveFile subs org x f p = some p' ∧ p'.group.dst.path = p.group.dst.path ∧
      ∀ addr, (p'.sub addr).path = (p.sub addr).path := by
  obtain ⟨⟨hopened, hsend, hstored⟩, hdels⟩ := hx
  let req : FingerValue := ⟨f.text, data, data.length⟩
  have hread : readFinger x.opened org f = some (some req) := by
    rw [hopened]
    exact readFinger_of_lookup horg hf hsize
  have hname : req.file = f := file_of_text f
  have hstore : GMServer.afpmove x.stored req p.group.dst =
      some (.ok, p.group.dst.write f data) := by
    rw [GMServer.afpmove, storeFinger_returns (hname.symm ▸ hdst) (data_of_len rfl), hname, hstored]
    rfl
  let grp : GroupServer := ⟨p.group.dst.write f data, (req.file, req.val) :: p.group.acked⟩
  have hcall : x.send.call (GroupServer.afpmove x.stored req) p.group = some (.ok, grp) := by
    rw [hsend]
    exact Option.bind_eq_some_iff.mpr ⟨_, hstore, rfl⟩
  obtain ⟨sub', hdel, hpath⟩ := appDels_returns (i := 0) hdels hsub
  refine ⟨⟨grp, sub', f :: p.acks⟩, ?_, rfl, hpath⟩
  exact Option.bind_eq_some_iff.mpr ⟨some req, hread, Option.bind_eq_some_iff.mpr
    ⟨(.ok, grp), hcall, Option.bind_eq_some_iff.mpr ⟨sub', hdel, rfl⟩⟩⟩

theorem moveFiles_returns (hx : ∀ f, Good (parcels f)) (hfs : ∀ f ∈ fs, f ∈ org.files)
    (hsize : ∀ f data, org.files.lookup f = some data → data.length < 2 ^ 31)
    (horg : ∀ f ∈ fs, org.fits f = true) (hdst : ∀ f ∈ fs, p.group.dst.fits f = true)
    (hsub : ∀ addr ∈ subs, ∀ f ∈ fs, (p.sub addr).fits f = true) :
    ∃ p', moveFiles subs parcels org fs p = some p' ∧ p'.group.dst.path = p.group.dst.path ∧
      ∀ addr, (p'.sub addr).path = (p.sub addr).path := by
  induction fs generalizing p with
  | nil => exact ⟨p, rfl, rfl, fun _ ↦ rfl⟩
  | cons f fs ih =>
    obtain ⟨data, hdata⟩ := Option.isSome_iff_exists.mp
      (AList.lookup_isSome.mpr (hfs f List.mem_cons_self))
    obtain ⟨q, hq, hgroup, hpath⟩ := moveFile_returns (hx f) hdata (hsize f data hdata)
      (horg f List.mem_cons_self) (hdst f List.mem_cons_self)
      fun addr haddr ↦ hsub addr haddr f List.mem_cons_self
    obtain ⟨p', hp', hgroup', hpath'⟩ := ih (p := q) (fun g hg ↦ hfs g (List.mem_cons_of_mem f hg))
      (fun g hg ↦ horg g (List.mem_cons_of_mem f hg))
      (fun g hg ↦ by
        rw [Folder.fits_congr hgroup]
        exact hdst g (List.mem_cons_of_mem f hg))
      (fun addr haddr g hg ↦ by
        rw [Folder.fits_congr (hpath addr)]
        exact hsub addr haddr g (List.mem_cons_of_mem f hg))
    refine ⟨p', ?_, hgroup'.trans hgroup, fun addr ↦ (hpath' addr).trans (hpath addr)⟩
    exact Option.bind_eq_some_iff.mpr ⟨q, hq, hp'⟩

theorem movCntFile_returns {o : Opens} {afp wrk : Folder} {pos cnt : ℤ} {ns : List FileName}
    (ho : o.call 0 = true ∧ o.call 1 = true) (hwrk : wrk.fits botAfpsFile = true)
    (hns : attempts wrk pos cnt = some ns) (hafp : ∀ f ∈ ns, afp.fits f = true)
    (horg : ∀ f, f ∈ ns ∨ f ∈ org.files → org.fits f = true) :
    ∃ a b, movCntFile o afp org wrk pos cnt = some (0, a, b) ∧
      a.path = afp.path ∧ b.path = org.path ∧
      a.files = (moveAll ns afp.files ∅).1 ∧ b.files = (moveAll ns afp.files ∅).2 := by
  obtain ⟨bots, hbots, hchop⟩ := Option.bind_eq_some_iff.mp hns
  have hkeys : org.files.keys.all org.fits = true := by
    rw [List.all_eq_true]
    exact fun f hf ↦ horg f (.inr (AList.mem_keys.mpr hf))
  have hopen : wrk.fopenR (o.call 1) botAfpsFile = some (some bots) := by
    simp [Folder.fopenR, hwrk, ho.2, hbots]
  have hboth : (ns.all fun n ↦ afp.fits n && org.clear.fits n) = true := by
    rw [List.all_eq_true]
    intro f hf
    rw [Bool.and_eq_true]
    exact ⟨hafp f hf, horg f (.inl hf)⟩
  have hlines : moveLines afp org.clear (window pos cnt 0 (reads MAX_LINE_LEN bots)) =
      some ({ afp with files := (moveAll ns afp.files org.clear.files).1 },
        { org.clear with files := (moveAll ns afp.files org.clear.files).2 }) :=
    Option.bind_eq_some_iff.mpr ⟨ns, hchop, Option.bind_eq_some_iff.mpr ⟨(), if_pos hboth, rfl⟩⟩
  rw [clear_files] at hlines
  refine ⟨{ afp with files := (moveAll ns afp.files ∅).1 },
    { org with files := (moveAll ns afp.files ∅).2 }, ?_, rfl, rfl, rfl, rfl⟩
  unfold movCntFile movFiles
  rw [ho.1]
  exact Option.bind_eq_some_iff.mpr ⟨(), if_pos hkeys, Option.bind_eq_some_iff.mpr
    ⟨some bots, hopen, Option.bind_eq_some_iff.mpr ⟨_, hlines, rfl⟩⟩⟩

end Returns

section Round

variable {g_sublist : List Text} {names : List FileName} {s t : RunLoop.State} {v : Visit}
variable {vs : List Visit} {n : ℕ}

theorem visit_returns (hv : v.Good) (hroom : Room g_sublist names (v :: vs) s)
    (hbots : s.host.wrk.files.lookup botAfpsFile = some (names.map nameText).flatten)
    (hnames : ∀ n ∈ names, '\n' ∉ n.text ∧ (nameText n).length < MAX_LINE_LEN) :
    ∃ t m, visit g_sublist (s, (n : ℤ)) v = some (t, m) ∧ Room g_sublist names vs t := by
  have hgroup : ∀ w ∈ vs, ∀ f ∈ names, (s.group w.addr).dst.fits f = true :=
    fun w hw ↦ hroom.group w (List.mem_cons_of_mem v hw)
  cases hr : v.result with
  | none =>
    exact ⟨s, n, visit_failed hr, hroom.wrk, hroom.afp, hroom.org, hgroup, hroom.sub, hroom.size⟩
  | some r =>
    let ns := (names.drop n).take r.toNat
    have hsub : ∀ f ∈ ns, f ∈ names := fun f hf ↦ List.mem_of_mem_drop (List.mem_of_mem_take hf)
    have hns : attempts s.host.wrk n r = some ns := by
      have hpos : r = r.toNat := (Int.toNat_of_nonneg (hv.result r hr)).symm
      rw [hpos]
      exact attempts_eq hbots hnames n r.toNat
    obtain ⟨a, b, hmov, ha, hb, hafiles, hbfiles⟩ := movCntFile_returns hv.opens hroom.wrk hns
      (fun f hf ↦ hroom.afp f (hsub f hf)) (fun f hf ↦ hroom.org f (hf.imp_left (hsub f)))
    have hkeys : ∀ f ∈ b.files.keys, f ∈ ns := by
      intro f hf
      rw [← AList.mem_keys, hbfiles, mem_moveAll_snd] at hf
      exact hf.1
    have hlookup : ∀ f data, b.files.lookup f = some data →
        s.host.afp.files.lookup f = some data := by
      intro f data hf
      rw [hbfiles, lookup_moveAll_snd] at hf
      split at hf
      · exact hf
      · cases hf
    let p : Progress := ⟨s.group v.addr, s.sub, []⟩
    have horg : ∀ f ∈ b.files.keys, b.fits f = true := by
      intro f hf
      rw [Folder.fits_congr hb]
      exact hroom.org f (.inl (hsub f (hkeys f hf)))
    have hdst : ∀ f ∈ b.files.keys, p.group.dst.fits f = true :=
      fun f hf ↦ hroom.group v List.mem_cons_self f (hsub f (hkeys f hf))
    have hsubs : ∀ addr ∈ g_sublist, ∀ f ∈ b.files.keys, (p.sub addr).fits f = true :=
      fun addr haddr f hf ↦ hroom.sub addr haddr f (hsub f (hkeys f hf))
    obtain ⟨q, hq, hqgroup, hqsub⟩ := moveFiles_returns hv.parcels
      (fun f hf ↦ AList.mem_keys.mpr hf) (fun f data hf ↦ hroom.size f data (hlookup f data hf))
      horg hdst hsubs
    have hmove : afpMove g_sublist v.parcels b v.listed p = some (0, q) := by
      rw [hv.listed]
      exact Option.bind_eq_some_iff.mpr ⟨q, hq, rfl⟩
    refine ⟨⟨{ s.host with afp := a, org := b }, update s.group v.addr q.group, q.sub, s.pc⟩, n + r,
      ?_, hroom.wrk, ?_, ?_, ?_, ?_, ?_⟩
    · simp only [visit, hr]
      exact Option.bind_eq_some_iff.mpr ⟨_, hmov, Option.bind_eq_some_iff.mpr ⟨_, hmove, rfl⟩⟩
    · intro f hf
      rw [Folder.fits_congr ha]
      exact hroom.afp f hf
    · intro f hf
      rw [Folder.fits_congr hb]
      refine hroom.org f (.inl (hf.elim id fun hf ↦ hsub f (hkeys f (AList.mem_keys.mp hf))))
    · intro w hw f hf
      have hpath : (update s.group v.addr q.group w.addr).dst.path = (s.group w.addr).dst.path := by
        rcases eq_or_ne w.addr v.addr with haddr | haddr
        · rw [haddr, update_self, hqgroup]
        · rw [update_of_ne haddr]
      rw [Folder.fits_congr hpath]
      exact hgroup w hw f hf
    · intro addr haddr f hf
      rw [Folder.fits_congr (hqsub addr)]
      exact hroom.sub addr haddr f hf
    · intro f data hf
      simp only [hafiles, lookup_moveAll_fst] at hf
      split at hf
      · cases hf
      · exact hroom.size f data hf

theorem visits_return (hgood : ∀ v ∈ vs, v.Good) (hroom : Room g_sublist names vs s)
    (hbots : s.host.wrk.files.lookup botAfpsFile = some (names.map nameText).flatten)
    (hnames : ∀ n ∈ names, '\n' ∉ n.text ∧ (nameText n).length < MAX_LINE_LEN) :
    ∃ t m, vs.foldlM (visit g_sublist) (s, (n : ℤ)) = some (t, m) := by
  induction vs generalizing s n with
  | nil => exact ⟨s, n, rfl⟩
  | cons v vs ih =>
    obtain ⟨hv, hvs⟩ := List.forall_mem_cons.mp hgood
    obtain ⟨u, k, hu, hroom'⟩ := visit_returns (n := n) hv hroom hbots hnames
    obtain ⟨rfl, hwrk⟩ := visit_count hv.result hu
    obtain ⟨t, m, hrest⟩ := ih (n := n + v.share) hvs hroom' (hwrk ▸ hbots)
    refine ⟨t, m, Option.bind_eq_some_iff.mpr ⟨_, hu, ?_⟩⟩
    rw [Nat.cast_add] at hrest
    exact hrest

/-- A round in which nothing fails hands over as many lines of the bottom list as the
groups have answered, and just these: AFP_DIR loses the files, each group has those
of its part under their contents, the sub caches have dropped them, and nothing else
changes. It returns if its paths fit. -/
theorem round_delivers (hgood : ∀ v ∈ vs, v.Good) (hlisted : Listed names)
    (hbots : s.host.wrk.files.lookup botAfpsFile = some (names.map nameText).flatten) :
    (Room g_sublist names vs s → ∃ r, vs.foldlM (visit g_sublist) (s, 0) = some r) ∧
      ∀ t m, vs.foldlM (visit g_sublist) (s, 0) = some (t, m) → m = (shares vs).sum ∧
        Handed g_sublist (names.take (shares vs).sum) (Gets names 0 vs) s t := by
  refine ⟨?_, ?_⟩
  · intro hroom
    obtain ⟨t, m, h⟩ := visits_return (n := 0) hgood hroom hbots hlisted.line
    exact ⟨(t, m), h⟩
  · intro t m h
    obtain ⟨hm, -⟩ := visits_count (fun v hv ↦ (hgood v hv).result) h
    have hhanded := visits_handed (n := 0) hgood hlisted.nodup hbots hlisted.line h
    rw [List.drop_zero] at hhanded
    exact ⟨hm.trans (zero_add _), hhanded⟩

def goodVisit (addr : String) (r : ℤ) : Visit :=
  ⟨addr.toList, some r, allOpen, true, fun _ ↦ ⟨true, .answered, true, fun _ ↦ .answered⟩⟩

theorem good_visit {addr : String} {r : ℤ} (hr : 0 ≤ r) : (goodVisit addr r).Good where
  opens := ⟨rfl, rfl⟩
  listed := rfl
  result _ h := Option.some.inj h ▸ hr
  parcels _ := ⟨⟨rfl, rfl, rfl⟩, fun _ ↦ rfl⟩

theorem round_delivers_twoGroups : ∃ t,
    [goodVisit "g1" 1, goodVisit "g2" 1].foldlM (visit ["sub".toList]) (listedHost, 0) =
      some (t, 2) ∧
    (t.group "g2".toList).dst.files.lookup (.ofC "2.afp".toList) = some "y".toList ∧
    t.host.afp.files.lookup (.ofC "2.afp".toList) = none := by
  obtain ⟨t, ht⟩ : ∃ t, [goodVisit "g1" 1, goodVisit "g2" 1].foldlM (visit ["sub".toList])
      (listedHost, 0) = some (t, 2) := ⟨_, rfl⟩
  have hgood : ∀ v ∈ [goodVisit "g1" 1, goodVisit "g2" 1], v.Good := by
    intro v hv
    rcases List.mem_pair.mp hv with rfl | rfl
    · exact good_visit (by decide)
    · exact good_visit (by decide)
  have hplain : ∀ n ∈ twoNames, Confined.Plain n.text := by
    unfold Confined.Plain
    decide
  obtain ⟨-, hdelivers⟩ := @round_delivers ["sub".toList] twoNames listedHost _ hgood
    ⟨by decide, hplain, by decide⟩ rfl
  obtain ⟨-, hhanded⟩ := hdelivers t 2 ht
  refine ⟨t, ht, ?_, ?_⟩
  · exact hhanded.taken _ _ ⟨1, _, rfl, rfl, by decide⟩
  · exact (hhanded.afp _).trans (by decide)

end Round

end FingerMove.Service.Rounds
