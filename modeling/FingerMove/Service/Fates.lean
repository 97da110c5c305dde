import FingerMove.Service.Selected

namespace FingerMove.Service.Rounds

open CText Directory Tally ProDeal Function Machine Evict

structure Unasked (f : FileName) (x y : GroupServer) : Prop where
  dst : y.dst.files.lookup f = x.dst.files.lookup f
  acked : y.acked.filter (·.1 = f) = x.acked.filter (·.1 = f)

structure Given (f : FileName) (data : Text) (x y : GroupServer) : Prop where
  dst : y.dst.files.lookup f = some data
  acked : y.acked.filter (·.1 = f) = (f, data) :: x.acked.filter (·.1 = f)

def AtMostOnce (f : FileName) (data : Text) (x y : GroupServer) : Prop :=
  Unasked f x y ∨ Given f data x y

/-- A transfer has not touched the fingerprint `f`. -/
structure Passed (f : FileName) (p p' : Progress) : Prop where
  group : Unasked f p.group p'.group
  sub : ∀ addr, (p'.sub addr).files.lookup f = (p.sub addr).files.lookup f

/-- A transfer has sent the fingerprint `f`: the group has stored it once or not at all,
and each sub cache has dropped it or not. -/
structure Sent (f : FileName) (data : Text) (p p' : Progress) : Prop where
  group : AtMostOnce f data p.group p'.group
  sub : ∀ addr, (p'.sub addr).files.lookup f = (p.sub addr).files.lookup f ∨
    (p'.sub addr).files.lookup f = none

section Transfers

variable {subs : List Text} {parcels : FileName → Parcel} {org : Folder} {x : Parcel}
variable {f g : FileName} {fs : List FileName} {data : Text} {p q p' : Progress}

theorem unasked_refl (f : FileName) (x : GroupServer) : Unasked f x x := ⟨rfl, rfl⟩

theorem Unasked.trans {x y z : GroupServer} (h : Unasked f x y) (h' : Unasked f y z) :
    Unasked f x z := ⟨h'.dst.trans h.dst, h'.acked.trans h.acked⟩

theorem Unasked.then_once {x y z : GroupServer} (h : Unasked f x y) (h' : AtMostOnce f data y z) :
    AtMostOnce f data x z :=
  h'.imp h.trans fun hg ↦ ⟨hg.dst, by rw [hg.acked, h.acked]⟩

theorem AtMostOnce.then_unasked {x y z : GroupServer} (h : AtMostOnce f data x y)
    (h' : Unasked f y z) : AtMostOnce f data x z :=
  h.imp (fun hu ↦ hu.trans h') fun hg ↦ ⟨h'.dst.trans hg.dst, h'.acked.trans hg.acked⟩

theorem passed_refl (f : FileName) (p : Progress) : Passed f p p := ⟨unasked_refl f _, fun _ ↦ rfl⟩

theorem Passed.trans (h : Passed f p q) (h' : Passed f q p') : Passed f p p' :=
  ⟨h.group.trans h'.group, fun addr ↦ (h'.sub addr).trans (h.sub addr)⟩

theorem Passed.then_sent (h : Passed f p q) (h' : Sent f data q p') : Sent f data p p' where
  group := h.group.then_once h'.group
  sub addr := h.sub addr ▸ h'.sub addr

theorem Sent.then_passed (h : Sent f data p q) (h' : Passed f q p') : Sent f data p p' where
  group := h.group.then_unasked h'.group
  sub addr := h'.sub addr ▸ h.sub addr

theorem call_delafps {d : Delivery} {afp afp' : Folder} {st : Status}
    (h : d.call (ScServer.delafps f.text) afp = some (st, afp')) (g : FileName) :
    afp'.files.lookup g = afp.files.lookup g ∨ (g = f ∧ afp'.files.lookup g = none) := by
  obtain ⟨-, rfl⟩ | ⟨st', hdel, -⟩ := call_cases h
  · exact .inl rfl
  · have hlookup := lookup_delafps hdel g
    rw [file_of_text] at hlookup
    by_cases hg : g = f
    · exact .inr ⟨hg, hlookup.trans (if_pos hg)⟩
    · exact .inl (hlookup.trans (if_neg hg))

theorem appDels_drops {dels : ℕ → Delivery} {i : ℕ} {sub sub' : Text → Folder}
    (h : McMoveClient.appDels dels f.text i subs sub = some sub') (addr : Text) (g : FileName) :
    (sub' addr).files.lookup g = (sub addr).files.lookup g ∨
      (g = f ∧ (sub' addr).files.lookup g = none) := by
  induction subs generalizing i sub with
  | nil =>
    obtain rfl := Option.some.inj h
    exact .inl rfl
  | cons a subs ih =>
    obtain ⟨⟨st, d⟩, hcall, h⟩ := Option.bind_eq_some_iff.mp h
    obtain hsame | hdropped := ih h
    · rw [hsame]
      rcases eq_or_ne addr a with rfl | ha
      · rw [update_self]
        exact call_delafps hcall g
      · rw [update_of_ne ha]
        exact .inl rfl
    · exact .inr hdropped

theorem call_afpmove {d : Delivery} {stored : Bool} {grp grp' : GroupServer} {st : Status}
    (h : d.call (GroupServer.afpmove stored ⟨f.text, data, data.length⟩) grp = some (st, grp')) :
    AtMostOnce f data grp grp' ∧ ∀ g ≠ f, Unasked g grp grp' := by
  obtain ⟨-, rfl⟩ | ⟨st', hrun, -⟩ := call_cases h
  · exact ⟨.inl (unasked_refl f _), fun g _ ↦ unasked_refl g _⟩
  · obtain ⟨⟨status, dst⟩, hstore, hrun⟩ := Option.bind_eq_some_iff.mp hrun
    obtain ⟨-, rfl⟩ := Prod.mk.inj (Option.some.inj hrun)
    have hname : FingerValue.file ⟨f.text, data, data.length⟩ = f := file_of_text f
    obtain ⟨-, rfl, rfl⟩ | ⟨-, rfl, rfl⟩ := storeFinger_cases (data_of_len rfl) hstore
    · exact ⟨.inl (unasked_refl f _), fun g _ ↦ unasked_refl g _⟩
    · rw [hname]
      constructor
      · exact .inr ⟨lookup_write_self _, by simp⟩
      · exact fun g hg ↦ ⟨lookup_write_ne hg _, by simp [hg.symm]⟩

theorem moveFile_fate (hf : org.files.lookup f = some data)
    (h : moveFile subs org x f p = some p') : Sent f data p p' ∧ ∀ g ≠ f, Passed g p p' := by
  obtain ⟨_ | req, hread, h⟩ := Option.bind_eq_some_iff.mp h
  · obtain rfl := Option.some.inj h
    exact ⟨⟨.inl (unasked_refl f _), fun _ ↦ .inl rfl⟩, fun g _ ↦ passed_refl g _⟩
  · obtain ⟨-, val, hval, rfl⟩ := readFinger_some hread
    obtain rfl : val = data := Option.some.inj (hval.symm.trans hf)
    obtain ⟨⟨st, grp⟩, hsend, h⟩ := Option.bind_eq_some_iff.mp h
    obtain ⟨sub, hdels, h⟩ := Option.bind_eq_some_iff.mp h
    obtain rfl := Option.some.inj h
    obtain ⟨hgroup, hothers⟩ := call_afpmove hsend
    refine ⟨⟨hgroup, fun addr ↦ (appDels_drops hdels addr f).imp id And.right⟩, fun g hg ↦ ?_⟩
    exact ⟨hothers g hg, fun addr ↦ (appDels_drops hdels addr g).resolve_right fun hd ↦ hg hd.1⟩

theorem moveFiles_fate (hfs : ∀ f ∈ fs, f ∈ org.files) (hnodup : fs.Nodup)
    (h : moveFiles subs parcels org fs p = some p') :
    (∀ f ∈ fs, ∃ data, org.files.lookup f = some data ∧ Sent f data p p') ∧
      ∀ f ∉ fs, Passed f p p' := by
  induction fs generalizing p with
  | nil =>
    obtain rfl := Option.some.inj h
    exact ⟨fun f hf ↦ absurd hf List.not_mem_nil, fun f _ ↦ passed_refl f _⟩
  | cons f fs ih =>
    obtain ⟨hf, hfs⟩ := List.forall_mem_cons.mp hfs
    obtain ⟨hnot, hnodup⟩ := List.nodup_cons.mp hnodup
    obtain ⟨data, hdata⟩ := Option.isSome_iff_exists.mp (AList.lookup_isSome.mpr hf)
    obtain ⟨q, hq, h⟩ := Option.bind_eq_some_iff.mp h
    obtain ⟨hsent, hpassed⟩ := moveFile_fate hdata hq
    obtain ⟨hsents, hpasseds⟩ := ih hfs hnodup h
    constructor
    · refine List.forall_mem_cons.mpr ⟨⟨data, hdata, hsent.then_passed (hpasseds f hnot)⟩, ?_⟩
      intro g hg
      obtain ⟨d, hd, hs⟩ := hsents g hg
      exact ⟨d, hd, (hpassed g fun he ↦ hnot (he ▸ hg)).then_sent hs⟩
    · intro g hg
      have hne : g ≠ f := fun he ↦ hg (he ▸ List.mem_cons_self)
      exact (hpassed g hne).trans (hpasseds g fun hmem ↦ hg (List.mem_cons_of_mem f hmem))

theorem afpMove_fate {listed : Bool} {r : ℤ}
    (h : afpMove subs parcels org listed p = some (r, p')) :
    (∀ f ∈ org.files, ∃ data, org.files.lookup f = some data ∧ Sent f data p p') ∧
      ∀ f ∉ org.files, Passed f p p' := by
  cases listed with
  | false =>
    obtain ⟨-, rfl⟩ := Prod.mk.inj (Option.some.inj h)
    refine ⟨fun f hf ↦ ?_, fun f _ ↦ passed_refl f _⟩
    obtain ⟨data, hdata⟩ := Option.isSome_iff_exists.mp (AList.lookup_isSome.mpr hf)
    exact ⟨data, hdata, .inl (unasked_refl f _), fun _ ↦ .inl rfl⟩
  | true =>
    obtain ⟨q, hq, h⟩ := Option.bind_eq_some_iff.mp h
    obtain ⟨-, rfl⟩ := Prod.mk.inj (Option.some.inj h)
    exact moveFiles_fate (fun f hf ↦ AList.mem_keys.mpr hf) org.files.nodupKeys hq

end Transfers

/-- ORG_DIR is emptied and filled anew before it is sent. -/
def Visit.Emptied (v : Visit) : Prop := v.listed = true → v.mov.call 0 = true

theorem visit_cases {g_sublist : List Text} {s t : RunLoop.State} {v : Visit} {n m : ℤ}
    (hv : v.Emptied) (h : visit g_sublist (s, n) v = some (t, m)) :
    t = s ∨ ∃ (ns : List FileName) (afp org : Folder) (r : ℤ) (p : Progress),
      ns.length ≤ v.share ∧ afp.files = (moveAll ns s.host.afp.files ∅).1 ∧
      org.files = (moveAll ns s.host.afp.files ∅).2 ∧
      afpMove g_sublist v.parcels org v.listed ⟨s.group v.addr, s.sub, []⟩ = some (r, p) ∧
      t = { s with
        host := { s.host with afp, org }
        group := update s.group v.addr p.group
        sub := p.sub } := by
  cases hr : v.result with
  | none =>
    rw [visit_failed hr] at h
    exact .inl (Prod.mk.inj (Option.some.inj h)).1.symm
  | some r =>
    unfold visit at h
    simp only [hr] at h
    obtain ⟨⟨code, afp, org⟩, hmov, h⟩ := Option.bind_eq_some_iff.mp h
    obtain ⟨⟨r', p⟩, hmove, h⟩ := Option.bind_eq_some_iff.mp h
    obtain ⟨rfl, -⟩ := Prod.mk.inj (Option.some.inj h)
    obtain ⟨hclosed, -, rfl, rfl⟩ | ⟨-, ns, hafp, horg, hread⟩ := movFiles_cases hmov
    · -- ORG_DIR cannot be opened, neither to empty it nor to send it
      left
      have hlisted : v.listed = false := by
        rw [← Bool.not_eq_true]
        exact fun hl ↦ absurd (hv hl) (by simp [hclosed])
      rw [hlisted] at hmove
      obtain ⟨-, rfl⟩ := Prod.mk.inj (Option.some.inj hmove)
      rw [update_eq_self]
    · refine .inr ⟨ns, afp, org, r', p, ?_, hafp, horg, hmove, rfl⟩
      have hshare : v.share = r.toNat := by rw [Visit.share, hr, Option.getD_some]
      obtain ⟨-, rfl, -⟩ | ⟨-, -, names, -, hns⟩ := hread
      · exact Nat.zero_le _
      · have hwindow := length_window n r 0 (reads MAX_LINE_LEN names)
        rw [length_mapM hns, hshare]
        omega

section Lift

variable {σ : Sorter (Text × ℕ)} {CACHE_LIMIT : ℕ} {g_sublist : List Text}
variable {R : List Visit → RunLoop.State → RunLoop.State → Prop} {s t : RunLoop.State}

theorem rounds_lift {days : List Day}
    (hlists : ∀ (vs : List Visit) (s : RunLoop.State) (host : Host), host.afp = s.host.afp →
      R vs s { s with host })
    (htrans : ∀ {vs ws : List Visit} {s u t : RunLoop.State}, R vs s u → R ws u t →
      R (vs ++ ws) s t)
    (hvisit : ∀ {v : Visit} {s t : RunLoop.State} {n m : ℤ}, v.Emptied →
      visit g_sublist (s, n) v = some (t, m) → R [v] s t)
    (hdays : ∀ d ∈ days, ∀ v ∈ d.visits, v.Emptied)
    (h : rounds σ CACHE_LIMIT g_sublist days s = some t) : R (days.flatMap Day.visits) s t := by
  have hvisits : ∀ {vs : List Visit}, (∀ v ∈ vs, v.Emptied) → ∀ {s t : RunLoop.State} {n m : ℤ},
      vs.foldlM (visit g_sublist) (s, n) = some (t, m) → R vs s t := by
    intro vs hvs s t n m h
    induction vs generalizing s n with
    | nil =>
      obtain ⟨rfl, -⟩ := Prod.mk.inj (Option.some.inj h)
      exact hlists [] s s.host rfl
    | cons v vs ih =>
      obtain ⟨hv, hvs⟩ := List.forall_mem_cons.mp hvs
      obtain ⟨⟨u, k⟩, hu, h⟩ := Option.bind_eq_some_iff.mp h
      exact htrans (hvisit hv hu) (ih hvs h)
  have hround : ∀ {d : Day}, (∀ v ∈ d.visits, v.Emptied) → ∀ {s t : RunLoop.State},
      round σ CACHE_LIMIT g_sublist s d = some t → R d.visits s t := by
    intro d hd s t h
    unfold Rounds.round at h
    split at h
    · obtain rfl := Option.some.inj h
      exact hlists d.visits s s.host rfl
    obtain ⟨⟨thr, host⟩, hprepare, h⟩ := Option.bind_eq_some_iff.mp h
    obtain ⟨hafp, -⟩ := RunLoop.prepare_keeps hprepare
    by_cases hthr : thr = -1
    · simp only [hthr, if_true] at h
      obtain rfl := Option.some.inj h
      exact hlists d.visits s host hafp
    · simp only [hthr, if_false] at h
      obtain ⟨⟨u, m⟩, hrun, h⟩ := Option.bind_eq_some_iff.mp h
      obtain rfl := Option.some.inj h
      exact htrans (hlists [] s host hafp) (hvisits hd hrun)
  unfold rounds at h
  induction days generalizing s with
  | nil =>
    obtain rfl := Option.some.inj h
    exact hlists [] s s.host rfl
  | cons d days ih =>
    obtain ⟨hd, hdays⟩ := List.forall_mem_cons.mp hdays
    obtain ⟨u, hu, h⟩ := Option.bind_eq_some_iff.mp h
    rw [List.flatMap_cons]
    exact htrans (hround hd hu) (ih hdays h)

end Lift

structure Untouched (f : FileName) (s t : RunLoop.State) : Prop where
  afp : t.host.afp.files.lookup f = s.host.afp.files.lookup f
  group : ∀ addr, Unasked f (s.group addr) (t.group addr)
  sub : ∀ addr, (t.sub addr).files.lookup f = (s.sub addr).files.lookup f

/-- The fingerprint `f` has left AFP_DIR for one group, which has stored what AFP_DIR had of
it once or not at all. -/
structure GivenAway (f : FileName) (s t : RunLoop.State) : Prop where
  gone : t.host.afp.files.lookup f = none
  once : ∃ addr data, s.host.afp.files.lookup f = some data ∧
    AtMostOnce f data (s.group addr) (t.group addr) ∧
    ∀ a ≠ addr, Unasked f (s.group a) (t.group a)
  sub : ∀ addr, (t.sub addr).files.lookup f = (s.sub addr).files.lookup f ∨
    (t.sub addr).files.lookup f = none

section Fates

variable {σ : Sorter (Text × ℕ)} {CACHE_LIMIT : ℕ} {g_sublist : List Text}
variable {s t u : RunLoop.State} {f : FileName} {v : Visit} {vs : List Visit} {n m : ℤ}

def Fate (f : FileName) (s t : RunLoop.State) : Prop := Untouched f s t ∨ GivenAway f s t

theorem untouched_refl (f : FileName) (s : RunLoop.State) : Untouched f s s :=
  ⟨rfl, fun _ ↦ unasked_refl f _, fun _ ↦ rfl⟩

theorem Fate.trans (h : Fate f s u) (h' : Fate f u t) : Fate f s t := by
  rcases h with h | h
  · rcases h' with h' | h'
    · exact .inl ⟨h'.afp.trans h.afp, fun addr ↦ (h.group addr).trans (h'.group addr),
        fun addr ↦ (h'.sub addr).trans (h.sub addr)⟩
    · obtain ⟨addr, data, hdata, hgroup, hothers⟩ := h'.once
      exact .inr ⟨h'.gone, ⟨addr, data, h.afp ▸ hdata, (h.group addr).then_once hgroup,
        fun a ha ↦ (h.group a).trans (hothers a ha)⟩, fun a ↦ h.sub a ▸ h'.sub a⟩
  · rcases h' with h' | h'
    · obtain ⟨addr, data, hdata, hgroup, hothers⟩ := h.once
      exact .inr ⟨h'.afp.trans h.gone, ⟨addr, data, hdata, hgroup.then_unasked (h'.group addr),
        fun a ha ↦ (hothers a ha).trans (h'.group a)⟩, fun a ↦ h'.sub a ▸ h.sub a⟩
    · obtain ⟨_, _, hdata, -⟩ := h'.once
      rw [h.gone] at hdata
      cases hdata

theorem transfer_fate {ns : List FileName} {afp org : Folder} {p : Progress} {r : ℤ}
    (hafp : afp.files = (moveAll ns s.host.afp.files ∅).1)
    (horg : org.files = (moveAll ns s.host.afp.files ∅).2)
    (h : afpMove g_sublist v.parcels org v.listed ⟨s.group v.addr, s.sub, []⟩ = some (r, p))
    (f : FileName) : Fate f s { s with
      host := { s.host with afp, org }
      group := (update s.group v.addr p.group)
      sub := p.sub } := by
  obtain ⟨hsent, hpassed⟩ := afpMove_fate h
  have hleft : afp.files.lookup f = if f ∈ ns then none else s.host.afp.files.lookup f := by
    rw [hafp, lookup_moveAll_fst]
  have hmem : f ∈ org.files ↔ f ∈ ns ∧ f ∈ s.host.afp.files := by
    rw [horg, mem_moveAll_snd]
  have hothers : ∀ a ≠ v.addr, Unasked f (s.group a) (update s.group v.addr p.group a) := by
    intro a ha
    rw [update_of_ne ha]
    exact unasked_refl f _
  by_cases hf : f ∈ org.files
  · obtain ⟨data, hdata, hgroup, hsub⟩ := hsent f hf
    rw [horg, lookup_moveAll_snd, if_pos (hmem.mp hf)] at hdata
    refine .inr ⟨hleft.trans (if_pos (hmem.mp hf).1), ⟨v.addr, data, hdata, ?_, hothers⟩, hsub⟩
    change AtMostOnce f data _ (update s.group v.addr p.group v.addr)
    rw [update_self]
    exact hgroup
  · obtain ⟨hgroup, hsub⟩ := hpassed f hf
    refine .inl ⟨?_, fun a ↦ ?_, hsub⟩
    · refine hleft.trans (ite_eq_right_iff.mpr fun hns ↦ ?_)
      exact (AList.lookup_eq_none.mpr fun hin ↦ hf (hmem.mpr ⟨hns, hin⟩)).symm
    · rcases eq_or_ne a v.addr with rfl | ha
      · change Unasked f _ (update s.group v.addr p.group v.addr)
        rw [update_self]
        exact hgroup
      · exact hothers a ha

theorem visit_fate (hv : v.Emptied)
    (h : visit g_sublist (s, n) v = some (t, m)) (f : FileName) : Fate f s t := by
  obtain rfl | ⟨ns, afp, org, r, p, -, hafp, horg, hmove, rfl⟩ := visit_cases hv h
  · exact .inl (untouched_refl f _)
  · exact transfer_fate hafp horg hmove f

/-- Over any number of days, whatever RPCs and files fail, nobody touches a fingerprint
unless it leaves AFP_DIR, and then at most one group gets it, at most once, as it was
there. Only an ORG_DIR that is sent but not emptied before could reach two groups. -/
theorem given_once {days : List Day}
    (hdays : ∀ d ∈ days, ∀ v ∈ d.visits, v.Emptied)
    (h : rounds σ CACHE_LIMIT g_sublist days s = some t) (f : FileName) :
    Untouched f s t ∨ GivenAway f s t := by
  refine rounds_lift (R := fun _ ↦ Fate f) ?_ ?_ ?_ hdays h
  · intro _ s host hafp
    refine .inl ⟨?_, fun _ ↦ unasked_refl f _, fun _ ↦ rfl⟩
    exact congrArg (fun d : Folder ↦ d.files.lookup f) hafp
  · exact fun hsu hut ↦ hsu.trans hut
  · exact fun hv hvisit ↦ visit_fate hv hvisit f

theorem given_once_searchedDay : ∃ t,
    rounds (insertion _) 5 ["sub".toList] [searchedDay] listedHost = some t ∧
      GivenAway (.ofC "1.afp".toList) listedHost t ∧
      Untouched (.ofC "2.afp".toList) listedHost t := by
  obtain ⟨t, h, hone, htwo⟩ : ∃ t,
      rounds (insertion _) 5 ["sub".toList] [searchedDay] listedHost = some t ∧
        t.host.afp.files.lookup (.ofC "1.afp".toList) = none ∧
        t.host.afp.files.lookup (.ofC "2.afp".toList) = some "y".toList := ⟨_, rfl, rfl, rfl⟩
  have hdays : ∀ d ∈ [searchedDay], ∀ v ∈ d.visits, v.Emptied :=
    List.forall_mem_singleton.mpr (List.forall_mem_singleton.mpr fun _ ↦ rfl)
  refine ⟨t, h, (given_once hdays h _).resolve_left fun hu ↦ ?_,
    (given_once hdays h _).resolve_right fun hg ↦ ?_⟩
  · exact absurd (hone.symm.trans hu.afp) (by decide)
  · exact absurd (htwo.symm.trans hg.gone) (by simp)

def resentDay : Day :=
  { searchedDay with visits :=
    [goodVisit "g1" 1, { goodVisit "g2" 1 with mov := ⟨fun _ ↦ false, fun _ ↦ true⟩ }] }

theorem given_twice : ∃ t,
    rounds (insertion _) 5 ["sub".toList] [resentDay] listedHost = some t ∧
      (t.group "g1".toList).dst.files.lookup (.ofC "1.afp".toList) = some "x".toList ∧
      (t.group "g2".toList).dst.files.lookup (.ofC "1.afp".toList) = some "x".toList :=
  ⟨_, rfl, rfl, rfl⟩

end Fates

def asked (vs : List Visit) (addr : Text) : ℕ := (shares (vs.filter (·.addr = addr))).sum

/-- Between `s` and `t` AFP_DIR has lost no more files than the visits `vs` asked for, and each
group has stored no more than it asked for itself. -/
structure Spent (vs : List Visit) (s t : RunLoop.State) : Prop where
  afp : s.host.afp.files.keys.length ≤ t.host.afp.files.keys.length + (shares vs).sum
  group : ∀ addr, (t.group addr).acked.length ≤ (s.group addr).acked.length + asked vs addr

section Quota

variable {σ : Sorter (Text × ℕ)} {CACHE_LIMIT : ℕ} {g_sublist : List Text}
variable {s t u : RunLoop.State} {v : Visit} {vs ws : List Visit} {n m : ℤ}
variable {parcels : FileName → Parcel} {org : Folder} {fs : List FileName} {p p' : Progress}

theorem shares_append (vs ws : List Visit) :
    (shares (vs ++ ws)).sum = (shares vs).sum + (shares ws).sum := by
  rw [shares, List.map_append, List.sum_append]
  rfl

theorem spent_of_same (vs : List Visit) (hafp : t.host.afp = s.host.afp)
    (hgroup : t.group = s.group) : Spent vs s t := by
  refine ⟨?_, fun addr ↦ ?_⟩
  · rw [hafp]
    exact Nat.le_add_right _ _
  · rw [hgroup]
    exact Nat.le_add_right _ _

theorem Spent.trans (h : Spent vs s u) (h' : Spent ws u t) : Spent (vs ++ ws) s t := by
  refine ⟨?_, fun addr ↦ ?_⟩
  · have hsum := shares_append vs ws
    have hfirst := h.afp
    have hsecond := h'.afp
    omega
  · have hsum : asked (vs ++ ws) addr = asked vs addr + asked ws addr := by
      rw [asked, List.filter_append, shares_append]
      rfl
    have hfirst := h.group addr
    have hsecond := h'.group addr
    omega

theorem moveFiles_acked (h : moveFiles g_sublist parcels org fs p = some p') :
    p'.group.acked.length ≤ p.group.acked.length + fs.length := by
  induction fs generalizing p with
  | nil =>
    obtain rfl := Option.some.inj h
    exact le_rfl
  | cons f fs ih =>
    obtain ⟨q, hq, h⟩ := Option.bind_eq_some_iff.mp h
    have hrest := ih h
    have hfirst : q.group.acked.length ≤ p.group.acked.length + 1 := by
      obtain ⟨_ | req, -, hq⟩ := Option.bind_eq_some_iff.mp hq
      · obtain rfl := Option.some.inj hq
        exact Nat.le_succ _
      · obtain ⟨⟨st, grp⟩, hsend, hq⟩ := Option.bind_eq_some_iff.mp hq
        obtain ⟨sub, -, hq⟩ := Option.bind_eq_some_iff.mp hq
        obtain rfl := Option.some.inj hq
        obtain ⟨-, rfl⟩ | ⟨st', hrun, -⟩ := call_cases hsend
        · exact Nat.le_succ _
        · obtain ⟨⟨status, dst⟩, -, hrun⟩ := Option.bind_eq_some_iff.mp hrun
          obtain ⟨-, rfl⟩ := Prod.mk.inj (Option.some.inj hrun)
          change (ite _ _ _ : List _).length ≤ _
          split
          · exact le_rfl
          · exact Nat.le_succ _
    rw [List.length_cons]
    omega

theorem afpMove_acked {listed : Bool} {r : ℤ}
    (h : afpMove g_sublist parcels org listed p = some (r, p')) :
    p'.group.acked.length ≤ p.group.acked.length + org.files.keys.length := by
  cases listed with
  | false =>
    obtain ⟨-, rfl⟩ := Prod.mk.inj (Option.some.inj h)
    exact Nat.le_add_right _ _
  | true =>
    obtain ⟨q, hq, h⟩ := Option.bind_eq_some_iff.mp h
    obtain ⟨-, rfl⟩ := Prod.mk.inj (Option.some.inj h)
    exact moveFiles_acked hq

theorem visit_spent (hv : v.Emptied)
    (h : visit g_sublist (s, n) v = some (t, m)) : Spent [v] s t := by
  obtain rfl | ⟨ns, afp, org, r, p, hlength, hafp, horg, hmove, rfl⟩ := visit_cases hv h
  · exact spent_of_same _ rfl rfl
  · have hkeys : org.files.keys.length ≤ ns.length := by
      rw [horg, (keys_moveAll ns s.host.afp.files).length_eq]
      exact (List.length_filter_le _ _).trans (List.dedup_sublist ns).length_le
    have hleft : s.host.afp.files.keys ⊆ afp.files.keys ++ ns := by
      intro f hf
      by_cases hmem : f ∈ ns
      · exact List.mem_append_right _ hmem
      · refine List.mem_append_left _ ?_
        rw [← AList.mem_keys, ← AList.lookup_isSome] at hf ⊢
        rwa [hafp, lookup_moveAll_fst, if_neg hmem]
    refine ⟨?_, fun addr ↦ ?_⟩
    · have hle := (List.subperm_of_subset s.host.afp.files.keys_nodup hleft).length_le
      rw [List.length_append] at hle
      have hsum : (shares [v]).sum = v.share := List.sum_singleton
      change _ ≤ afp.files.keys.length + _
      omega
    · change (update s.group v.addr p.group addr).acked.length ≤ _
      rcases eq_or_ne addr v.addr with rfl | ha
      · have hasked : asked [v] v.addr = v.share := by simp [asked, shares]
        have hstored := afpMove_acked hmove
        rw [update_self, hasked]
        dsimp only at hstored
        omega
      · rw [update_of_ne ha]
        exact Nat.le_add_right _ _

/-- The bottom list of the day names files of AFP_DIR itself, and ORG_DIR is emptied before
it is sent. -/
structure Day.Proper (σ : Sorter (Text × ℕ)) (CACHE_LIMIT : ℕ) (s : RunLoop.State) (d : Day) :
    Prop where
  emptied : ∀ v ∈ d.visits, v.Emptied
  plain : ∀ thr host bots, RunLoop.prepare σ CACHE_LIMIT d.round d.dat s.host = some (thr, host) →
    host.wrk.files.lookup botAfpsFile = some bots → Confined.PlainLines bots

/-- Over any number of days, whatever RPCs and opens fail, AFP_DIR gives away no more files
than the groups have asked for, and no group stores more than it has asked for itself. -/
theorem quota_kept {days : List Day}
    (hdays : EachStep (round σ CACHE_LIMIT g_sublist) (Day.Proper σ CACHE_LIMIT) s days)
    (h : rounds σ CACHE_LIMIT g_sublist days s = some t) :
    s.host.afp.files.keys.length ≤
        t.host.afp.files.keys.length + (shares (days.flatMap Day.visits)).sum ∧
      ∀ addr, (t.group addr).acked.length ≤
        (s.group addr).acked.length + asked (days.flatMap Day.visits) addr := by
  have hemptied : ∀ d ∈ days, ∀ v ∈ d.visits, v.Emptied := by
    intro d hd
    obtain ⟨u, hu⟩ := hdays.of_mem (rounds_eq_exec days s ▸ h) hd
    exact hu.emptied
  have hspent : Spent (days.flatMap Day.visits) s t := by
    refine rounds_lift (R := Spent) ?_ ?_ ?_ hemptied h
    · exact fun vs s host hafp ↦ spent_of_same vs hafp rfl
    · exact fun hsu hut ↦ hsu.trans hut
    · exact fun hv hvisit ↦ visit_spent hv hvisit
  exact ⟨hspent.afp, hspent.group⟩

theorem quota_kept_searchedDay : ∃ t,
    rounds (insertion _) 5 ["sub".toList] [searchedDay] listedHost = some t ∧
      2 ≤ t.host.afp.files.keys.length + 2 ∧ (t.group "g1".toList).acked.length ≤ 2 := by
  obtain ⟨t, h⟩ : ∃ t,
    rounds (insertion _) 5 ["sub".toList] [searchedDay] listedHost = some t := ⟨_, rfl⟩
  have hlisted : Listed [.ofC "1.afp".toList, .ofC "2".toList] := by
    refine ⟨by decide, ?_, by decide⟩
    unfold Confined.Plain
    decide
  have hproper : searchedDay.Proper (insertion _) 5 listedHost := by
    refine ⟨List.forall_mem_singleton.mpr fun _ ↦ rfl, ?_⟩
    intro thr host bots hprepare hbots
    obtain ⟨_, _, hprepare', hbots'⟩ : ∃ thr' host', RunLoop.prepare (insertion _) 5
      searchedDay.round searchedDay.dat listedHost.host = some (thr', host') ∧
        host'.wrk.files.lookup botAfpsFile = some "1.afp\n2\n".toList := ⟨_, _, rfl, rfl⟩
    obtain ⟨-, rfl⟩ := Prod.mk.inj (Option.some.inj (hprepare.symm.trans hprepare'))
    exact Option.some.inj (hbots'.symm.trans hbots) ▸ hlisted.plainLines
  have hdays : EachStep (round (insertion _) 5 ["sub".toList])
      (Day.Proper (insertion _) 5) listedHost [searchedDay] := fun _ _ ↦ ⟨hproper, trivial⟩
  obtain ⟨hafp, hgroup⟩ := quota_kept hdays h
  exact ⟨t, h, hafp, hgroup "g1".toList⟩

end Quota

end FingerMove.Service.Rounds
