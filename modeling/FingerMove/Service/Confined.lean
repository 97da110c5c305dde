import FingerMove.Service.Disk

namespace FingerMove.Service.Confined

open CText FileTree ProDeal Function

section Stays

variable {δ : Type} {dir name : Text} {s : Disk δ}

def Stays (dir : Text) (s s' : Disk δ) : Prop :=
  ∃ ps, s'.touched = s.touched ++ ps ∧ (∀ p ∈ ps, s.resolve dir = some p.1) ∧
    ∀ p ∉ ps, s'.tree.node p = s.tree.node p

/-- A handler that refuses a request or acts in the directory only. -/
def Confines (dir : Text) (handler : Disk δ → Option (Status × Disk δ)) (s : Disk δ) : Prop :=
  ∃ st s', handler s = some (st, s') ∧
    ((st = .cancelled ∧ s' = s) ∨ (s'.touched ≠ s.touched ∧ Stays dir s s'))

/-- The leading components of a name, whose file can be opened, lead back to the directory. -/
def ComesBack (s : Disk δ) (dir name : Text) : Prop :=
  ∀ d p, s.resolve dir = some d → aim s dir name = some p →
    s.tree.walk d (components (cstr name)).dropLast = some d

theorem aim_walk {d : δ} {p : δ × Text} (hd : s.resolve dir = some d)
    (hp : aim s dir name = some p) :
    s.tree.walk d (components (cstr name)).dropLast = some p.1 := by
  rw [aim, hd, Option.bind_some] at hp
  exact Tree.walk_of_entry (Tree.creates_eq_some_iff.mp hp).1

theorem comesBack_iff : ComesBack s dir name ↔
    ∀ p, aim s dir name = some p → s.resolve dir = some p.1 := by
  constructor
  · intro h p hp
    obtain ⟨d, hd, -⟩ := Option.bind_eq_some_iff.mp hp
    rw [hd, ← aim_walk hd hp]
    exact (h d p hd hp).symm
  · intro h d p hd hp
    rw [aim_walk hd hp, ← h p hp, hd]

theorem Stays.refl (dir : Text) (s : Disk δ) : Stays dir s s :=
  ⟨[], (List.append_nil _).symm, fun _ hp ↦ absurd hp List.not_mem_nil,
    fun _ _ ↦ rfl⟩

theorem Stays.trans {s' s'' : Disk δ} (h : Stays dir s s') (h' : Stays dir s' s'')
    (hsame : s'.resolve dir = s.resolve dir) : Stays dir s s'' := by
  obtain ⟨ps, hps, hin, hframe⟩ := h
  obtain ⟨qs, hqs, hin', hframe'⟩ := h'
  refine ⟨ps ++ qs, by rw [hqs, hps, List.append_assoc], ?_, ?_⟩
  · intro p hp
    rcases List.mem_append.mp hp with hp | hp
    · exact hin p hp
    · exact hsame ▸ hin' p hp
  · intro p hp
    rw [List.mem_append, not_or] at hp
    rw [hframe' p hp.2, hframe p hp.1]

theorem Stays.resolve {s' : Disk δ} {p : δ × Text} (h : Stays dir s s')
    (hp : s'.touched = s.touched ++ [p]) : s.resolve dir = some p.1 := by
  obtain ⟨ps, hps, hin, -⟩ := h
  rw [hp, List.append_right_inj] at hps
  exact hin p (hps ▸ List.mem_singleton.mpr rfl)

/-- A name without components is that of AFP_DIR itself, which `remove` takes
if it is empty. -/
def Removable (s : Disk δ) (dir name : Text) : Prop :=
  if components (cstr name) = [] then
    s.tree.removes (s.start (dir ++ ['/'])) (components dir) true = none
  else ∀ d p, s.resolve dir = some d →
    s.tree.removes d (components (cstr name)) (slash (cstr name)) = some p →
      s.tree.walk d (components (cstr name)).dropLast = some d

theorem removable_iff : Removable s dir name ↔
    ∀ p, s.removes (dir ++ '/' :: cstr name) = some p → s.resolve dir = some p.1 := by
  unfold Removable
  split
  · next hnone =>
    rw [removes_dir hnone, Option.eq_none_iff_forall_ne_some]
    refine forall_congr' fun p ↦ ?_
    constructor
    · exact fun h he ↦ absurd he h
    · intro h he
      obtain ⟨hentry, ⟨e, hnode, hempty⟩ | ⟨-, hslash⟩⟩ := Tree.removes_eq_some_iff.mp he
      · -- the directory would list itself, and be empty
        have hself : s.resolve dir = some e := Tree.walk_of_entry_dir hentry hnode
        obtain rfl : e = p.1 := Option.some.inj (hself.symm.trans (h he))
        have hkey : p.2 ∈ (s.tree.entries p.1).keys :=
          AList.lookup_isSome.mp (Option.isSome_iff_exists.mpr ⟨_, hnode⟩)
        rw [hempty] at hkey
        cases hkey
      · cases hslash
  · next hsome =>
    rw [removes_path hsome]
    constructor
    · intro h p hp
      obtain ⟨d, hd, hp⟩ := Option.bind_eq_some_iff.mp hp
      rw [hd, ← Tree.walk_of_entry (Tree.removes_eq_some_iff.mp hp).1]
      exact (h d p hd hp).symm
    · intro h d p hd hp
      have hp' := h p (Option.bind_eq_some_iff.mpr ⟨d, hd, hp⟩)
      rw [Tree.walk_of_entry (Tree.removes_eq_some_iff.mp hp).1, ← hp', hd]

end Stays

section Hosts

variable {δ : Type} {DST_DIR : Option Text → Text} {name : Text} {w v v' v'' : Caches δ}
variable {subs : List Text}

def Holds (DST_DIR : Option Text → Text) (name : Text) (w : Caches δ) (host : Option Text) : Prop :=
  Fits (DST_DIR host) name ∧ ComesBack (w host) (DST_DIR host) name

def Takes (DST_DIR : Option Text → Text) (name : Text) (w : Caches δ) (host : Option Text) : Prop :=
  (aim (w host) (DST_DIR host) name).isSome

/-- The hosts that a request comes to one after another, up to the first that
cannot open it, all hold the name. -/
def HoldsOnTheWay (DST_DIR : Option Text → Text) (name : Text) (w : Caches δ) :
    List Text → Prop
  | [] => True
  | addr :: subs => Holds DST_DIR name w (some addr) ∧ (Takes DST_DIR name w (some addr) →
      Holds DST_DIR name w none ∧
        (Takes DST_DIR name w none → HoldsOnTheWay DST_DIR name w subs))

def SamePaths (s s' : Disk δ) : Prop :=
  ∀ dir, s'.resolve dir = s.resolve dir ∧ ∀ name, aim s' dir name = aim s dir name

structure Grown (DST_DIR : Option Text → Text) (w v : Caches δ) : Prop where
  stays : ∀ host, Stays (DST_DIR host) (w host) (v host)
  paths : ∀ host, SamePaths (w host) (v host)

theorem Grown.refl (DST_DIR : Option Text → Text) (w : Caches δ) : Grown DST_DIR w w :=
  ⟨fun _ ↦ Stays.refl _ _, fun _ _ ↦ ⟨rfl, fun _ ↦ rfl⟩⟩

theorem Grown.trans (h : Grown DST_DIR w v) (h' : Grown DST_DIR v v') : Grown DST_DIR w v' where
  stays host := (h.stays host).trans (h'.stays host) (h.paths host _).1
  paths host dir := by
    obtain ⟨hresolve, haim⟩ := h.paths host dir
    obtain ⟨hresolve', haim'⟩ := h'.paths host dir
    exact ⟨hresolve'.trans hresolve, fun name ↦ (haim' name).trans (haim name)⟩

theorem Grown.update {host : Option Text} {s : Disk δ}
    (h : Stays (DST_DIR host) (v host) s) (hpaths : SamePaths (v host) s) :
    Grown DST_DIR v (update v host s) := by
  constructor
  · intro h'
    rcases eq_or_ne h' host with rfl | hne
    · rwa [update_self]
    · rw [update_of_ne hne]
      exact Stays.refl _ _
  · intro h'
    rcases eq_or_ne h' host with rfl | hne
    · rwa [update_self]
    · rw [update_of_ne hne]
      exact fun _ ↦ ⟨rfl, fun _ ↦ rfl⟩

theorem Grown.holds (h : Grown DST_DIR w v) (host : Option Text) :
    (Holds DST_DIR name v host ↔ Holds DST_DIR name w host) ∧
      (Takes DST_DIR name v host ↔ Takes DST_DIR name w host) := by
  obtain ⟨hresolve, haim⟩ := h.paths host (DST_DIR host)
  simp only [Holds, Takes, comesBack_iff, hresolve, haim, and_self]

theorem Grown.way (h : Grown DST_DIR w v) (subs : List Text) :
    HoldsOnTheWay DST_DIR name v subs ↔ HoldsOnTheWay DST_DIR name w subs := by
  induction subs with
  | nil => rfl
  | cons addr subs ih => simp only [HoldsOnTheWay, h.holds, ih]

theorem Grown.touched_prefix (h : Grown DST_DIR w v) (host : Option Text) :
    (w host).touched <+: (v host).touched := by
  obtain ⟨ps, hps, -⟩ := h.stays host
  exact ⟨ps, hps.symm⟩

def Acted (DST_DIR : Option Text → Text) (v v' : Caches δ) : Prop :=
  ∀ host ps, (v' host).touched = (v host).touched ++ ps →
    ∀ p ∈ ps, (v host).resolve (DST_DIR host) = some p.1

theorem Stays.acted (h : ∀ host, Stays (DST_DIR host) (v host) (v' host)) :
    Acted DST_DIR v v' := by
  intro host ps hps
  obtain ⟨qs, hqs, hin, -⟩ := h host
  rw [hps, List.append_right_inj] at hqs
  exact hqs ▸ hin

theorem Acted.rest (h : Acted DST_DIR v v'') (hgrown : Grown DST_DIR v v') :
    Acted DST_DIR v' v'' := by
  intro host ps hps p hp
  obtain ⟨qs, hqs, -⟩ := hgrown.stays host
  rw [(hgrown.paths host _).1]
  refine h host (qs ++ ps) ?_ p (List.mem_append_right qs hp)
  rw [hps, hqs, List.append_assoc]

end Hosts

section Single

variable {δ : Type} [DecidableEq δ] {dir name data : Text} {opened : Bool} {s : Disk δ}

theorem stays_fwrite {p : δ × Text} (h : s.resolve dir = some p.1) (data : Text) :
    Stays dir s (s.fwrite p data) := by
  refine ⟨[p], rfl, fun q hq ↦ List.mem_singleton.mp hq ▸ h, ?_⟩
  intro q hq
  exact (Tree.node_write s.tree p q data).trans (if_neg fun he ↦ hq (List.mem_singleton.mpr he))

theorem stays_erase {p : δ × Text} (h : s.resolve dir = some p.1) :
    Stays dir s { s with tree := s.tree.erase p, touched := s.touched ++ [p] } := by
  refine ⟨[p], rfl, fun q hq ↦ List.mem_singleton.mp hq ▸ h, ?_⟩
  intro q hq
  exact (Tree.node_erase s.tree p q).trans (if_neg fun he ↦ hq (List.mem_singleton.mpr he))

theorem storeName_confines_iff (dir name : Text) (s : Disk δ) :
    (∀ opened data, Confines dir (storeName dir opened name data) s) ↔
      Fits dir name ∧ ComesBack s dir name := by
  rw [comesBack_iff]
  constructor
  · intro h
    obtain ⟨st, s', hs, hcase⟩ := h true []
    have hfits : Fits dir name := by
      by_contra hfits
      rw [storeName_overflow hfits] at hs
      cases hs
    refine ⟨hfits, ?_⟩
    intro p hp
    rw [storeName_of_fits hfits, if_pos rfl, hp] at hs
    obtain ⟨rfl, rfl⟩ := Prod.mk.inj (Option.some.inj hs)
    obtain ⟨hst, -⟩ | ⟨-, hstays⟩ := hcase
    · cases hst
    · exact hstays.resolve rfl
  · intro h opened data
    obtain ⟨hfits, hback⟩ := h
    unfold Confines
    rw [storeName_of_fits hfits]
    cases opened with
    | false => exact ⟨.cancelled, s, rfl, .inl ⟨rfl, rfl⟩⟩
    | true =>
      cases hp : aim s dir name with
      | none => exact ⟨.cancelled, s, rfl, .inl ⟨rfl, rfl⟩⟩
      | some p =>
        refine ⟨.ok, s.fwrite p data, rfl, .inr ⟨?_, stays_fwrite (hback p hp) data⟩⟩
        exact fun he ↦ List.cons_ne_nil p [] (List.append_right_eq_self.mp he)

theorem plain_confined (hfits : Fits dir name) (hname : Plain (cstr name)) (opened : Bool)
    (data : Text) (s : Disk δ) : Confines dir (storeName dir opened name data) s := by
  refine (storeName_confines_iff dir name s).mpr ⟨hfits, fun d p _ _ ↦ ?_⟩ opened data
  rw [components_plain hname]
  rfl

theorem delafps_confines_iff (dir name : Text) (s : Disk δ) :
    (∀ allowed, Confines dir (ScServer.delafps dir allowed name) s) ↔
      Fits dir name ∧ Removable s dir name := by
  rw [removable_iff]
  constructor
  · intro h
    obtain ⟨st, s', hs, hcase⟩ := h true
    have hfits : Fits dir name := by
      by_contra hfits
      have hpath : sprintf MAX_NAME_LEN (dir ++ '/' :: cstr name) = none := if_neg hfits
      rw [ScServer.delafps, hpath] at hs
      cases hs
    refine ⟨hfits, ?_⟩
    intro p hp
    rw [delafps_of_fits hfits, Disk.remove, hp] at hs
    obtain ⟨rfl, rfl⟩ := Prod.mk.inj (Option.some.inj hs)
    obtain ⟨hst, -⟩ | ⟨-, hstays⟩ := hcase
    · cases hst
    · exact hstays.resolve rfl
  · intro h allowed
    obtain ⟨hfits, hback⟩ := h
    unfold Confines
    rw [delafps_of_fits hfits]
    cases allowed with
    | false => exact ⟨.cancelled, s, rfl, .inl ⟨rfl, rfl⟩⟩
    | true =>
      cases hp : s.removes (dir ++ '/' :: cstr name) with
      | none =>
        refine ⟨.cancelled, s, ?_, .inl ⟨rfl, rfl⟩⟩
        rw [Disk.remove, hp]
        rfl
      | some p =>
        refine ⟨.ok, _, ?_, .inr ⟨?_, stays_erase (hback p hp)⟩⟩
        · rw [Disk.remove, hp]
          rfl
        · exact fun he ↦ List.cons_ne_nil p [] (List.append_right_eq_self.mp he)

end Single

section Loop

variable {δ : Type} [DecidableEq δ] {DST_DIR : Option Text → Text} {name data : Text}
variable {w v v' v'' : Caches δ} {subs : List Text} {host : Option Text} {st : Status}

theorem samePaths_fwrite {s : Disk δ} {dir : Text} {p : δ × Text} (h : aim s dir name = some p)
    (data : Text) : SamePaths s (s.fwrite p data) := by
  obtain ⟨d, -, hp⟩ := Option.bind_eq_some_iff.mp h
  have hnode := (Tree.creates_eq_some_iff.mp hp).2.1
  intro dir'
  have hresolve : (s.fwrite p data).resolve dir' = s.resolve dir' := Tree.walk_write hnode data
  refine ⟨hresolve, ?_⟩
  intro name'
  unfold aim
  rw [hresolve]
  cases s.resolve dir' with
  | none => rfl
  | some e => exact Tree.creates_write hnode data _

theorem storeName_stays {dir : Text} {s : Disk δ} (hfits : Fits dir name)
    (hback : ComesBack s dir name) (opened : Bool) (data : Text) :
    ∃ st s', storeName dir opened name data s = some (st, s') ∧ Stays dir s s' ∧ SamePaths s s' ∧
      ((st = .cancelled ∧ s' = s) ∨
        (st = .ok ∧ s.touched.length < s'.touched.length ∧ (aim s dir name).isSome)) := by
  rw [storeName_of_fits hfits]
  cases opened with
  | false =>
    exact ⟨.cancelled, s, rfl, Stays.refl dir s, fun _ ↦ ⟨rfl, fun _ ↦ rfl⟩, .inl ⟨rfl, rfl⟩⟩
  | true =>
    cases hp : aim s dir name with
    | none =>
      exact ⟨.cancelled, s, rfl, Stays.refl dir s, fun _ ↦ ⟨rfl, fun _ ↦ rfl⟩, .inl ⟨rfl, rfl⟩⟩
    | some p =>
      refine ⟨.ok, s.fwrite p data, rfl, stays_fwrite (comesBack_iff.mp hback p hp) data,
        samePaths_fwrite hp data, .inr ⟨rfl, ?_, rfl⟩⟩
      have hlength : (s.fwrite p data).touched.length = s.touched.length + 1 := List.length_append
      omega

theorem store_grown (h : Holds DST_DIR name v host) (d : Delivery) (opened : Bool) (data : Text) :
    ∃ st v', McServer.store DST_DIR host d opened name data v = some (st, v') ∧
      Grown DST_DIR v v' ∧ (st = .ok → Takes DST_DIR name v host) ∧
      ((st ≠ .ok ∧ v' = v) ∨ (v host).touched.length < (v' host).touched.length) := by
  obtain ⟨st, s', hs, hstays, hpaths, hcase⟩ := storeName_stays h.1 h.2 opened data
  have hgrown : Grown DST_DIR v (update v host s') := Grown.update hstays hpaths
  have hown : update v host s' host = s' := update_self ..
  cases d with
  | lost =>
    refine ⟨.unavailable, v, ?_, Grown.refl _ _, nofun, .inl ⟨nofun, rfl⟩⟩
    simp [McServer.store, Delivery.call]
  | noReply =>
    refine ⟨.unavailable, update v host s', ?_, hgrown, nofun, ?_⟩
    · simp [McServer.store, Delivery.call, hs]
    · obtain ⟨-, rfl⟩ | ⟨-, hlt, -⟩ := hcase
      · exact .inl ⟨nofun, update_eq_self ..⟩
      · exact .inr (by rwa [hown])
  | answered =>
    refine ⟨st, update v host s', ?_, hgrown, ?_, ?_⟩
    · simp [McServer.store, Delivery.call, hs]
    · obtain ⟨rfl, -⟩ | ⟨-, -, htakes⟩ := hcase
      · exact nofun
      · exact fun _ ↦ htakes
    · obtain ⟨rfl, rfl⟩ | ⟨-, hlt, -⟩ := hcase
      · exact .inl ⟨nofun, update_eq_self ..⟩
      · exact .inr (by rwa [hown])

theorem loop_grown (turns : ℕ → Turn) (data : Text) (h : HoldsOnTheWay DST_DIR name v subs)
    (i : ℕ) : ∃ st v', McServer.afpmoveLoop DST_DIR turns name data i subs v = some (st, v') ∧
      Grown DST_DIR v v' ∧ (subs = [] ∨ (st = .cancelled ∧ v' = v) ∨
        ∃ host, (v host).touched.length < (v' host).touched.length) := by
  induction subs generalizing v i with
  | nil => exact ⟨.ok, v, rfl, Grown.refl _ _, .inl rfl⟩
  | cons addr subs ih =>
    obtain ⟨hsub, hrest⟩ := h
    obtain ⟨st₁, v₁, h₁, hgrown₁, hok₁, hcase₁⟩ :=
      store_grown hsub (turns i).add (turns i).stored data
    rw [McServer.afpmoveLoop, h₁]
    by_cases hst₁ : st₁ = .ok
    · obtain ⟨hmain, hrest⟩ := hrest (hok₁ hst₁)
      obtain ⟨st₂, v₂, h₂, hgrown₂, hok₂, -⟩ :=
        store_grown ((hgrown₁.holds none).1.mpr hmain) .answered (turns i).opened data
      have hlt₁ : (v (some addr)).touched.length < (v₁ (some addr)).touched.length :=
        hcase₁.resolve_left fun hleft ↦ hleft.1 hst₁
      have hlt₂ := hlt₁.trans_le (hgrown₂.touched_prefix (some addr)).length_le
      by_cases hst₂ : st₂ = .ok
      · have htakes := (hgrown₁.holds none).2.mp (hok₂ hst₂)
        have hgrown := hgrown₁.trans hgrown₂
        obtain ⟨st, v', hloop, hgrown', -⟩ := ih ((hgrown.way subs).mpr (hrest htakes)) (i + 1)
        refine ⟨st, v', ?_, hgrown.trans hgrown', .inr (.inr ⟨some addr, ?_⟩)⟩
        · simpa [hst₁, h₂, hst₂] using hloop
        · exact hlt₂.trans_le (hgrown'.touched_prefix (some addr)).length_le
      · refine ⟨.cancelled, v₂, ?_, hgrown₁.trans hgrown₂, .inr (.inr ⟨some addr, hlt₂⟩)⟩
        simp [hst₁, h₂, hst₂]
    · refine ⟨.cancelled, v₁, by simp [hst₁], hgrown₁, .inr ?_⟩
      obtain ⟨-, rfl⟩ | hlt := hcase₁
      · exact .inl ⟨rfl, rfl⟩
      · exact .inr ⟨some addr, hlt⟩

theorem store_touched {d : Delivery} {opened : Bool}
    (h : McServer.store DST_DIR host d opened name data v = some (st, v')) (host' : Option Text) :
    (v host').touched <+: (v' host').touched := by
  obtain ⟨⟨st', s'⟩, hcall, h⟩ := Option.bind_eq_some_iff.mp h
  obtain ⟨-, rfl⟩ := Prod.mk.inj (Option.some.inj h)
  have hgrows : (v host).touched <+: s'.touched := by
    rcases call_cases hcall with ⟨-, rfl⟩ | ⟨st'', hs, -⟩
    · exact List.prefix_rfl
    · obtain ⟨fname, -, hs⟩ := Option.bind_eq_some_iff.mp hs
      cases hopen : (v host).fopenW opened fname with
      | none =>
        rw [hopen] at hs
        obtain ⟨-, rfl⟩ := Prod.mk.inj (Option.some.inj hs)
        exact List.prefix_rfl
      | some p =>
        rw [hopen] at hs
        obtain ⟨-, rfl⟩ := Prod.mk.inj (Option.some.inj hs)
        exact List.prefix_append _ _
  rcases eq_or_ne host' host with rfl | hne
  · rwa [update_self]
  · rw [update_of_ne hne]

theorem loop_touched {turns : ℕ → Turn} {i : ℕ}
    (h : McServer.afpmoveLoop DST_DIR turns name data i subs v = some (st, v'))
    (host : Option Text) : (v host).touched <+: (v' host).touched := by
  induction subs generalizing v i with
  | nil =>
    obtain ⟨-, rfl⟩ := Prod.mk.inj (Option.some.inj h)
    exact List.prefix_rfl
  | cons addr subs ih =>
    obtain ⟨⟨st₁, v₁⟩, h₁, h⟩ := Option.bind_eq_some_iff.mp h
    refine (store_touched h₁ host).trans ?_
    simp only at h
    split at h
    · obtain ⟨-, rfl⟩ := Prod.mk.inj (Option.some.inj h)
      exact List.prefix_rfl
    · obtain ⟨⟨st₂, v₂⟩, h₂, h⟩ := Option.bind_eq_some_iff.mp h
      refine (store_touched h₂ host).trans ?_
      simp only at h
      split at h
      · obtain ⟨-, rfl⟩ := Prod.mk.inj (Option.some.inj h)
        exact List.prefix_rfl
      · exact ih h

theorem holds_of_store (h : McServer.store DST_DIR host .answered true name data v = some (st, v'))
    (htouched : ∀ host, (v' host).touched <+: (v'' host).touched) (hacted : Acted DST_DIR v v'') :
    Holds DST_DIR name v host ∧ (Takes DST_DIR name v host → st = .ok) ∧ Grown DST_DIR v v' := by
  have hfits : Fits (DST_DIR host) name := by
    by_contra hfits
    simp [McServer.store, Delivery.call, storeName_overflow hfits] at h
  cases hp : aim (v host) (DST_DIR host) name with
  | none =>
    have hholds : Holds DST_DIR name v host := ⟨hfits, fun d p _ he ↦ by rw [hp] at he; cases he⟩
    obtain ⟨_, _, h', hgrown, -⟩ := store_grown hholds .answered true data
    obtain ⟨-, rfl⟩ := Prod.mk.inj (Option.some.inj (h.symm.trans h'))
    exact ⟨hholds, fun htakes ↦ by simp [Takes, hp] at htakes, hgrown⟩
  | some p =>
    have hstore : McServer.store DST_DIR host .answered true name data v =
        some (.ok, update v host ((v host).fwrite p data)) := by
      simp [McServer.store, Delivery.call, storeName_of_fits hfits, hp]
    obtain ⟨rfl, rfl⟩ := Prod.mk.inj (Option.some.inj (h.symm.trans hstore))
    have hin : (v host).resolve (DST_DIR host) = some p.1 := by
      obtain ⟨rs, hrs⟩ := htouched host
      rw [update_self] at hrs
      refine hacted host (p :: rs) ?_ p List.mem_cons_self
      rw [← hrs, Disk.fwrite, List.append_assoc]
      rfl
    have hholds : Holds DST_DIR name v host := by
      refine ⟨hfits, comesBack_iff.mpr fun q hq ↦ ?_⟩
      obtain rfl := Option.some.inj (hp.symm.trans hq)
      exact hin
    obtain ⟨_, _, h', hgrown, -⟩ := store_grown hholds .answered true data
    obtain ⟨-, hsame⟩ := Prod.mk.inj (Option.some.inj (h.symm.trans h'))
    exact ⟨hholds, fun _ ↦ rfl, hsame ▸ hgrown⟩

theorem way_of_loop {i : ℕ}
    (h : McServer.afpmoveLoop DST_DIR (fun _ ↦ Turn.good) name data i subs v = some (st, v'))
    (hacted : Acted DST_DIR v v') : HoldsOnTheWay DST_DIR name v subs := by
  induction subs generalizing v i with
  | nil => trivial
  | cons addr subs ih =>
    obtain ⟨⟨st₁, v₁⟩, h₁, h⟩ := Option.bind_eq_some_iff.mp h
    simp only at h
    split at h
    · next hst₁ =>
      obtain ⟨-, rfl⟩ := Prod.mk.inj (Option.some.inj h)
      obtain ⟨hsub, hok, -⟩ := holds_of_store h₁ (fun _ ↦ List.prefix_rfl) hacted
      exact ⟨hsub, fun htakes ↦ absurd (hok htakes) hst₁⟩
    · obtain ⟨⟨st₂, v₂⟩, h₂, h⟩ := Option.bind_eq_some_iff.mp h
      simp only at h
      split at h
      · next hst₂ =>
        obtain ⟨-, rfl⟩ := Prod.mk.inj (Option.some.inj h)
        obtain ⟨hsub, -, hgrown₁⟩ := holds_of_store h₁ (store_touched h₂) hacted
        obtain ⟨hmain, hok, -⟩ :=
          holds_of_store h₂ (fun _ ↦ List.prefix_rfl) (hacted.rest hgrown₁)
        refine ⟨hsub, fun _ ↦ ⟨(hgrown₁.holds none).1.mp hmain, fun htakes ↦ ?_⟩⟩
        exact absurd (hok ((hgrown₁.holds none).2.mpr htakes)) hst₂
      · have htouched := loop_touched h
        obtain ⟨hsub, -, hgrown₁⟩ := holds_of_store h₁
          (fun host ↦ (store_touched h₂ host).trans (htouched host)) hacted
        obtain ⟨hmain, -, hgrown₂⟩ := holds_of_store h₂ htouched (hacted.rest hgrown₁)
        have hgrown := hgrown₁.trans hgrown₂
        exact ⟨hsub, fun _ ↦ ⟨(hgrown₁.holds none).1.mp hmain, fun _ ↦
          (hgrown.way subs).mp (ih h (hacted.rest hgrown))⟩⟩

def ConfinesAll (DST_DIR : Option Text → Text)
    (handler : Caches δ → Option (Status × Caches δ)) (w : Caches δ) : Prop :=
  ∃ st w', handler w = some (st, w') ∧ ((st = .cancelled ∧ w' = w) ∨
    ((∃ host, (w' host).touched ≠ (w host).touched) ∧
      ∀ host, Stays (DST_DIR host) (w host) (w' host)))

theorem afpmove_confines_iff (DST_DIR : Option Text → Text) (g_sublist : List Text) (name : Text)
    (w : Caches δ) :
    (∀ turns data, ConfinesAll DST_DIR (McServer.afpmove DST_DIR g_sublist turns name data) w) ↔
      g_sublist ≠ [] ∧ HoldsOnTheWay DST_DIR name w g_sublist := by
  constructor
  · intro h
    obtain ⟨st, w', hloop, hcase⟩ := h (fun _ ↦ Turn.good) []
    refine ⟨?_, way_of_loop hloop (Stays.acted fun host ↦ ?_)⟩
    · rintro rfl
      obtain ⟨rfl, rfl⟩ := Prod.mk.inj (Option.some.inj hloop)
      obtain ⟨hst, -⟩ | ⟨⟨host, hne⟩, -⟩ := hcase
      · cases hst
      · exact hne rfl
    · obtain ⟨-, rfl⟩ | ⟨-, hstays⟩ := hcase
      · exact Stays.refl _ _
      · exact hstays host
  · intro h turns data
    obtain ⟨hne, hway⟩ := h
    obtain ⟨st, w', hloop, hgrown, hcase⟩ := loop_grown turns data hway 0
    refine ⟨st, w', hloop, ?_⟩
    obtain hnil | hquiet | ⟨host, hlt⟩ := hcase
    · exact absurd hnil hne
    · exact .inl hquiet
    · exact .inr ⟨⟨host, fun he ↦ by rw [he] at hlt; exact Nat.lt_irrefl _ hlt⟩, hgrown.stays⟩

end Loop

section Names

variable {δ : Type} [DecidableEq δ]

/-- Requests stay in the directory of their setting exactly when the path fits
in its buffer and the leading components of the name, if it leads anywhere,
lead back to that directory; for `McServer::Afpmove` on every host that the
request comes to. -/
theorem names_confined_iff (dir name : Text) (s : Disk δ) (DST_DIR : Option Text → Text)
    (g_sublist : List Text) (w : Caches δ) :
    ((∀ opened data, Confines dir (GMServer.afpmove dir opened name data) s) ↔
      Fits dir name ∧ ComesBack s dir name) ∧
    ((∀ opened data, Confines dir (ScServer.addafps dir opened name data) s) ↔
      Fits dir name ∧ ComesBack s dir name) ∧
    ((∀ allowed, Confines dir (ScServer.delafps dir allowed name) s) ↔
      Fits dir name ∧ Removable s dir name) ∧
    ((∀ turns data, ConfinesAll DST_DIR (McServer.afpmove DST_DIR g_sublist turns name data) w) ↔
      g_sublist ≠ [] ∧ HoldsOnTheWay DST_DIR name w g_sublist) :=
  ⟨storeName_confines_iff dir name s, storeName_confines_iff dir name s,
    delafps_confines_iff dir name s, afpmove_confines_iff DST_DIR g_sublist name w⟩

def emptyDst : Disk ℕ where
  root := 0
  cwd := 0
  tree := {
    parent := fun _ ↦ 0
    entries := fun d ↦ if d = 0 then AList.singleton "dst".toList (.dir 1) else ∅ }
  touched := []

/-- A name with dots writes beside DST_DIR, and an empty one removes AFP_DIR. -/
theorem names_escape :
    (GMServer.afpmove "/dst".toList true "../1.afp".toList "x".toList emptyDst).map
      (fun r ↦ (r.1, r.2.touched)) = some (.ok, [(0, "1.afp".toList)]) ∧
    (ScServer.delafps "/dst".toList true [] emptyDst).map
      (fun r ↦ (r.1, r.2.touched)) = some (.ok, [(0, "dst".toList)]) ∧
    emptyDst.resolve "/dst".toList = some 1 := by
  decide +kernel

end Names

end FingerMove.Service.Confined
