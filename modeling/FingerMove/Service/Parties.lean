import Mathlib.Data.Finset.Card
import FingerMove.Service.Exchange
import FingerMove.Service.HandOver
import FingerMove.Service.Mirrored

namespace FingerMove.Service.Exchange

open CText Directory Tally ProDeal Function Machine

section Dst

variable {σ : Sorter (Text × ℕ)} {e : Round} {flg num : ℤ} {LIMIT : ℕ}

theorem gather_with (h : Host) (dst : Folder) : gather σ e flg { h with dst } =
    (gather σ e flg h).map fun g ↦ { g with dst } := by
  simp only [gather, Option.bind_eq_bind, Option.map_bind, Function.comp_def, Option.pure_def,
    Option.map_some]

theorem preconf_with (h : Host) (dst : Folder) : preconf σ LIMIT e num { h with dst } =
    (preconf σ LIMIT e num h).map fun x ↦ (x.1, { x.2 with dst }) := by
  simp only [preconf, gather_with, Option.bind_eq_bind, Option.bind_map, Option.map_bind,
    Function.comp_def, Option.pure_def]
  refine Option.bind_congr fun g _ ↦ Option.bind_congr fun x _ ↦ ?_
  split
  · rfl
  · simp only [Option.map_bind, Function.comp_def, Option.map_some]

theorem prepare_with (h : Host) (dat dst : Folder) :
    RunLoop.prepare σ LIMIT e dat { h with dst } =
      (RunLoop.prepare σ LIMIT e dat h).map fun x ↦ (x.1, { x.2 with dst }) := by
  have hgather : gather σ e 1 { h with dat, dst } = _ := gather_with { h with dat } dst
  simp only [RunLoop.prepare, hgather, Option.bind_eq_bind, Option.bind_map, Option.map_bind,
    Function.comp_def, Option.pure_def, Option.map_some]

end Dst

variable {κ : Type} [DecidableEq κ] {C : Cluster κ} {s t : State κ} {g : κ}

omit [DecidableEq κ] in
theorem Advance.client {x : Place κ → Set (FileName × Text)} {c c' : Call κ}
    (h : Advance C x c c') : c'.client = c.client := by
  cases h <;> rfl

section Groups

def Awaited (s : State κ) (g : κ) (k : ℕ) : Prop := ∃ c, s.calls k = some c ∧ c.client = some g

/-- A group on its own, as the exchange has it: DST_DIR is left to the main cache, and a
thread that waits for an answer is a thread. -/
structure GroupShown (g : κ) (s : State κ) (x : HandOver.State) : Prop where
  host : ∃ dst, x.host = { (s.group g).host with dst }
  threads : ∃ K : Finset ℕ, (∀ k, k ∈ K ↔ Awaited s g k) ∧ x.threads = (s.group g).threads + K.card

variable {x : HandOver.State} {k : ℕ} {c : Call κ} {o : Option (Call κ)}

omit [DecidableEq κ] in
theorem awaited_update (hcalls : t.calls = update s.calls k o) (j : ℕ) : Awaited t g j ↔
    if j = k then ∃ c, o = some c ∧ c.client = some g else Awaited s g j := by
  unfold Awaited
  rw [hcalls]
  rcases eq_or_ne j k with rfl | hj
  · simp
  · simp [hj]

omit [DecidableEq κ] in
theorem GroupShown.of_same (h : GroupShown g s x)
    (hhost : ∀ dst : Folder, { (t.group g).host with dst } = { (s.group g).host with dst })
    (hthreads : (t.group g).threads = (s.group g).threads)
    (hcalls : ∀ k, Awaited t g k ↔ Awaited s g k) : GroupShown g t x := by
  obtain ⟨⟨dst, hdst⟩, K, hK, hx⟩ := h
  exact ⟨⟨dst, hdst.trans (hhost dst).symm⟩, K, fun k ↦ (hK k).trans (hcalls k).symm,
    by rw [hthreads, hx]⟩

theorem GroupShown.of_release (h : GroupShown g s x) (hk : s.calls k = some c)
    (ho : ∀ c', o = some c' → c'.client = none)
    (hgroup : t.group = (s.release c.client).group) (hcalls : t.calls = update s.calls k o) :
    GroupShown g t x := by
  have hnone : ¬ ∃ c', o = some c' ∧ c'.client = some g := by
    rintro ⟨c', hc', hclient⟩
    rw [ho c' hc'] at hclient
    cases hclient
  by_cases hclient : c.client = some g
  · obtain ⟨K, hK, hx⟩ := h.threads
    have hmem : k ∈ K := (hK k).mpr ⟨c, hk, hclient⟩
    have hrelease : t.group g = { s.group g with threads := (s.group g).threads + 1 } := by
      rw [hgroup, hclient]
      exact update_self _ _ _
    refine ⟨hrelease ▸ h.host, K.erase k, fun j ↦ ?_, ?_⟩
    · rw [Finset.mem_erase, hK, awaited_update hcalls]
      by_cases hj : j = k <;> simp [hj, hnone]
    · have hcard := Finset.card_erase_add_one hmem
      rw [hrelease, hx]
      simp only
      omega
  · have hsame : t.group g = s.group g := by
      rw [hgroup]
      cases hcl : c.client with
      | none => rfl
      | some g' => exact update_of_ne (fun he ↦ hclient (hcl.trans (congrArg some he.symm))) _ _
    refine h.of_same (fun _ ↦ by rw [hsame]) (by rw [hsame]) fun j ↦ ?_
    rw [awaited_update hcalls]
    split
    · next hj =>
      subst hj
      refine iff_of_false hnone ?_
      rintro ⟨c', hc', he⟩
      obtain rfl := Option.some.inj (hk.symm.trans hc')
      exact hclient he
    · rfl

abbrev GroupMatches (C : Cluster κ) (g : κ) (t : State κ) (x : HandOver.State) : Prop :=
  Matches (HandOver.step C.sorter (C.GROUP_LIMIT g)) (GroupShown g) t x

theorem group_ask {d : Delivery} {e : Round} {dat : Folder} (h : GroupShown g s x)
    (ht : step C s (.ask d e dat) = some t) : GroupMatches C g t x := by
  simp only [step] at ht
  split at ht
  case h_2 => cases ht
  next thr conf addr list lineCount hpc =>
  obtain ⟨rfl, -⟩ | ⟨-, i, st, count, host, -, hp, rfl⟩ := ask_cases ht
  · exact matches_idle (h.of_same (fun _ ↦ rfl) rfl fun _ ↦ .rfl)
  by_cases hi : g = i
  · subst hi
    obtain ⟨host', n, acked⟩ := x
    obtain ⟨⟨dst, rfl⟩, K, hK, rfl⟩ := h
    let y : HandOver.State := ⟨{ host with dst },
      if st = .ok then (s.group g).threads + K.card + 1 else (s.group g).threads + K.card, acked⟩
    have hown : preconf C.sorter (C.GROUP_LIMIT g) e thr { (s.group g).host with dat, dst } =
        some ((st, count), { host with dst }) :=
      (preconf_with { (s.group g).host with dat } dst).trans (congrArg _ hp)
    have hstep : HandOver.step C.sorter (C.GROUP_LIMIT g)
        ⟨{ (s.group g).host with dst }, (s.group g).threads + K.card, acked⟩ (.preconf e dat thr) =
          some y := by
      simp only [HandOver.step, hown]
      rfl
    refine matches_one hstep ⟨⟨dst, ?_⟩, K, hK, ?_⟩
    · simp only [update_self, y]
    · simp only [update_self, y]
      split <;> omega
  · refine matches_idle (h.of_same (fun _ ↦ ?_) ?_ fun _ ↦ .rfl)
    · simp only [update_of_ne hi]
    · simp only [update_of_ne hi]

theorem group_upload {i : κ} {opened : Bool} {f : FileName} {arrives : Option ℕ}
    (h : GroupShown g s x) (ht : step C s (.upload i opened f arrives) = some t) :
    GroupMatches C g t x := by
  obtain ⟨⟨hpos, hmem⟩, rfl | ⟨req, j, hdata, hreq, hnone, rfl⟩⟩ := upload_cases ht
  · exact matches_idle h
  have hfree : ¬ Awaited s g j := by
    rintro ⟨c, hc, -⟩
    rw [hnone] at hc
    cases hc
  by_cases hi : g = i
  · subst hi
    obtain ⟨host', n, acked⟩ := x
    obtain ⟨⟨dst, rfl⟩, K, hK, rfl⟩ := h
    let y : HandOver.State := ⟨{ (s.group g).host with dst }, (s.group g).threads + K.card,
      (req.file, req.val) :: acked⟩
    have hthread : 0 < (s.group g).threads + K.card ∧ f ∈ (s.group g).host.org.files :=
      ⟨by omega, hmem⟩
    have hstep : HandOver.step C.sorter (C.GROUP_LIMIT g)
        ⟨{ (s.group g).host with dst }, (s.group g).threads + K.card, acked⟩ (.iterate opened f) =
          some y := by
      simp only [HandOver.step, guard, if_pos hthread, hreq]
      rfl
    refine matches_one hstep ⟨⟨dst, ?_⟩, insert j K, fun k ↦ ?_, ?_⟩
    · simp only [update_self, y]
    · refine Iff.trans ?_ (awaited_update rfl k).symm
      rw [Finset.mem_insert, hK]
      by_cases hk : k = j <;> simp [hk]
    · rw [Finset.card_insert_of_notMem ((hK j).not.mpr hfree)]
      simp only [update_self, y]
      omega
  · refine matches_idle (h.of_same (fun _ ↦ ?_) ?_ fun k ↦ ?_)
    · simp only [update_of_ne hi]
    · simp only [update_of_ne hi]
    · refine (awaited_update rfl k).trans ?_
      split
      · next hk =>
        subst hk
        refine iff_of_false ?_ hfree
        rintro ⟨c, hc, he⟩
        obtain rfl := Option.some.inj hc
        exact hi (Option.some.inj he).symm
      · rfl

theorem group_handle {u : Turn} (h : GroupShown g s x)
    (ht : step C s (.handle k u) = some t) : GroupShown g t x := by
  obtain ⟨c, hk, ht⟩ := Option.bind_eq_some_iff.mp ht
  obtain ⟨v, hv, -, rfl | ⟨c', hadv, rfl⟩⟩ := handle_cases hk ht
  all_goals have hcalls : v.calls = s.calls := by rw [hv]
  · have hshown : GroupShown g v x :=
      h.of_same (fun _ ↦ by rw [hv]) (by rw [hv]) fun j ↦ by rw [Awaited, hcalls, Awaited]
    refine hshown.of_release (o := none) (hcalls ▸ hk) (fun c' hc' ↦ ?_) rfl rfl
    cases hc'
  · refine h.of_same (fun _ ↦ by rw [hv]) (by rw [hv]) fun j ↦ ?_
    refine (awaited_update (congrArg (update · k (some c')) hcalls) j).trans ?_
    split
    · next hj =>
      subst hj
      simp [Awaited, hk, hadv.client]
    · rfl

theorem group_leave {i : κ} (h : GroupShown g s x) (ht : step C s (.leave i) = some t) :
    GroupMatches C g t x := by
  obtain ⟨_, hguard, ht⟩ := Option.bind_eq_some_iff.mp ht
  obtain rfl := Option.some.inj ht
  by_cases hi : g = i
  · subst hi
    obtain ⟨host', n, acked⟩ := x
    obtain ⟨⟨dst, rfl⟩, K, hK, rfl⟩ := h
    have hpos : 0 < (s.group g).threads := (Option.guard_eq_some' _).mp hguard
    have hthread : 0 < (s.group g).threads + K.card := by omega
    let y : HandOver.State := ⟨{ (s.group g).host with dst }, (s.group g).threads + K.card - 1,
      acked⟩
    have hstep : HandOver.step C.sorter (C.GROUP_LIMIT g)
        ⟨{ (s.group g).host with dst }, (s.group g).threads + K.card, acked⟩ .finish = some y := by
      simp only [HandOver.step, guard, if_pos hthread]
      rfl
    refine matches_one hstep ⟨⟨dst, ?_⟩, K, hK, ?_⟩
    · simp only [update_self, y]
    · simp only [update_self, y]
      omega
  · refine matches_idle (h.of_same (fun _ ↦ ?_) ?_ fun _ ↦ .rfl)
    · simp only [update_of_ne hi]
    · simp only [update_of_ne hi]

theorem group_step {e : Label κ} (h : GroupShown g s x) (ht : step C s e = some t) :
    GroupMatches C g t x := by
  cases e with
  | round | refill | send | delete | next =>
    obtain ⟨hcalls, -, -, hgroup⟩ := loop_frame (by trivial) ht
    refine matches_idle (h.of_same (fun _ ↦ by rw [hgroup g]) (by rw [hgroup g]) fun k ↦ ?_)
    simp only [Awaited, hcalls]
  | ask => exact group_ask h ht
  | upload => exact group_upload h ht
  | handle => exact matches_idle (group_handle h ht)
  | giveUp k =>
    obtain ⟨c, hk, rfl⟩ := Option.map_eq_some_iff.mp ht
    refine matches_idle (h.of_release hk (fun c' hc' ↦ ?_) rfl rfl)
    obtain rfl := Option.some.inj hc'
    rfl
  | leave => exact group_leave h ht

/-- A run of the exchange is a run of each group. -/
theorem group_run {es : List (Label κ)} (hs : ∀ k, s.calls k = none)
    (hr : exec (step C) s es = some t) :
    GroupMatches C g t ⟨(s.group g).host, (s.group g).threads, []⟩ := by
  refine exec_simulated (fun _ _ _ _ hs _ ht ↦ group_step hs ht) ?_
    (eachStep_of_mem (G := fun _ ↦ True) fun _ _ ↦ trivial) hr
  refine ⟨⟨_, rfl⟩, ∅, fun k ↦ iff_of_false (Finset.notMem_empty k) ?_, rfl⟩
  rintro ⟨c, hc, -⟩
  rw [hs k] at hc
  cases hc

end Groups

section Loop

def Found (C : Cluster κ) (s : State κ) (group : Text → GroupServer) : Prop :=
  ∀ addr g, C.move addr = some g → (group addr).dst = (s.group g).host.dst

/-- The main loop has sent a file to `addr` and had the first `i` sub caches delete it, all of
which is one iteration of its own. -/
structure Sending (C : Cluster κ) (s : State κ) (x : RunLoop.State) (addr : Text) (f : FileName)
    (i : ℕ) (p : Parcel) (req : FingerValue) (st : Status) (grp : GroupServer) : Prop where
  read : readFinger p.opened s.main.org f = some (some req)
  send : p.send.call (GroupServer.afpmove p.stored req) (x.group addr) = some (st, grp)
  dels : McMoveClient.appDels p.dels f.text 0 (C.g_sublist.take i) x.sub = some s.subAfp
  found : Found C s (update x.group addr grp)

def Placed (C : Cluster κ) (s : State κ) (x : RunLoop.State) : Prop :=
  match s.pc with
  | .waiting => x.pc = .waiting ∧ x.sub = s.subAfp ∧ Found C s x.group
  | .groups _ list n => x.pc = .groups list n ∧ x.sub = s.subAfp ∧ Found C s x.group
  | .answered _ addr _ list n =>
    (∃ conf, x.pc = .groups ((conf, addr) :: list) n) ∧ x.sub = s.subAfp ∧ Found C s x.group
  | .moving addr todo _ list n =>
    x.pc = .moving addr todo list n ∧ x.sub = s.subAfp ∧ Found C s x.group
  | .deleting f i addr todo _ list n =>
    x.pc = .moving addr (f :: todo) list n ∧ ∃ p req st grp, Sending C s x addr f i p req st grp

/-- The main loop on its own, with DST_DIR left to `McServer`. -/
structure LoopShown (C : Cluster κ) (s : State κ) (x : RunLoop.State) : Prop where
  host : ∃ dst, x.host = { s.main with dst }
  placed : Placed C s x

variable {x : RunLoop.State}

def Label.Served : Label κ → Prop
  | .upload _ _ _ _ | .handle _ _ | .giveUp _ | .leave _ => True
  | _ => False

theorem release_host (client : Option κ) (i : κ) :
    ((s.release client).group i).host = (s.group i).host := by
  cases client with
  | none => rfl
  | some g =>
    rcases eq_or_ne i g with rfl | hi
    · simp only [State.release, update_self]
    · simp only [State.release, update_of_ne hi]

theorem release_main (client : Option κ) : (s.release client).main = s.main ∧
    (s.release client).subAfp = s.subAfp ∧ (s.release client).subDst = s.subDst ∧
    (s.release client).pc = s.pc := by
  cases client <;> exact ⟨rfl, rfl, rfl, rfl⟩

theorem served_frame {e : Label κ} (he : e.Served) (ht : step C s e = some t) :
    t.pc = s.pc ∧ t.subAfp = s.subAfp ∧
      (∀ dst : Folder, { t.main with dst } = { s.main with dst }) ∧
      ∀ i, (t.group i).host = (s.group i).host := by
  have hthread : ∀ (g i : κ) (n : ℕ),
      (update s.group g { s.group g with threads := n } i).host = (s.group i).host := by
    intro g i n
    rcases eq_or_ne i g with rfl | hi
    · rw [update_self]
    · rw [update_of_ne hi]
  cases e with
  | round | ask | refill | send | delete | next => exact he.elim
  | upload g opened f arrives =>
    obtain ⟨-, rfl | ⟨req, k, hdata, -, -, rfl⟩⟩ := upload_cases ht
    · exact ⟨rfl, rfl, fun _ ↦ rfl, fun _ ↦ rfl⟩
    · exact ⟨rfl, rfl, fun _ ↦ rfl, fun i ↦ hthread g i _⟩
  | handle k u =>
    obtain ⟨c, hk, ht⟩ := Option.bind_eq_some_iff.mp ht
    obtain ⟨v, hv, -, rfl | ⟨c', -, rfl⟩⟩ := handle_cases hk ht
    · obtain ⟨hmain, hsub, -, hpc⟩ := release_main (s := v) c.client
      refine ⟨hpc.trans (by rw [hv]), hsub.trans (by rw [hv]), fun dst ↦ ?_, fun i ↦ ?_⟩
      · rw [State.finish, hmain, hv]
      · exact (release_host c.client i).trans (by rw [hv])
    · exact ⟨by rw [hv], by rw [hv], fun _ ↦ by rw [hv], fun _ ↦ by rw [hv]⟩
  | giveUp k =>
    obtain ⟨c, -, rfl⟩ := Option.map_eq_some_iff.mp ht
    obtain ⟨hmain, hsub, -, hpc⟩ := release_main (s := s) c.client
    exact ⟨hpc, hsub, fun dst ↦ by rw [hmain], release_host c.client⟩
  | leave g =>
    obtain ⟨_, -, ht⟩ := Option.bind_eq_some_iff.mp ht
    obtain rfl := Option.some.inj ht
    exact ⟨rfl, rfl, fun _ ↦ rfl, fun i ↦ hthread g i _⟩

omit [DecidableEq κ] in
theorem Found.of_same {group : Text → GroupServer} (h : Found C s group)
    (hdst : ∀ i, (t.group i).host.dst = (s.group i).host.dst) : Found C t group :=
  fun addr g hg ↦ (h addr g hg).trans (hdst g).symm

omit [DecidableEq κ] in
theorem LoopShown.of_same (h : LoopShown C s x) (hpc : t.pc = s.pc) (hsub : t.subAfp = s.subAfp)
    (hmain : ∀ dst : Folder, { t.main with dst } = { s.main with dst })
    (hdst : ∀ i, (t.group i).host.dst = (s.group i).host.dst) : LoopShown C t x := by
  obtain ⟨⟨dst, hhost⟩, hplaced⟩ := h
  refine ⟨⟨dst, hhost.trans (hmain dst).symm⟩, ?_⟩
  have horg : t.main.org = s.main.org := (congrArg Host.org (hmain dst) :)
  unfold Placed at hplaced ⊢
  rw [hpc, hsub]
  split at hplaced
  case h_5 =>
    obtain ⟨hx, p, req, st, grp, hread, hsend, hdels, hfound⟩ := hplaced
    exact ⟨hx, p, req, st, grp, horg ▸ hread, hsend, hsub ▸ hdels, hfound.of_same hdst⟩
  all_goals exact ⟨hplaced.1, hplaced.2.1, hplaced.2.2.of_same hdst⟩

theorem call_group {d : Delivery} {stored : Bool} {req : FingerValue} {grp : GroupServer}
    {st : Status} {dst : Folder}
    (h : d.call (GMServer.afpmove stored req) grp.dst = some (st, dst)) :
    ∃ grp', d.call (GroupServer.afpmove stored req) grp = some (st, grp') ∧ grp'.dst = dst := by
  cases d with
  | lost =>
    obtain ⟨rfl, rfl⟩ := Prod.mk.inj (Option.some.inj h)
    exact ⟨grp, rfl, rfl⟩
  | noReply =>
    obtain ⟨⟨st', dst'⟩, hrun, he⟩ := Option.map_eq_some_iff.mp h
    obtain ⟨rfl, rfl⟩ := Prod.mk.inj he
    have hgroup : GroupServer.afpmove stored req grp = some _ :=
      Option.bind_eq_some_iff.mpr ⟨_, hrun, rfl⟩
    exact ⟨_, Option.map_eq_some_iff.mpr ⟨_, hgroup, rfl⟩, rfl⟩
  | answered => exact ⟨_, Option.bind_eq_some_iff.mpr ⟨_, h, rfl⟩, rfl⟩

theorem appDels_concat {dels : ℕ → Delivery} {name : Text} {i : ℕ} {subs : List Text} {addr : Text}
    {sub sub' : Text → Folder} (h : McMoveClient.appDels dels name i subs sub = some sub')
    {d : Delivery} {st : Status} {afp : Folder}
    (hd : d.call (ScServer.delafps name) (sub' addr) = some (st, afp)) :
    McMoveClient.appDels (update dels (i + subs.length) d) name i (subs ++ [addr]) sub =
      some (update sub' addr afp) := by
  induction subs generalizing i sub with
  | nil =>
    obtain rfl := Option.some.inj h
    simp [McMoveClient.appDels, hd]
  | cons a subs ih =>
    obtain ⟨⟨st', afp'⟩, hcall, h⟩ := Option.bind_eq_some_iff.mp h
    have hne : i ≠ i + (a :: subs).length := by simp
    have hlength : i + (a :: subs).length = i + 1 + subs.length := by
      rw [List.length_cons]
      omega
    rw [List.cons_append, McMoveClient.appDels, update_of_ne hne, hlength]
    exact Option.bind_eq_some_iff.mpr ⟨_, hcall, ih h⟩

abbrev LoopMatches (C : Cluster κ) (t : State κ) (x : RunLoop.State) : Prop :=
  Matches (RunLoop.step C.sorter C.CACHE_LIMIT C.g_sublist) (LoopShown C) t x

omit [DecidableEq κ] in
theorem LoopShown.cases (h : LoopShown C s x) : ∃ dst group sub pc,
    x = ⟨{ s.main with dst }, group, sub, pc⟩ ∧
      Placed C s ⟨{ s.main with dst }, group, sub, pc⟩ := by
  obtain ⟨⟨dst, hhost⟩, hplaced⟩ := h
  obtain ⟨host, group, sub, pc⟩ := x
  obtain rfl := hhost
  exact ⟨dst, group, sub, pc, rfl, hplaced⟩

theorem loop_round {opened : Bool} {e : Round} {dat : Folder} {list : List (Text × Text)}
    (h : LoopShown C s x) (ht : step C s (.round opened e dat list) = some t) :
    LoopMatches C t x := by
  obtain ⟨dst, group, sub, pc, rfl, hplaced⟩ := h.cases
  simp only [step] at ht
  split at ht
  case h_2 => cases ht
  next hpc =>
  simp only [Placed, hpc] at hplaced
  obtain ⟨rfl, rfl, hfound⟩ := hplaced
  cases opened with
  | false =>
    obtain rfl := Option.some.inj ht
    exact matches_idle h
  | true =>
    obtain ⟨⟨thr, main⟩, hp, ht⟩ := Option.bind_eq_some_iff.mp ht
    have hown : RunLoop.prepare C.sorter C.CACHE_LIMIT e dat { s.main with dst } =
        some (thr, { main with dst }) :=
      (prepare_with s.main dat dst).trans (congrArg _ hp)
    have hround : RunLoop.step C.sorter C.CACHE_LIMIT C.g_sublist
        ⟨{ s.main with dst }, group, s.subAfp, .waiting⟩ (.round true e dat list) =
          if thr = -1 then some ⟨{ main with dst }, group, s.subAfp, .waiting⟩
          else some ⟨{ main with dst }, group, s.subAfp, .groups list 0⟩ := by
      simp only [RunLoop.step, hown]
      rfl
    split at ht
    · next hthr =>
      obtain rfl := Option.some.inj ht
      rw [if_pos hthr] at hround
      refine matches_one hround ⟨⟨dst, rfl⟩, ?_⟩
      simp only [Placed, hpc, true_and]
      exact hfound
    · next hthr =>
      obtain rfl := Option.some.inj ht
      rw [if_neg hthr] at hround
      exact matches_one hround ⟨⟨dst, rfl⟩, rfl, rfl, hfound⟩

theorem loop_ask {d : Delivery} {e : Round} {dat : Folder} (h : LoopShown C s x)
    (ht : step C s (.ask d e dat) = some t) : LoopMatches C t x := by
  obtain ⟨dst, group, sub, pc, rfl, hplaced⟩ := h.cases
  simp only [step] at ht
  split at ht
  case h_2 => cases ht
  next thr conf addr list n hpc =>
  simp only [Placed, hpc] at hplaced
  obtain ⟨rfl, rfl, hfound⟩ := hplaced
  let y : RunLoop.State := ⟨{ s.main with dst }, group, s.subAfp, .groups list n⟩
  have hnone : RunLoop.step C.sorter C.CACHE_LIMIT C.g_sublist
    ⟨{ s.main with dst }, group, s.subAfp, .groups ((conf, addr) :: list) n⟩
    (.preconf none allOpen false) = some y := rfl
  obtain ⟨rfl, -⟩ | ⟨-, i, st, count, host, -, hp, rfl⟩ := ask_cases ht
  · exact matches_one hnone ⟨⟨dst, rfl⟩, rfl, rfl, hfound⟩
  · have hdst : host.dst = (s.group i).host.dst := (preconf_files hp).1
    let u : State κ := { s with group :=
      (update s.group i ⟨host, if st = .ok then (s.group i).threads + 1 else (s.group i).threads⟩) }
    have hfound' : Found C u group := by
      refine hfound.of_same fun j ↦ ?_
      rcases eq_or_ne j i with rfl | hj
      · simp only [u, update_self, hdst]
      · simp only [u, update_of_ne hj]
    by_cases hok : d = .answered ∧ st = .ok
    · rw [if_pos hok]
      exact matches_idle ⟨⟨dst, rfl⟩, ⟨conf, rfl⟩, rfl, hfound'⟩
    · rw [if_neg hok]
      exact matches_one hnone ⟨⟨dst, rfl⟩, rfl, rfl, hfound'⟩

theorem loop_refill {mov : Opens} {listed : Bool} (h : LoopShown C s x)
    (ht : step C s (.refill mov listed) = some t) : LoopMatches C t x := by
  obtain ⟨dst, group, sub, pc, rfl, hplaced⟩ := h.cases
  simp only [step] at ht
  split at ht
  case h_2 => cases ht
  next result addr thr list n hpc =>
  simp only [Placed, hpc] at hplaced
  obtain ⟨⟨conf, rfl⟩, rfl, hfound⟩ := hplaced
  obtain ⟨⟨r, afp, org⟩, hmov, ht⟩ := Option.bind_eq_some_iff.mp ht
  have hpreconf : RunLoop.step C.sorter C.CACHE_LIMIT C.g_sublist
      ⟨{ s.main with dst }, group, s.subAfp, .groups ((conf, addr) :: list) n⟩
      (.preconf (some result) mov listed) =
        some ⟨{ s.main with afp, org, dst }, group, s.subAfp,
          if listed then .moving addr org.files.keys list (n + result)
          else .groups list (n + result)⟩ := by
    simp only [RunLoop.step, hmov]
    cases listed <;> rfl
  cases listed with
  | false =>
    obtain rfl := Option.some.inj ht
    exact matches_one hpreconf ⟨⟨dst, rfl⟩, rfl, rfl, hfound⟩
  | true =>
    obtain rfl := Option.some.inj ht
    exact matches_one hpreconf ⟨⟨dst, rfl⟩, rfl, rfl, hfound⟩

theorem step_transfer {σ : Sorter (Text × ℕ)} {LIMIT : ℕ} {g_sublist : List Text} {p : Parcel}
    {host : Host} {group : Text → GroupServer} {sub sub' : Text → Folder} {addr : Text}
    {f : FileName} {todo : List FileName} {list : List (Text × Text)} {n : ℤ} {grp : GroupServer}
    (h : McMoveClient.afpMoveFile g_sublist p host.org f (group addr, sub) = some (grp, sub')) :
    RunLoop.step σ LIMIT g_sublist ⟨host, group, sub, .moving addr (f :: todo) list n⟩
      (.transfer p) = some ⟨host, update group addr grp, sub', .moving addr todo list n⟩ :=
  Option.bind_eq_some_iff.mpr ⟨_, h, rfl⟩

theorem loop_send {opened stored : Bool} {d : Delivery}
    (hmove : ∀ a b g, C.move a = some g → C.move b = some g → a = b) (h : LoopShown C s x)
    (ht : step C s (.send opened d stored) = some t) : LoopMatches C t x := by
  obtain ⟨dst, group, sub, pc, rfl, hplaced⟩ := h.cases
  simp only [step] at ht
  split at ht
  case h_2 => cases ht
  next addr f todo thr list n hpc =>
  simp only [Placed, hpc] at hplaced
  obtain ⟨rfl, rfl, hfound⟩ := hplaced
  obtain ⟨_ | v, hsend, ht⟩ := Option.bind_eq_some_iff.mp ht
  · obtain rfl := Option.some.inj ht
    obtain ⟨_ | req, hreq, hsend⟩ := Option.bind_eq_some_iff.mp hsend
    · let p : Parcel := ⟨opened, .lost, stored, fun _ ↦ .lost⟩
      have htransfer : McMoveClient.afpMoveFile C.g_sublist p s.main.org f (group addr, s.subAfp) =
          some (group addr, s.subAfp) := Option.bind_eq_some_iff.mpr ⟨none, hreq, rfl⟩
      refine matches_one (step_transfer htransfer) ⟨⟨dst, rfl⟩, rfl, rfl, ?_⟩
      rwa [update_eq_self]
    · cases hgroup : C.move addr with
      | none =>
        rw [hgroup] at hsend
        cases hsend
      | some g =>
        rw [hgroup] at hsend
        obtain ⟨_, -, hsend⟩ := Option.bind_eq_some_iff.mp hsend
        cases hsend
  · obtain rfl := Option.some.inj ht
    obtain ⟨_ | req, hreq, hsend⟩ := Option.bind_eq_some_iff.mp hsend
    · cases hsend
    cases hgroup : C.move addr with
    | none =>
      rw [hgroup] at hsend
      obtain rfl := Option.some.inj (Option.some.inj hsend)
      let p : Parcel := ⟨opened, .lost, stored, fun _ ↦ .lost⟩
      refine matches_idle ⟨⟨dst, rfl⟩, rfl, p, req, .unavailable, group addr, hreq, rfl, rfl, ?_⟩
      rwa [update_eq_self]
    | some g =>
      rw [hgroup] at hsend
      obtain ⟨⟨st, d'⟩, hcall, hsend⟩ := Option.bind_eq_some_iff.mp hsend
      obtain rfl := Option.some.inj (Option.some.inj hsend)
      rw [← hfound addr g hgroup] at hcall
      obtain ⟨grp, hgrp, hdst⟩ := call_group hcall
      let p : Parcel := ⟨opened, d, stored, fun _ ↦ .lost⟩
      refine matches_idle ⟨⟨dst, rfl⟩, rfl, p, req, st, grp, hreq, hgrp, rfl, ?_⟩
      intro a i ha
      rcases eq_or_ne a addr with rfl | hne
      · obtain rfl := Option.some.inj (hgroup.symm.trans ha)
        simp only [update_self, hdst]
      · have hi : i ≠ g := fun he ↦ hne (hmove a addr g (he ▸ ha) hgroup)
        simp only [update_of_ne hne, update_of_ne hi]
        exact hfound a i ha

theorem loop_delete {d : Delivery} (h : LoopShown C s x) (ht : step C s (.delete d) = some t) :
    LoopMatches C t x := by
  obtain ⟨dst, group, sub, pc, rfl, hplaced⟩ := h.cases
  simp only [step] at ht
  split at ht
  case h_2 => cases ht
  next f i addr todo thr list n hpc =>
  simp only [Placed, hpc] at hplaced
  obtain ⟨rfl, p, req, st, grp, hread, hsend, hdels, hfound⟩ := hplaced
  split at ht
  · next addr' haddr =>
    obtain ⟨⟨st', afp⟩, hcall, ht⟩ := Option.bind_eq_some_iff.mp ht
    obtain rfl := Option.some.inj ht
    have hlt : i < C.g_sublist.length := (List.getElem?_eq_some_iff.mp haddr).1
    have hconcat := appDels_concat hdels hcall
    rw [List.length_take_of_le hlt.le, Nat.zero_add] at hconcat
    have htake : C.g_sublist.take (i + 1) = C.g_sublist.take i ++ [addr'] := by
      rw [List.take_add_one, haddr]
      rfl
    refine matches_idle ⟨⟨dst, rfl⟩, rfl, { p with dels := update p.dels i d }, req, st, grp, hread,
      hsend, ?_, hfound⟩
    rw [htake]
    exact hconcat
  · next hnone =>
    obtain rfl := Option.some.inj ht
    rw [List.take_of_length_le (List.getElem?_eq_none_iff.mp hnone)] at hdels
    have htransfer : McMoveClient.afpMoveFile C.g_sublist p s.main.org f (group addr, sub) =
        some (grp, s.subAfp) :=
      Option.bind_eq_some_iff.mpr ⟨some req, hread, Option.bind_eq_some_iff.mpr
        ⟨_, hsend, Option.bind_eq_some_iff.mpr ⟨_, hdels, rfl⟩⟩⟩
    exact matches_one (step_transfer htransfer) ⟨⟨dst, rfl⟩, rfl, rfl, hfound⟩

theorem loop_next (h : LoopShown C s x) (ht : step C s .next = some t) : LoopMatches C t x := by
  obtain ⟨dst, group, sub, pc, rfl, hplaced⟩ := h.cases
  simp only [step] at ht
  split at ht
  case h_3 => cases ht
  · next addr thr list n hpc =>
    simp only [Placed, hpc] at hplaced
    obtain ⟨rfl, rfl, hfound⟩ := hplaced
    obtain rfl := Option.some.inj ht
    exact matches_one (l := .next) rfl ⟨⟨dst, rfl⟩, rfl, rfl, hfound⟩
  · next thr n hpc =>
    simp only [Placed, hpc] at hplaced
    obtain ⟨rfl, rfl, hfound⟩ := hplaced
    obtain rfl := Option.some.inj ht
    exact matches_one (l := .next) rfl ⟨⟨dst, rfl⟩, rfl, rfl, hfound⟩

/-- In each step of the exchange the main loop does what it can do on its own, or nothing. -/
theorem loop_step {e : Label κ} (hmove : ∀ a b g, C.move a = some g → C.move b = some g → a = b)
    (h : LoopShown C s x) (ht : step C s e = some t) : LoopMatches C t x := by
  cases e with
  | round => exact loop_round h ht
  | ask => exact loop_ask h ht
  | refill => exact loop_refill h ht
  | send => exact loop_send hmove h ht
  | delete => exact loop_delete h ht
  | next => exact loop_next h ht
  | upload | handle | giveUp | leave =>
    obtain ⟨hpc, hsub, hmain, hgroup⟩ := served_frame (by trivial) ht
    exact matches_idle (h.of_same hpc hsub hmain fun i ↦ by rw [hgroup i])

/-- A run of the exchange is a run of the main loop, if no two addresses are one group's. -/
theorem loop_run {es : List (Label κ)} {group : Text → GroupServer}
    (hmove : ∀ a b g, C.move a = some g → C.move b = some g → a = b) (hs : s.pc = .waiting)
    (hgroup : Found C s group) (hr : exec (step C) s es = some t) :
    LoopMatches C t ⟨s.main, group, s.subAfp, .waiting⟩ := by
  refine exec_simulated (fun _ _ _ _ hs _ ht ↦ loop_step hmove hs ht) ⟨⟨_, rfl⟩, ?_⟩
    (eachStep_of_mem (G := fun _ ↦ True) fun _ _ ↦ trivial) hr
  simp only [Placed, hs, true_and]
  exact hgroup

end Loop

section Calls

def Call.handler (c : Call κ) : Mirrored.Handler := ⟨c.req, c.data, c.i, c.added, c.data_eq⟩

/-- The calls of `McServer::Afpmove` on their own, with the copies that they make. -/
structure CallsShown (s : State κ) (x : Mirrored.State) : Prop where
  replicas : x.replicas = ⟨s.main.dst, s.subDst⟩
  handlers : x.handlers = fun k ↦ (s.calls k).map Call.handler

def Label.Good : Label κ → Prop
  | .handle _ t => t = .good
  | _ => True

variable {x : Mirrored.State}

omit [DecidableEq κ] in
theorem CallsShown.of_same (h : CallsShown s x) (hmain : t.main.dst = s.main.dst)
    (hsub : t.subDst = s.subDst) (hcalls : t.calls = s.calls) : CallsShown t x :=
  ⟨by rw [h.replicas, hmain, hsub], by rw [h.handlers, hcalls]⟩

omit [DecidableEq κ] in
theorem handlers_update (calls : ℕ → Option (Call κ)) (k : ℕ) (o : Option (Call κ)) :
    (fun j ↦ (update calls k o j).map Call.handler) =
      update (fun j ↦ (calls j).map Call.handler) k (o.map Call.handler) :=
  comp_update (fun o : Option (Call κ) ↦ o.map Call.handler) calls k o

theorem handle_good {k : ℕ} {c : Call κ} (h : CallsShown s x) (hk : s.calls k = some c)
    (ht : handle C k .good c s = some t) : ∃ y,
      Mirrored.step C.g_sublist x (.handle k) = some y ∧ CallsShown t y := by
  obtain ⟨replicas, org, handlers, eviction⟩ := x
  obtain ⟨rfl, rfl⟩ := h
  have hhandler : (s.calls k).map Call.handler = some c.handler := by rw [hk]; rfl
  let u : Mirrored.State := ⟨⟨s.main.dst, s.subDst⟩, org, fun j ↦ (s.calls j).map Call.handler,
    eviction⟩
  suffices hstep : ∃ y, Mirrored.stepHandler C.g_sublist k c.handler u = some y ∧
      CallsShown t y by
    obtain ⟨y, hy, hshown⟩ := hstep
    exact ⟨y, Option.bind_eq_some_iff.mpr ⟨c.handler, hhandler, hy⟩, hshown⟩
  unfold Mirrored.stepHandler
  unfold handle at ht
  simp only at ht
  split at ht
  · next hadded =>
    obtain ⟨⟨st, r⟩, hwrite, ht⟩ := Option.bind_eq_some_iff.mp ht
    obtain ⟨rfl, rfl⟩ := McServer.writeMain_good c.data_eq hwrite
    obtain rfl := Option.some.inj ht
    rw [if_pos (show c.handler.added = true from hadded)]
    exact ⟨_, Option.bind_eq_some_iff.mpr ⟨_, hwrite, rfl⟩, rfl,
      (handlers_update s.calls k (some { c with i := c.i + 1, added := false })).symm⟩
  · next hadded =>
    rw [if_neg (show ¬ c.handler.added = true from hadded)]
    have hi : c.handler.i = c.i := rfl
    rw [hi]
    split at ht
    · next addr haddr =>
      obtain ⟨⟨st, r⟩, hadd, ht⟩ := Option.bind_eq_some_iff.mp ht
      obtain ⟨rfl, rfl⟩ := McServer.appAdd_good (data_request c.data_eq) hadd
      obtain rfl := Option.some.inj ht
      rw [haddr]
      exact ⟨_, Option.bind_eq_some_iff.mpr ⟨_, hadd, rfl⟩, rfl,
        (handlers_update s.calls k (some { c with added := true })).symm⟩
    · next hall =>
      have hnone : C.g_sublist[c.i]? = none := Option.eq_none_iff_forall_ne_some.mpr hall
      obtain rfl := Option.some.inj ht
      obtain ⟨hmain, -, hsub, -⟩ := release_main (s := s) c.client
      rw [hnone]
      refine ⟨_, rfl, ?_, (handlers_update s.calls k none).symm⟩
      rw [State.finish, hmain, hsub]

/-- In each step of the exchange in which no call fails the calls do what they can do on their
own, or nothing. What the eviction does to AFP_DIR is not theirs: it is another directory. -/
theorem mirrored_step {e : Label κ} (h : CallsShown s x) (he : e.Good) (ht : step C s e = some t) :
    Matches (Mirrored.step C.g_sublist) CallsShown t x := by
  cases e with
  | round | refill | send | delete | next =>
    obtain ⟨hcalls, hsub, hmain, -⟩ := loop_frame (by trivial) ht
    exact matches_idle (h.of_same hmain hsub hcalls)
  | ask d e dat =>
    simp only [step] at ht
    split at ht
    case h_2 => cases ht
    obtain ⟨rfl, -⟩ | ⟨-, _, _, _, _, -, -, rfl⟩ := ask_cases ht
    · exact matches_idle (h.of_same rfl rfl rfl)
    · exact matches_idle (h.of_same rfl rfl rfl)
  | upload g opened f arrives =>
    obtain ⟨-, rfl | ⟨req, k, hdata, -, hnone, rfl⟩⟩ := upload_cases ht
    · exact matches_idle h
    · obtain ⟨replicas, org, handlers, eviction⟩ := x
      obtain ⟨rfl, rfl⟩ := h
      let c : Call κ := ⟨req, req.val, 0, false, some g, hdata⟩
      let y : Mirrored.State := ⟨⟨s.main.dst, s.subDst⟩, org,
        update (fun j ↦ (s.calls j).map Call.handler) k (some c.handler), eviction⟩
      have hfree : (s.calls k).map Call.handler = none := by rw [hnone]; rfl
      have hstart : Mirrored.step C.g_sublist ⟨⟨s.main.dst, s.subDst⟩, org,
          fun j ↦ (s.calls j).map Call.handler, eviction⟩ (.start k req) = some y := by
        simp only [Mirrored.step]
        split
        · next data _ hdata' =>
          obtain rfl : data = req.val := Option.some.inj (hdata'.symm.trans hdata)
          rfl
        · next hnot => exact absurd hdata (hnot _ hfree)
      exact matches_one hstart ⟨rfl, (handlers_update s.calls k (some c)).symm⟩
  | handle k u =>
    obtain ⟨c, hk, ht⟩ := Option.bind_eq_some_iff.mp ht
    obtain rfl : u = .good := he
    obtain ⟨y, hy, hshown⟩ := handle_good h hk ht
    exact matches_one hy hshown
  | giveUp k =>
    obtain ⟨c, hk, rfl⟩ := Option.map_eq_some_iff.mp ht
    obtain ⟨hmain, -, hsub, -⟩ := release_main (s := s) c.client
    refine matches_idle ⟨by rw [h.replicas, hmain, hsub], ?_⟩
    rw [handlers_update, h.handlers]
    refine (update_eq_self_iff.mpr ?_).symm
    rw [hk]
    rfl
  | leave g =>
    obtain ⟨_, -, ht⟩ := Option.bind_eq_some_iff.mp ht
    obtain rfl := Option.some.inj ht
    exact matches_idle (h.of_same rfl rfl rfl)

theorem mirrored_run {es : List (Label κ)} (hes : ∀ e ∈ es, e.Good) (org : Folder)
    (hr : exec (step C) s es = some t) :
    Matches (Mirrored.step C.g_sublist) CallsShown t
      ⟨⟨s.main.dst, s.subDst⟩, org, fun k ↦ (s.calls k).map Call.handler, .idle⟩ :=
  exec_simulated (fun _ _ _ _ hs he ht ↦ mirrored_step hs he ht) ⟨rfl, rfl⟩ (eachStep_of_mem hes) hr

end Calls

end FingerMove.Service.Exchange
