import FingerMove.Service.McServer

namespace FingerMove.Service

open CText Directory ProDeal Function

/-- A server's answer to a fingerprint: it stores just the bytes of `val`, or refuses. -/
def Sent (req : FingerValue) (r : Option (Status × Folder)) : Prop :=
  ∃ st d, r = some (st, d) ∧
    (st = .ok ∧ d.files.lookup req.file = some req.val ∨ st = .cancelled)

section Store

variable {opened : Bool} {req : FingerValue} {data : Text} {dst : Folder}

theorem storeFinger_returns (hfits : dst.fits req.file = true) (hdata : req.data = some data) :
    storeFinger opened req dst =
      some (if opened then (.ok, dst.write req.file data) else (.cancelled, dst)) := by
  unfold storeFinger Folder.fopenW
  rw [if_pos hfits, hdata]
  cases opened <;> rfl

theorem data_eq_some_iff : req.data = some data ↔
    0 ≤ req.len ∧ req.len ≤ req.val.length ∧ data = req.val.take req.len.toNat := by
  unfold FingerValue.data
  split
  · next h => simp [h, eq_comm]
  · next h =>
    refine iff_of_false (Option.some_ne_none data).symm ?_
    intro hcon
    exact h ⟨hcon.1, hcon.2.1⟩

theorem len_of_data (h : req.data = some req.val) : req.len = req.val.length := by
  obtain ⟨hpos, hle, htake⟩ := data_eq_some_iff.mp h
  have hlength := congrArg List.length htake
  rw [List.length_take] at hlength
  omega

theorem storeFinger_sent_iff (hfits : dst.fits req.file = true) :
    Sent req (storeFinger opened req dst) ↔ opened = false ∨ req.len = req.val.length := by
  cases opened with
  | false =>
    refine iff_of_true ⟨.cancelled, dst, ?_, .inr rfl⟩ (.inl rfl)
    unfold storeFinger Folder.fopenW
    rw [if_pos hfits]
    rfl
  | true =>
    rw [or_iff_right Bool.true_eq_false.mp]
    constructor
    · intro h
      obtain ⟨st, d, h, hst⟩ := h
      obtain ⟨data, hdata⟩ : ∃ data, req.data = some data := by
        obtain ⟨_, hopen, h⟩ := Option.bind_eq_some_iff.mp h
        obtain rfl := fopenW_eq_some hopen
        obtain ⟨data, hdata, -⟩ := Option.bind_eq_some_iff.mp h
        exact ⟨data, hdata⟩
      obtain ⟨rfl, rfl⟩ := storeFinger_opened hdata h
      obtain ⟨-, hlookup⟩ | hrefused := hst
      · rw [lookup_write_self] at hlookup
        exact len_of_data (hdata.trans hlookup)
      · cases hrefused
    · intro hlen
      have hdata := data_of_len hlen
      exact ⟨.ok, dst.write req.file req.val, storeFinger_returns hfits hdata,
        .inl ⟨rfl, lookup_write_self _⟩⟩

end Store

def Turn.Succeeds (t : Turn) : Prop := t.add = .answered ∧ t.stored = true ∧ t.opened = true

def Replicas.Fits (s : Replicas) (g_sublist : List Text) (f : FileName) : Prop :=
  s.main.fits f = true ∧ ∀ addr ∈ g_sublist, (s.sub addr).fits f = true

namespace McServer

/-- The message that `Afpmove` sends on to the sub caches. -/
def forwarded (req : FingerValue) : Option FingerValue := do
  let data ← req.data
  return { req with val := data }

/-- The answer of the main cache: `val` and `len` go to every sub cache as they came,
and all store just the bytes of `val`, or the request is refused. -/
def SentOn (g_sublist : List Text) (req : FingerValue) (r : Option (Status × Replicas)) : Prop :=
  ∃ st s', r = some (st, s') ∧
    (st = .ok ∧ forwarded req = some req ∧ StoredEverywhere g_sublist req s' ∨ st = .cancelled)

variable {g_sublist subs : List Text} {turns : ℕ → Turn} {req request : FingerValue}
variable {data : Text} {s s' : Replicas} {st : Status} {t : Turn} {addr : Text} {f : FileName}

theorem appAdd_returns (hrequest : request.data = some data)
    (hfits : (s.sub addr).fits request.file = true) :
    ∃ st s', appAdd t request addr s = some (st, s') ∧
      (st = .ok ↔ t.add = .answered ∧ t.stored = true) := by
  have hstore : ScServer.addafps t.stored request (s.sub addr) = some (if t.stored then
      (.ok, (s.sub addr).write request.file data) else (.cancelled, s.sub addr)) :=
    storeFinger_returns hfits hrequest
  unfold appAdd
  cases hadd : t.add with
  | lost => exact ⟨.unavailable, _, rfl, by simp⟩
  | noReply =>
    simp only [Delivery.call, hstore]
    exact ⟨.unavailable, _, rfl, by simp⟩
  | answered =>
    simp only [Delivery.call, hstore]
    cases t.stored with
    | false => exact ⟨.cancelled, _, rfl, by simp⟩
    | true => exact ⟨.ok, _, rfl, by simp⟩

theorem writeMain_returns (hreq : req.data = some data) (hfits : s.main.fits req.file = true) :
    ∃ st s', writeMain t req s = some (st, s') ∧ (st = .ok ↔ t.opened = true) := by
  unfold writeMain
  rw [storeFinger_returns hfits hreq]
  cases t.opened with
  | false => exact ⟨.cancelled, _, rfl, by simp⟩
  | true => exact ⟨.ok, _, rfl, by simp⟩

theorem fits_add (h : s.Fits subs f) (addr d : Text) :
    Replicas.Fits { s with sub := update s.sub addr ((s.sub addr).write f d) } subs f := by
  refine ⟨h.1, ?_⟩
  intro a ha
  show (update s.sub addr ((s.sub addr).write f d) a).fits f = true
  rcases eq_or_ne a addr with rfl | hne
  · rw [update_self]
    exact h.2 a ha
  · rw [update_of_ne hne]
    exact h.2 a ha

theorem succeed_cons (turns : ℕ → Turn) (i n : ℕ) :
    (∀ j < n + 1, (turns (i + j)).Succeeds) ↔
      (turns i).Succeeds ∧ ∀ j < n, (turns (i + 1 + j)).Succeeds := by
  simp only [Nat.forall_lt_succ_left, Nat.add_zero, Nat.add_right_comm i 1, ← Nat.add_assoc]

theorem afpmoveLoop_returns {i : ℕ} (hreq : req.data = some data)
    (hrequest : request.data = some data) (hfile : request.file = req.file)
    (hfits : s.Fits subs req.file) :
    ∃ st s', afpmoveLoop req request turns i subs s = some (st, s') ∧
      (st = .ok ↔ ∀ j < subs.length, (turns (i + j)).Succeeds) := by
  induction subs generalizing i s with
  | nil => exact ⟨.ok, s, rfl, by simp⟩
  | cons addr subs ih =>
    have hhead : (s.sub addr).fits request.file = true := hfile ▸ hfits.2 addr List.mem_cons_self
    have htail : s.Fits subs req.file :=
      ⟨hfits.1, fun a ha ↦ hfits.2 a (List.mem_cons_of_mem addr ha)⟩
    obtain ⟨st₁, s₁, hadd, hok₁⟩ : ∃ st s', appAdd (turns i) request addr s = some (st, s') ∧
      (st = .ok ↔ (turns i).add = .answered ∧ (turns i).stored = true) :=
        appAdd_returns hrequest hhead
    rw [List.length_cons, succeed_cons, afpmoveLoop, hadd]
    by_cases h₁ : st₁ = .ok
    · obtain ⟨hne, -⟩ | rfl := appAdd_cases hrequest hadd
      · exact absurd h₁ hne
      · rw [hfile]
        have hfits₁ : Replicas.Fits
            { s with sub := update s.sub addr ((s.sub addr).write req.file data) } subs req.file :=
          fits_add htail addr data
        have hfits₂ : Replicas.Fits ⟨s.main.write req.file data,
            update s.sub addr ((s.sub addr).write req.file data)⟩ subs req.file := hfits₁
        obtain ⟨st₂, s₂, hwrite, hok₂⟩ : ∃ st s', writeMain (turns i) req _ = some (st, s') ∧
          (st = .ok ↔ (turns i).opened = true) := writeMain_returns hreq hfits₁.1
        have hhere : st₂ = .ok ↔ (turns i).Succeeds := by
          rw [hok₂]
          exact ⟨fun h ↦ ⟨(hok₁.mp h₁).1, (hok₁.mp h₁).2, h⟩, fun h ↦ h.2.2⟩
        simp only [Option.bind_eq_bind, Option.bind_some, hwrite, h₁, ne_eq, not_true, if_false]
        by_cases h₂ : st₂ = .ok
        · obtain ⟨rfl, -⟩ | ⟨-, rfl⟩ := writeMain_cases hreq hwrite
          · cases h₂
          · obtain ⟨st, s', hloop, hok⟩ := ih (i := i + 1) hfits₂
            refine ⟨st, s', ?_, ?_⟩
            · simpa [h₂] using hloop
            · rw [hok, and_iff_right (hhere.mp h₂)]
        · refine ⟨.cancelled, s₂, by simp [h₂], iff_of_false (by simp) ?_⟩
          intro hcon
          exact h₂ (hhere.mpr hcon.1)
    · refine ⟨.cancelled, s₁, ?_, ?_⟩
      · simp [h₁]
      · refine iff_of_false (by simp) ?_
        intro hcon
        exact h₁ (hok₁.mpr ⟨hcon.1.1, hcon.1.2.1⟩)

theorem afpmove_sent_iff (hne : g_sublist ≠ []) (hfits : s.Fits g_sublist req.file) :
    SentOn g_sublist req (afpmove g_sublist turns req s) ↔ req.len = req.val.length ∨
      0 ≤ req.len ∧ req.len ≤ req.val.length ∧ ∃ i < g_sublist.length, ¬ (turns i).Succeeds := by
  constructor
  · intro h
    obtain ⟨st, s', h, hsent⟩ := h
    obtain ⟨data, hdata, -⟩ := afpmove_reached h
    obtain ⟨hpos, hle, -⟩ := data_eq_some_iff.mp hdata
    rw [or_iff_not_imp_right]
    intro hall
    have hall : ∀ j < g_sublist.length, (turns (0 + j)).Succeeds := by
      intro j hj
      by_contra hfail
      exact hall ⟨hpos, hle, j, hj, Nat.zero_add j ▸ hfail⟩
    obtain ⟨st', t, hloop, hok⟩ := afpmoveLoop_returns hdata (data_request hdata) rfl hfits
    have hmove : afpmove g_sublist turns req s = some (st', t) := by
      rw [afpmove, hdata]
      exact hloop
    obtain ⟨rfl, rfl⟩ := Prod.mk.inj (Option.some.inj (h.symm.trans hmove))
    obtain ⟨-, hforward, -⟩ | hrefused := hsent
    · rw [forwarded, hdata] at hforward
      have hval : data = req.val := congrArg FingerValue.val (Option.some.inj hforward)
      exact len_of_data (hval ▸ hdata)
    · rw [hok.mpr hall] at hrefused
      cases hrefused
  · intro hcond
    have hbounds : 0 ≤ req.len ∧ req.len ≤ req.val.length := by
      obtain hlen | ⟨hpos, hle, -⟩ := hcond
      · omega
      · exact ⟨hpos, hle⟩
    have hdata : req.data = some (req.val.take req.len.toNat) :=
      data_eq_some_iff.mpr ⟨hbounds.1, hbounds.2, rfl⟩
    obtain ⟨st, s', hloop, hok⟩ := afpmoveLoop_returns hdata (data_request hdata) rfl hfits
    have hmove : afpmove g_sublist turns req s = some (st, s') := by
      rw [afpmove, hdata]
      exact hloop
    refine ⟨st, s', hmove, ?_⟩
    obtain ⟨_, -, ⟨hst, -⟩ | ⟨hst, -⟩⟩ := afpmove_reached hmove
    · left
      have hlen : req.len = req.val.length := by
        obtain hlen | ⟨-, -, i, hi, hfail⟩ := hcond
        · exact hlen
        · exact absurd (Nat.zero_add i ▸ hok.mp hst i hi) hfail
      subst hst
      refine ⟨rfl, ?_, stored_of_ok hlen (.inl hne) hmove⟩
      rw [forwarded, data_of_len hlen]
      rfl
    · exact .inr hst

end McServer

/-- A handler that answers OK has stored, and sent on, just what it was sent
exactly when `len` is the length of `val`, or something fails and the request is
refused; the main cache reads `len` bytes even then. -/
theorem stored_as_sent_iff (req : FingerValue) :
    (∀ opened (dst : Folder), dst.fits req.file = true →
      ((Sent req (GMServer.afpmove opened req dst) ↔
        opened = false ∨ req.len = req.val.length) ∧
      (Sent req (ScServer.addafps opened req dst) ↔
        opened = false ∨ req.len = req.val.length))) ∧
    ∀ g_sublist turns (s : Replicas), g_sublist ≠ [] → s.Fits g_sublist req.file →
      (McServer.SentOn g_sublist req (McServer.afpmove g_sublist turns req s) ↔
        req.len = req.val.length ∨ 0 ≤ req.len ∧ req.len ≤ req.val.length ∧
          ∃ i < g_sublist.length, ¬ (turns i).Succeeds) := by
  refine ⟨?_, ?_⟩
  · intro opened dst hfits
    exact ⟨storeFinger_sent_iff hfits, storeFinger_sent_iff hfits⟩
  · intro g_sublist turns s hne hfits
    exact McServer.afpmove_sent_iff hne hfits

def shortLen : FingerValue := ⟨"1.afp".toList, "xyz".toList, 2⟩

def noFile : Folder := .ofList "dst" []

theorem stored_as_sent_iff_short : Sent shortLen (GMServer.afpmove false shortLen noFile) ∧
    ¬ Sent shortLen (GMServer.afpmove true shortLen noFile) := by
  obtain ⟨hstore, -⟩ := stored_as_sent_iff shortLen
  refine ⟨(hstore false noFile (by decide)).1.mpr (.inl rfl), ?_⟩
  intro h
  exact absurd ((hstore true noFile (by decide)).1.mp h) (by decide)

/-- A server answers OK and stores less than it was sent; with a `len` below zero
it reads beyond `val`. -/
theorem stored_part : (∃ d, GMServer.afpmove true shortLen noFile = some (.ok, d) ∧
      d.files.lookup shortLen.file = some "xy".toList) ∧
    ScServer.addafps true { shortLen with len := -1 } noFile = none :=
  ⟨⟨_, rfl, rfl⟩, rfl⟩

end FingerMove.Service
