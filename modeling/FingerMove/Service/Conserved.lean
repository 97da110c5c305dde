import FingerMove.Service.Exchange

namespace FingerMove.Service.Exchange

open CText Directory Tally ProDeal Function Machine Places

variable {κ : Type} [DecidableEq κ] {C : Cluster κ} {s t u : State κ}

/-- Every fingerprint that a directory or a request has was, with the same content,
in a directory or a request at the start. -/
theorem nothing_made_up {es : List (Label κ)} (h : exec (step C) s es = some t) :
    everything t.held ⊆ everything s.held :=
  run_everything (system C) h

def oneGroup : Cluster Unit where
  sorter := insertion _
  CACHE_LIMIT := 9
  GROUP_LIMIT _ := 9
  g_sublist := ["sub".toList]
  conf _ := some ()
  move _ := some ()

def oneUpload : State Unit where
  main := { emptyHost with afp := .ofList "afp" [("2.afp", "y")] }
  subAfp _ := .ofList "afp" [("2.afp", "y")]
  subDst _ := .ofList "dst" []
  group _ := ⟨{ emptyHost with
    afp := .ofList "afp" [("3.afp", "z")]
    org := .ofList "org" [("1.afp", "x")] }, 1⟩
  calls _ := none
  pc := .waiting

def oneCall : List (Label Unit) :=
  [.upload () true (FileName.ofC "1.afp".toList) (some 0), .handle 0 .good, .handle 0 .good]

def oneAsk : Label Unit :=
  .ask .answered quietRound (.ofList "runlog" [("server.log", "$$|3|\n")])

/-- The call returns; the next `Preconf` of the group refills ORG_DIR, and so does the main
cache, which sends the group what it has there. -/
def oneRound : List (Label Unit) :=
  [.handle 0 .good, .round true quietRound (.ofList "runlog" []) [("c".toList, "m".toList)],
    oneAsk, .refill allOpen true, .send true .answered true, .delete .answered, .delete .answered]

theorem nothing_made_up_oneCall : ∃ t,
    exec (step oneGroup) oneUpload (oneCall ++ oneRound) = some t ∧
      everything t.held ⊆ everything oneUpload.held := by
  obtain ⟨t, h⟩ : ∃ t, exec (step oneGroup) oneUpload (oneCall ++ oneRound) = some t := ⟨_, rfl⟩
  exact ⟨t, h, nothing_made_up h⟩

def oneContent : Text → Option Text
  | ['1', '.', 'a', 'f', 'p'] => some ['x']
  | ['2', '.', 'a', 'f', 'p'] => some ['y']
  | ['3', '.', 'a', 'f', 'p'] => some ['z']
  | _ => none

theorem oneUpload_agrees : Agree (everything oneUpload.held) := by
  have hone : ∀ x ∈ everything oneUpload.held, oneContent x.1.text = some x.2 := by
    rintro ⟨n, v⟩ hx
    obtain ⟨p, hp⟩ := mem_everything.mp hx
    cases p with
    | mainAfp | subAfp | groupAfp | groupOrg =>
      obtain ⟨rfl, ⟨⟩⟩ | hp := List.mem_cons.mp (AList.mem_lookup_iff.mp hp)
      · rfl
      · cases hp
    | mainOrg | mainDst | groupDst | subDst => cases hp
    | call =>
      obtain ⟨c, hc, -⟩ := hp
      cases hc
  intro n v w hv hw
  exact Option.some.inj ((hone _ hv).symm.trans (hone _ hw))

/-- Where the directories give each name one content, the main cache and the groups
keep every fingerprint throughout exactly when nobody empties ORG_DIR of one that
none of their other directories has. -/
theorem never_lost_iff (ha : Agree (everything s.held)) (es : List (Label κ)) :
    Always (step C) (fun t ↦ kept (stores κ) s.held ⊆ kept (stores κ) t.held) s es ↔
      EachStep (step C) (fun t e ↦ ∀ a b, refills C t e = some (a, b) →
        t.held b ∩ kept (stores κ) s.held ⊆ elsewhere (stores κ) b t.held) s es :=
  always_kept_iff (system C) ha subset_rfl

theorem eachStep_quiet {G : State κ → Place κ → Place κ → Prop} {es : List (Label κ)}
    (h : ∀ e ∈ es, ∀ u, refills C u e = none) :
    EachStep (step C) (fun t e ↦ ∀ a b, refills C t e = some (a, b) → G t a b) s es :=
  (eachStep_of_mem h).mono fun u e he a b hab ↦ by simp [he u] at hab

theorem never_lost_iff_oneCall :
    Always (step oneGroup) (fun t ↦ kept (stores Unit) oneUpload.held ⊆ kept (stores Unit) t.held)
      oneUpload (oneCall ++ oneRound) := by
  refine (never_lost_iff oneUpload_agrees (oneCall ++ oneRound)).mpr ?_
  have hsplit : oneCall ++ oneRound = (oneCall ++ oneRound.take 2) ++ oneRound.drop 2 := rfl
  obtain ⟨u, v, w, hu, hv, hw, hask, horg, hdst, hempty⟩ : ∃ u v w,
      exec (step oneGroup) oneUpload (oneCall ++ oneRound.take 2) = some u ∧
        step oneGroup u oneAsk = some v ∧ step oneGroup v (.refill allOpen true) = some w ∧
        refills oneGroup u oneAsk = some (.groupAfp (), .groupOrg ()) ∧
        (u.group ()).host.org.files.entries = [⟨.ofC "1.afp".toList, "x".toList⟩] ∧
        u.main.dst.files.lookup (.ofC "1.afp".toList) = some "x".toList ∧
        v.main.org.files = ∅ := ⟨_, _, _, rfl, rfl, rfl, rfl, rfl, rfl, rfl⟩
  rw [hsplit]
  refine EachStep.append (eachStep_quiet ?_) hu (.cons hv ?_ (.cons hw ?_ (eachStep_quiet ?_)))
  · intro e he u
    simp [oneCall, oneRound] at he
    obtain rfl | rfl | rfl | rfl | rfl := he <;> rfl
  · rintro a b hab ⟨n, x⟩ ⟨hn, -⟩
    obtain ⟨-, rfl⟩ := Prod.mk.inj (Option.some.inj (hask.symm.trans hab))
    have hn' := AList.mem_lookup_iff.mp hn
    rw [horg] at hn'
    obtain ⟨rfl, ⟨⟩⟩ | hn' := List.mem_cons.mp hn'
    · exact mem_elsewhere.mpr ⟨.mainDst, trivial, by simp, hdst⟩
    · cases hn'
  · rintro a b hab ⟨n, x⟩ ⟨hn, -⟩
    obtain ⟨-, rfl⟩ := Prod.mk.inj (Option.some.inj hab)
    change v.main.org.files.lookup n = some x at hn
    rw [hempty] at hn
    cases hn
  · intro e he u
    simp at he
    obtain rfl | rfl := he <;> rfl

section Arrivals

/-- The directories that fingerprints are written to by the servers. -/
def arrivals (κ : Type) : Set (Place κ) :=
  {p | match p with
    | .mainDst | .groupDst _ | .subDst _ => True
    | _ => False}

theorem arrivals_grow {e : Label κ} (ha : Agree (everything s.held)) (h : step C s e = some t)
    {p : Place κ} (hp : p ∈ arrivals κ) : s.held p ⊆ t.held p := by
  have hdurable : p ∈ durable κ := by
    cases p with
    | mainDst | groupDst | subDst => trivial
    | mainAfp | mainOrg | groupAfp | groupOrg | subAfp | call => exact hp.elim
  cases hr : refills C s e with
  | none => exact (quiet_step h hr).subset_of_mem ha hdurable
  | some ab =>
    obtain ⟨a, b⟩ := ab
    obtain ⟨hab, hrefill⟩ := refill_step h hr
    have hne : p ≠ a ∧ p ≠ b := by
      rcases hab with ⟨rfl, rfl⟩ | ⟨g, rfl, rfl⟩
      · exact ⟨fun he ↦ by simp [he, arrivals] at hp, fun he ↦ by simp [he, arrivals] at hp⟩
      · exact ⟨fun he ↦ by simp [he, arrivals] at hp, fun he ↦ by simp [he, arrivals] at hp⟩
    rw [hrefill.same p hne.1 hne.2]

theorem arrivals_grow_run {es : List (Label κ)} (ha : Agree (everything s.held))
    (h : exec (step C) s es = some t) {p : Place κ} (hp : p ∈ arrivals κ) :
    s.held p ⊆ t.held p := by
  have hrun := exec_invariant (G := fun _ ↦ True)
    (I := fun u ↦ Agree (everything u.held) ∧ s.held p ⊆ u.held p)
    (fun u e v hu _ hv ↦ ⟨hu.1.mono (step_everything (system C) hv),
      hu.2.trans (arrivals_grow hu.1 hv hp)⟩) ⟨ha, subset_rfl⟩ (fun _ _ ↦ trivial) h
  exact hrun.2

end Arrivals

section Copies

/-- The copies that a call has made before it came where it is. -/
structure Copied (C : Cluster κ) (x : Place κ → Set (FileName × Text)) (c : Call κ) : Prop where
  sub : ∀ addr ∈ C.g_sublist.take c.i, (c.req.file, c.data) ∈ x (.subDst addr)
  main : 0 < c.i → (c.req.file, c.data) ∈ x .mainDst
  next : c.added = true → ∀ addr, C.g_sublist[c.i]? = some addr →
    (c.req.file, c.data) ∈ x (.subDst addr)

variable {x y : Place κ → Set (FileName × Text)} {c c' : Call κ}

omit [DecidableEq κ] in
theorem Copied.mono (h : Copied C x c) (hxy : ∀ p ∈ arrivals κ, x p ⊆ y p) : Copied C y c where
  sub addr ha := hxy (.subDst addr) trivial (h.sub addr ha)
  main hi := hxy .mainDst trivial (h.main hi)
  next hc addr ha := hxy (.subDst addr) trivial (h.next hc addr ha)

omit [DecidableEq κ] in
theorem Copied.advance (h : Copied C x c) (hc : Advance C x c c') : Copied C x c' := by
  cases hc with
  | main hmain hadded =>
    refine ⟨fun addr haddr ↦ ?_, fun _ ↦ hmain, fun hf ↦ by simp at hf⟩
    rw [List.take_add_one] at haddr
    rcases List.mem_append.mp haddr with haddr | haddr
    · exact h.sub addr haddr
    · exact h.next hadded addr (by simpa using haddr)
  | sub addr hsub haddr =>
    refine ⟨h.sub, h.main, fun _ a ha ↦ ?_⟩
    obtain rfl : addr = a := Option.some.inj (haddr.symm.trans ha)
    exact hsub

theorem calls_same {e : Label κ} (h : step C s e = some t) :
    t.calls = s.calls ∨ (∃ g opened f arrives, e = .upload g opened f arrives) ∨
      (∃ k u, e = .handle k u) ∨ ∃ k, e = .giveUp k := by
  cases e with
  | upload g opened f arrives => exact .inr (.inl ⟨g, opened, f, arrives, rfl⟩)
  | handle k u => exact .inr (.inr (.inl ⟨k, u, rfl⟩))
  | giveUp k => exact .inr (.inr (.inr ⟨k, rfl⟩))
  | round | refill | send | delete | next => exact .inl (loop_frame (by trivial) h).1
  | ask d e dat =>
    left
    simp only [step] at h
    split at h
    · obtain ⟨rfl, -⟩ | ⟨-, _, _, _, _, -, -, rfl⟩ := ask_cases h
      · rfl
      · rfl
    · cases h
  | leave g =>
    left
    obtain ⟨_, -, h⟩ := Option.bind_eq_some_iff.mp h
    obtain rfl := Option.some.inj h
    rfl

theorem calls_upload {g : κ} {opened : Bool} {f : FileName} {arrives : Option ℕ} {k : ℕ}
    (h : upload g opened f arrives s = some t) (hk : t.calls k = some c) :
    s.calls k = some c ∨ (c.i = 0 ∧ c.added = false) := by
  obtain ⟨-, rfl | ⟨req, j, hdata, -, -, rfl⟩⟩ := upload_cases h
  · exact .inl hk
  · have hk' : update s.calls j (some ⟨req, req.val, 0, false, some g, hdata⟩) k = some c := hk
    rcases eq_or_ne k j with rfl | hne
    · rw [update_self] at hk'
      obtain rfl := Option.some.inj hk'
      exact .inr ⟨rfl, rfl⟩
    · rw [update_of_ne hne] at hk'
      exact .inl hk'

theorem calls_step {e : Label κ} {k : ℕ} (h : step C s e = some t) (hk : t.calls k = some c) :
    (∃ client, s.calls k = some { c with client }) ∨ (c.i = 0 ∧ c.added = false) ∨
      ∃ c₀, s.calls k = some c₀ ∧ Advance C t.held c₀ c := by
  obtain hsame | ⟨g, opened, f, arrives, rfl⟩ | ⟨j, u, rfl⟩ | ⟨j, rfl⟩ := calls_same h
  · exact .inl ⟨c.client, hsame ▸ hk⟩
  · obtain hold | hnew := calls_upload h hk
    · exact .inl ⟨c.client, hold⟩
    · exact .inr (.inl hnew)
  · obtain ⟨c₀, hj, h⟩ := Option.bind_eq_some_iff.mp h
    obtain ⟨v, hsame, -, rfl | ⟨c', hadv, rfl⟩⟩ := handle_cases hj h
    all_goals have hcalls : v.calls = s.calls := by rw [hsame]
    · have hk' : update v.calls j none k = some c := hk
      rcases eq_or_ne k j with rfl | hne
      · rw [update_self] at hk'
        cases hk'
      · rw [update_of_ne hne, hcalls] at hk'
        exact .inl ⟨c.client, hk'⟩
    · have hk' : update v.calls j (some c') k = some c := hk
      rcases eq_or_ne k j with rfl | hne
      · rw [update_self] at hk'
        obtain rfl := Option.some.inj hk'
        refine .inr (.inr ⟨c₀, hj, ?_⟩)
        rwa [held_goOn (hcalls ▸ hj) hadv.request.1 hadv.request.2]
      · rw [update_of_ne hne, hcalls] at hk'
        exact .inl ⟨c.client, hk'⟩
  · obtain ⟨c₀, hj, rfl⟩ := Option.map_eq_some_iff.mp h
    have hk' : update s.calls j (some { c₀ with client := none }) k = some c := hk
    rcases eq_or_ne k j with rfl | hne
    · rw [update_self] at hk'
      obtain rfl := Option.some.inj hk'
      exact .inl ⟨c₀.client, hj⟩
    · rw [update_of_ne hne] at hk'
      exact .inl ⟨c.client, hk'⟩

theorem copied_step {e : Label κ} (ha : Agree (everything s.held))
    (hs : ∀ k c, s.calls k = some c → Copied C s.held c) (h : step C s e = some t) :
    ∀ k c, t.calls k = some c → Copied C t.held c := by
  intro k c hk
  have hgrow : ∀ p ∈ arrivals κ, s.held p ⊆ t.held p := fun p hp ↦ arrivals_grow ha h hp
  obtain ⟨client, hold⟩ | ⟨hi, hadded⟩ | ⟨c₀, hold, hadv⟩ := calls_step h hk
  · have hcopied := (hs k _ hold).mono hgrow
    exact ⟨hcopied.sub, hcopied.main, hcopied.next⟩
  · exact ⟨fun addr haddr ↦ by simp [hi] at haddr, fun hpos ↦ absurd hpos (by omega),
      fun hc ↦ by simp [hadded] at hc⟩
  · exact ((hs k c₀ hold).mono hgrow).advance hadv

end Copies

/-- A call of `McServer::Afpmove` that has been through the whole list has, whatever
the other calls, the main loop and the groups did meanwhile, left its fingerprint
on every sub cache and on the main cache, and there it stays for the rest of the run. -/
theorem returned_everywhere {es fs : List (Label κ)} {k : ℕ} {c : Call κ}
    (ha : Agree (everything s.held)) (hs : ∀ k, s.calls k = none)
    (h : exec (step C) s es = some t) (hk : t.calls k = some c)
    (hi : C.g_sublist.length ≤ c.i) (hr : exec (step C) t fs = some u) :
    (∀ addr ∈ C.g_sublist, (u.subDst addr).files.lookup c.req.file = some c.data) ∧
      (C.g_sublist ≠ [] → u.main.dst.files.lookup c.req.file = some c.data) := by
  have hrun := exec_invariant (G := fun _ ↦ True)
    (I := fun u ↦ Agree (everything u.held) ∧ ∀ k c, u.calls k = some c → Copied C u.held c)
    (fun u e v hu _ hv ↦ ⟨hu.1.mono (step_everything (system C) hv), copied_step hu.1 hu.2 hv⟩)
    ⟨ha, fun k c hk ↦ by simp [hs k] at hk⟩ (fun _ _ ↦ trivial) h
  obtain ⟨hagree, hcopied⟩ := hrun
  have hgrow : ∀ p ∈ arrivals κ, t.held p ⊆ u.held p := fun p hp ↦ arrivals_grow_run hagree hr hp
  have hc := (hcopied k c hk).mono hgrow
  refine ⟨fun addr haddr ↦ hc.sub addr ?_, fun hne ↦ hc.main ?_⟩
  · rwa [List.take_of_length_le hi]
  · exact (List.length_pos_iff.mpr hne).trans_le hi

theorem returned_everywhere_oneCall : ∃ t c u, exec (step oneGroup) oneUpload oneCall = some t ∧
    t.calls 0 = some c ∧ exec (step oneGroup) t oneRound = some u ∧
      (∀ addr ∈ ["sub".toList], (u.subDst addr).files.lookup c.req.file = some c.data) ∧
      (["sub".toList] ≠ [] → u.main.dst.files.lookup c.req.file = some c.data) := by
  obtain ⟨t, c, u, h, hk, hi, hr⟩ : ∃ t c u, exec (step oneGroup) oneUpload oneCall = some t ∧
      t.calls 0 = some c ∧ 1 ≤ c.i ∧ exec (step oneGroup) t oneRound = some u :=
    ⟨_, _, _, rfl, rfl, le_rfl, rfl⟩
  exact ⟨t, c, u, h, hk, hr, returned_everywhere oneUpload_agrees (fun _ ↦ rfl) h hk hi hr⟩

end FingerMove.Service.Exchange
