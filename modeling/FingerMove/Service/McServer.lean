import FingerMove.Service.Servers

namespace FingerMove.Service

open CText Directory ProDeal Function

theorem data_request {req : FingerValue} {data : Text} (h : req.data = some data) :
    ({ req with val := data } : FingerValue).data = some data := by
  unfold FingerValue.data at h ⊢
  split at h
  · next hlen =>
    obtain rfl := Option.some.inj h
    have hle : req.len.toNat ≤ req.val.length := by omega
    rw [if_pos (by simp only [List.length_take]; omega), List.take_take, min_self]
  · cases h

namespace McServer

variable {t : Turn} {req request : FingerValue} {addr : Text} {s s' : Replicas} {st : Status}
variable {data : Text}

theorem appAdd_cases (hdata : request.data = some data)
    (h : appAdd t request addr s = some (st, s')) : (st ≠ .ok ∧ s' = s) ∨
      s' = { s with sub := update s.sub addr ((s.sub addr).write request.file data) } := by
  obtain ⟨⟨_, d⟩, hcall, h⟩ := Option.bind_eq_some_iff.mp h
  obtain ⟨rfl, rfl⟩ := Prod.mk.inj (Option.some.inj h)
  obtain ⟨rfl, rfl⟩ | ⟨st', hstore, hok⟩ := call_cases hcall
  · exact .inl ⟨by simp, by rw [update_eq_self]⟩
  · obtain ⟨-, rfl, rfl⟩ | ⟨-, -, rfl⟩ := storeFinger_cases hdata hstore
    · exact .inl ⟨fun he ↦ by simpa using hok he, by rw [update_eq_self]⟩
    · exact .inr rfl

theorem writeMain_cases (hdata : req.data = some data) (h : writeMain t req s = some (st, s')) :
    (st = .cancelled ∧ s' = s) ∨
      (st = .ok ∧ s' = { s with main := s.main.write req.file data }) := by
  obtain ⟨⟨_, d⟩, hstore, h⟩ := Option.bind_eq_some_iff.mp h
  obtain ⟨rfl, rfl⟩ := Prod.mk.inj (Option.some.inj h)
  obtain ⟨-, rfl, rfl⟩ | ⟨-, rfl, rfl⟩ := storeFinger_cases hdata hstore
  · exact .inl ⟨rfl, rfl⟩
  · exact .inr ⟨rfl, rfl⟩

theorem appAdd_good (hdata : request.data = some data)
    (h : appAdd .good request addr s = some (st, s')) : st = .ok ∧
      s' = { s with sub := update s.sub addr ((s.sub addr).write request.file data) } := by
  obtain ⟨⟨_, d⟩, hstore, h⟩ := Option.bind_eq_some_iff.mp h
  obtain ⟨rfl, rfl⟩ := Prod.mk.inj (Option.some.inj h)
  obtain ⟨rfl, rfl⟩ := storeFinger_opened hdata hstore
  exact ⟨rfl, rfl⟩

theorem writeMain_good (hdata : req.data = some data)
    (h : writeMain .good req s = some (st, s')) :
    st = .ok ∧ s' = { s with main := s.main.write req.file data } := by
  obtain ⟨⟨_, d⟩, hstore, h⟩ := Option.bind_eq_some_iff.mp h
  obtain ⟨rfl, rfl⟩ := Prod.mk.inj (Option.some.inj h)
  obtain ⟨rfl, rfl⟩ := storeFinger_opened hdata hstore
  exact ⟨rfl, rfl⟩

theorem turn_good {r : Replicas} (hrequest : request.data = some data) (hreq : req.data = some data)
    (hadd : appAdd t request addr s = some (.ok, s'))
    (hwrite : writeMain t req s' = some (.ok, r)) : t = .good := by
  obtain ⟨add, stored, opened⟩ := t
  obtain ⟨⟨_, d⟩, hstore, hst⟩ := Option.bind_eq_some_iff.mp hwrite
  obtain ⟨rfl, -⟩ := Prod.mk.inj (Option.some.inj hst)
  obtain ⟨-, hcancelled, -⟩ | ⟨hopened, -⟩ := storeFinger_cases hreq hstore
  · cases hcancelled
  obtain ⟨⟨_, d'⟩, hcall, hst⟩ := Option.bind_eq_some_iff.mp hadd
  obtain ⟨rfl, -⟩ := Prod.mk.inj (Option.some.inj hst)
  cases add with
  | lost => cases hcall
  | noReply =>
    obtain ⟨_, -, hst⟩ := Option.map_eq_some_iff.mp hcall
    cases hst
  | answered =>
    obtain ⟨-, hcancelled, -⟩ | ⟨hstored, -⟩ := storeFinger_cases hrequest hcall
    · cases hcancelled
    · exact congrArg₂ (Turn.mk .answered) hstored hopened

/-- What a call of `Afpmove` has done when the first `p` of its iterations are
complete and at most the next one has begun. -/
structure Reached (f : FileName) (data : Text) (subs : List Text) (s s' : Replicas) (p : ℕ) :
    Prop where
  main_start : p = 0 → s'.main = s.main
  main_held : 0 < p → s'.main.files.lookup f = some data
  sub_held : ∀ addr ∈ subs.take p, (s'.sub addr).files.lookup f = some data
  sub_value : ∀ addr, (s'.sub addr).files.lookup f = (s.sub addr).files.lookup f ∨
    (s'.sub addr).files.lookup f = some data
  sub_fresh : ∀ addr ∉ subs.take (p + 1), s'.sub addr = s.sub addr
  main_other : ∀ g ≠ f, s'.main.files.lookup g = s.main.files.lookup g
  sub_other : ∀ addr, ∀ g ≠ f, (s'.sub addr).files.lookup g = (s.sub addr).files.lookup g

theorem reached_refl (f : FileName) (data : Text) (subs : List Text) (s : Replicas) :
    Reached f data subs s s 0 where
  main_start _ := rfl
  main_held h := absurd h (Nat.lt_irrefl 0)
  sub_held addr h := by simp at h
  sub_value _ := .inl rfl
  sub_fresh _ _ := rfl
  main_other _ _ := rfl
  sub_other _ _ _ := rfl

theorem reached_add (f : FileName) (data : Text) (subs : List Text) (s : Replicas) :
    Reached f data (addr :: subs) s { s with sub := update s.sub addr ((s.sub addr).write f data) }
      0 where
  main_start _ := rfl
  main_held h := absurd h (Nat.lt_irrefl 0)
  sub_held a h := by simp at h
  sub_value a := by
    rcases eq_or_ne a addr with rfl | ha
    · exact .inr (by simp)
    · exact .inl (by simp [ha])
  sub_fresh a ha := by
    have hne : a ≠ addr := by simpa using ha
    simp [hne]
  main_other _ _ := rfl
  sub_other a g hg := by
    rcases eq_or_ne a addr with rfl | ha
    · simp [lookup_write_ne hg]
    · simp [ha]

theorem Reached.cons {f : FileName} {subs : List Text} {p : ℕ}
    (h : Reached f data subs
      ⟨s.main.write f data, update s.sub addr ((s.sub addr).write f data)⟩ s' p) :
    Reached f data (addr :: subs) s s' (p + 1) where
  main_start h0 := absurd h0 (Nat.succ_ne_zero p)
  main_held _ := by
    rcases Nat.eq_zero_or_pos p with hp | hp
    · simp [h.main_start hp]
    · exact h.main_held hp
  sub_held a ha := by
    rcases eq_or_ne a addr with rfl | hne
    · rcases h.sub_value a with hv | hv
      · simpa using hv
      · exact hv
    · exact h.sub_held a (by simpa [hne] using ha)
  sub_value a := by
    rcases eq_or_ne a addr with rfl | hne
    · exact .inr (by rcases h.sub_value a with hv | hv <;> simpa using hv)
    · simpa [hne] using h.sub_value a
  sub_fresh a ha := by
    obtain ⟨hne, ha⟩ : a ≠ addr ∧ a ∉ subs.take (p + 1) := by simpa using ha
    simpa [hne] using h.sub_fresh a ha
  main_other g hg := (h.main_other g hg).trans (lookup_write_ne hg data)
  sub_other a g hg := by
    rw [h.sub_other a g hg]
    rcases eq_or_ne a addr with rfl | hne
    · simp [lookup_write_ne hg]
    · simp [hne]

theorem afpmoveLoop_reached {turns : ℕ → Turn} {i : ℕ} {subs : List Text}
    (hreq : req.data = some data) (hrequest : request.data = some data)
    (hfile : request.file = req.file) (h : afpmoveLoop req request turns i subs s = some (st, s')) :
    (st = .ok ∧ Reached req.file data subs s s' subs.length) ∨
      (st = .cancelled ∧ ∃ p < subs.length, (∀ j < p, turns (i + j) = .good) ∧
        turns (i + p) ≠ .good ∧ Reached req.file data subs s s' p) := by
  induction subs generalizing i s with
  | nil =>
    obtain ⟨rfl, rfl⟩ := Prod.mk.inj (Option.some.inj h)
    exact .inl ⟨rfl, reached_refl _ _ _ _⟩
  | cons addr subs ih =>
    simp only [afpmoveLoop, Option.bind_eq_bind, Option.bind_eq_some_iff] at h
    obtain ⟨⟨st₁, s₁⟩, hcall, h⟩ := h
    have hadd := appAdd_cases hrequest hcall
    rw [hfile] at hadd
    split at h
    · -- `appAdd` fails, before or after the sub cache has stored the file
      next hfail =>
      obtain ⟨rfl, rfl⟩ := Prod.mk.inj (Option.some.inj h)
      have hbad : turns (i + 0) ≠ .good := by
        intro hgood
        rw [Nat.add_zero] at hgood
        exact hfail (appAdd_good hrequest (hgood ▸ hcall)).1
      refine .inr ⟨rfl, 0, by simp, by simp, hbad, ?_⟩
      rcases hadd with ⟨-, rfl⟩ | rfl
      · exact reached_refl _ _ _ _
      · exact reached_add _ _ _ _
    · next hok =>
      rw [not_not] at hok
      subst hok
      rcases hadd with ⟨hne, -⟩ | rfl
      · exact absurd rfl hne
      · simp only [Option.bind_eq_some_iff] at h
        obtain ⟨⟨st₂, s₂⟩, hwrite, h⟩ := h
        split at h
        · next hfail =>
          -- DST_DIR cannot be written, and the sub cache keeps the file
          obtain ⟨rfl, rfl⟩ := Prod.mk.inj (Option.some.inj h)
          have hbad : turns (i + 0) ≠ .good := by
            intro hgood
            rw [Nat.add_zero] at hgood
            exact hfail (writeMain_good hreq (hgood ▸ hwrite)).1
          rcases writeMain_cases hreq hwrite with ⟨-, rfl⟩ | ⟨rfl, -⟩
          · exact .inr ⟨rfl, 0, by simp, by simp, hbad, reached_add _ _ _ _⟩
          · simp at hfail
        · next hok₂ =>
          rcases writeMain_cases hreq hwrite with ⟨rfl, -⟩ | ⟨rfl, rfl⟩
          · simp at hok₂
          · rcases ih h with ⟨rfl, hr⟩ | ⟨rfl, p, hp, hgood, hbad, hr⟩
            · exact .inl ⟨rfl, hr.cons⟩
            · refine .inr ⟨rfl, p + 1, by simpa using hp, ?_, ?_, hr.cons⟩
              · rintro (_ | j) hj
                · exact turn_good hrequest hreq hcall hwrite
                · rw [← Nat.add_assoc, Nat.add_right_comm]
                  exact hgood j (by omega)
              · rwa [← Nat.add_assoc, Nat.add_right_comm]

theorem afpmove_reached {g_sublist : List Text} {turns : ℕ → Turn}
    (h : afpmove g_sublist turns req s = some (st, s')) : ∃ data, req.data = some data ∧
      ((st = .ok ∧ Reached req.file data g_sublist s s' g_sublist.length) ∨
        (st = .cancelled ∧ ∃ p < g_sublist.length, (∀ i < p, turns i = .good) ∧
          turns p ≠ .good ∧ Reached req.file data g_sublist s s' p)) := by
  simp only [afpmove, Option.bind_eq_bind, Option.bind_eq_some_iff] at h
  obtain ⟨data, hdata, h⟩ := h
  have hreached := afpmoveLoop_reached hdata (data_request hdata) rfl h
  simp only [Nat.zero_add] at hreached
  exact ⟨data, hdata, hreached⟩

variable {g_sublist : List Text} {turns : ℕ → Turn}

def StoredEverywhere (g_sublist : List Text) (req : FingerValue) (s : Replicas) : Prop :=
  s.main.files.lookup req.file = some req.val ∧
    ∀ addr ∈ g_sublist, (s.sub addr).files.lookup req.file = some req.val

theorem stored_of_ok (hlen : req.len = req.val.length)
    (hcond : g_sublist ≠ [] ∨ s.main.files.lookup req.file = some req.val)
    (h : afpmove g_sublist turns req s = some (.ok, s')) : StoredEverywhere g_sublist req s' := by
  obtain ⟨data, hdata, ⟨-, hr⟩ | ⟨hst, -⟩⟩ := afpmove_reached h
  · obtain rfl := Option.some.inj ((data_of_len hlen).symm.trans hdata)
    refine ⟨?_, fun addr haddr ↦ hr.sub_held addr (by rwa [List.take_length])⟩
    rcases Nat.eq_zero_or_pos g_sublist.length with h0 | hpos
    · rw [hr.main_start h0]
      exact hcond.resolve_left (not_not.mpr (List.length_eq_zero_iff.mp h0))
    · exact hr.main_held hpos
  · cases hst

/-- An answer OK means that the fingerprint is stored everywhere exactly when
there is a sub cache, since the write to DST_DIR is in the loop over them. -/
theorem afpmove_ok_stored_iff (hlen : req.len = req.val.length) :
    (∀ s', afpmove g_sublist turns req s = some (.ok, s') → StoredEverywhere g_sublist req s') ↔
      g_sublist ≠ [] ∨ s.main.files.lookup req.file = some req.val := by
  have hdata := data_of_len hlen
  constructor
  · intro h
    apply or_iff_not_imp_left.mpr
    intro hnil
    rw [not_not] at hnil
    refine (h s ?_).1
    rw [hnil, afpmove, hdata]
    rfl
  · exact fun hcond s' ↦ stored_of_ok hlen hcond

def newFinger : FingerValue := ⟨"1.afp".toList, "x".toList, 1⟩

def noFiles : Replicas := ⟨.ofList "dst" [], fun _ ↦ .ofList "dst" []⟩

theorem afpmove_ok_stored_iff_two_subs :
    (∀ s', afpmove ["a".toList, "b".toList] (fun _ ↦ Turn.good) newFinger noFiles = some (.ok, s') →
      StoredEverywhere ["a".toList, "b".toList] newFinger s') ↔
      ["a".toList, "b".toList] ≠ [] ∨
        noFiles.main.files.lookup newFinger.file = some newFinger.val :=
  afpmove_ok_stored_iff rfl

theorem afpmove_ok_not_stored : ∃ s',
    afpmove [] (fun _ ↦ Turn.good) newFinger noFiles = some (.ok, s') ∧
      ¬ StoredEverywhere [] newFinger s' :=
  ⟨noFiles, rfl, fun h ↦ absurd h.1 (by decide)⟩

/-- The first turn that fails leaves what the iterations before it did: no more than the
file of the request changes, and only on the replicas that the loop has come to. -/
theorem afpmove_cancelled (h : afpmove g_sublist turns req s = some (.cancelled, s')) :
    ∃ data, req.data = some data ∧ ∃ p < g_sublist.length, (∀ i < p, turns i = .good) ∧
      turns p ≠ .good ∧ Reached req.file data g_sublist s s' p := by
  obtain ⟨data, hdata, ⟨hst, -⟩ | ⟨-, hp⟩⟩ := afpmove_reached h
  · cases hst
  · exact ⟨data, hdata, hp⟩

def secondLost (i : ℕ) : Turn := if i = 1 then ⟨.lost, true, true⟩ else Turn.good

theorem afpmove_cancelled_second : ∃ s',
    afpmove ["a".toList, "b".toList] secondLost newFinger noFiles = some (.cancelled, s') ∧
      ∃ data, newFinger.data = some data ∧ ∃ p < 2, (∀ i < p, secondLost i = .good) ∧
        secondLost p ≠ .good ∧
          Reached newFinger.file data ["a".toList, "b".toList] noFiles s' p := by
  obtain ⟨s', h⟩ : ∃ s', afpmove ["a".toList, "b".toList] secondLost newFinger noFiles =
    some (.cancelled, s') := ⟨_, rfl⟩
  exact ⟨s', h, afpmove_cancelled h⟩

theorem afpmove_cancelled_changed : ∃ s',
    afpmove ["a".toList, "b".toList] secondLost newFinger noFiles = some (.cancelled, s') ∧
      s'.main.files.lookup newFinger.file ≠ noFiles.main.files.lookup newFinger.file ∧
      (s'.sub "a".toList).files.lookup newFinger.file ≠
        (s'.sub "b".toList).files.lookup newFinger.file :=
  ⟨_, rfl, by decide, by decide⟩

end McServer

end FingerMove.Service
