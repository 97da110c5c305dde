import FingerMove.Library.Staging
import FingerMove.Service.Clients

namespace FingerMove.Service.HandOver

open CText Directory Tally ProDeal Machine Staging

/-- A group: its files, the transfer threads that run, and the fingerprints
that the main cache has answered OK for. -/
structure State where
  host : Host
  threads : ℕ
  acked : List (FileName × Text)

/-- A call of `Preconf` under the searches logged so far, an iteration of a
running `GrMoveClient::afpMove` with the entry it reads, and its end. -/
inductive Label
  | preconf (e : Round) (dat : Folder) (num : ℤ)
  | iterate (opened : Bool) (f : FileName)
  | finish

variable (σ : Sorter (Text × ℕ)) (GROUP_LIMIT : ℕ)

def step (s : State) : Label → Option State
  | .preconf e dat num => do
    let ((status, _), host) ← preconf σ GROUP_LIMIT e num { s.host with dat }
    return { s with host, threads := if status = .ok then s.threads + 1 else s.threads }
  | .iterate opened f => do
    guard (0 < s.threads ∧ f ∈ s.host.org.files)
    let some req ← readFinger opened s.host.org f | return s
    return { s with acked := (req.file, req.val) :: s.acked }
  | .finish => do
    guard (0 < s.threads)
    return { s with threads := s.threads - 1 }

def Refills (s : State) : Label → Prop
  | .preconf e dat num => e.mov.call 0 = true ∧
      ∃ n h', preconf σ GROUP_LIMIT e num { s.host with dat } = some ((.ok, n), h')
  | _ => False

variable {σ GROUP_LIMIT} {s t : State}

theorem step_preconf {e : Round} {dat : Folder} {num : ℤ}
    (h : step σ GROUP_LIMIT s (.preconf e dat num) = some t) : t.acked = s.acked ∧
      ((t.host.afp = s.host.afp ∧ t.host.org = s.host.org ∧
        ¬ Refills σ GROUP_LIMIT s (.preconf e dat num)) ∨
      (Refills σ GROUP_LIMIT s (.preconf e dat num) ∧
        files t.host.afp.files ∪ files t.host.org.files = files s.host.afp.files)) := by
  obtain ⟨⟨⟨st, n⟩, host⟩, hp, h⟩ := Option.bind_eq_some_iff.mp h
  obtain rfl := Option.some.inj h
  refine ⟨rfl, ?_⟩
  by_cases hst : st = .ok
  · subst hst
    obtain ⟨_, wrk, r, -, -, -, hmov⟩ := preconf_ok hp
    obtain ⟨hopen, hafp, horg⟩ | ⟨hopen, hfiles⟩ := movFiles_keeps hmov
    · exact .inl ⟨hafp, horg, by simp [Refills, hopen]⟩
    · exact .inr ⟨⟨hopen, n, host, hp⟩, hfiles⟩
  · obtain ⟨hafp, horg⟩ := preconf_keeps hp hst
    refine .inl ⟨hafp, horg, ?_⟩
    rintro ⟨-, m, h', hp'⟩
    rw [hp] at hp'
    simp only [Option.some.injEq, Prod.mk.injEq] at hp'
    exact hst hp'.1.1

theorem step_thread {e : Label} (h : step σ GROUP_LIMIT s e = some t)
    (he : ∀ r dat num, e ≠ .preconf r dat num) : t.host = s.host ∧ s.acked ⊆ t.acked := by
  cases e with
  | preconf r dat num => exact absurd rfl (he r dat num)
  | iterate opened f =>
    simp only [step, Option.bind_eq_bind, Option.bind_eq_some_iff] at h
    obtain ⟨_, _, _ | req, _, h⟩ := h
    · obtain rfl := Option.some.inj h
      exact ⟨rfl, List.Subset.refl _⟩
    · obtain rfl := Option.some.inj h
      exact ⟨rfl, List.subset_cons_self _ _⟩
  | finish =>
    simp only [step, Option.bind_eq_bind, Option.bind_eq_some_iff] at h
    obtain ⟨_, _, h⟩ := h
    obtain rfl := Option.some.inj h
    exact ⟨rfl, List.Subset.refl _⟩

def handOver : Transfer (step σ GROUP_LIMIT) (FileName × Text) where
  source s := files s.host.afp.files
  buffer s := files s.host.org.files
  delivered s := {x | x ∈ s.acked}
  refills := Refills σ GROUP_LIMIT
  quiet s e t h hr := by
    cases e with
    | preconf e dat num =>
      obtain ⟨hacked, ⟨hafp, horg, -⟩ | ⟨hrefill, -⟩⟩ := step_preconf h
      · rw [hafp, horg, hacked]
        exact ⟨rfl, rfl, subset_rfl⟩
      · exact absurd hrefill hr
    | iterate | finish =>
      obtain ⟨hhost, hacked⟩ := step_thread h (by simp)
      rw [hhost]
      exact ⟨rfl, rfl, fun x hx ↦ hacked hx⟩
  refill s e t h hr := by
    cases e with
    | preconf e dat num =>
      obtain ⟨hacked, ⟨-, -, hquiet⟩ | ⟨-, hfiles⟩⟩ := step_preconf h
      · exact absurd hr hquiet
      · rw [hacked]
        exact ⟨hfiles, rfl⟩
    | iterate | finish => exact hr.elim

/-- A group keeps every fingerprint of its AFP_DIR exactly when no `Preconf`
empties ORG_DIR of one that no thread has sent. -/
theorem handOver_kept_iff (s : State) (es : List Label) :
    Always (step σ GROUP_LIMIT) (fun t ↦ files s.host.afp.files ⊆
      files t.host.afp.files ∪ files t.host.org.files ∪ {x | x ∈ t.acked}) s es ↔
    EachStep (step σ GROUP_LIMIT) (fun t e ↦ Refills σ GROUP_LIMIT t e →
      files t.host.org.files ∩ files s.host.afp.files ⊆
        files t.host.afp.files ∪ {x | x ∈ t.acked}) s es :=
  always_kept_iff handOver (kept_refl handOver s)

def twoFingers : State where
  host := {
    afp := .ofList "afp" [("1.afp", "x"), ("2.afp", "y")]
    dat := .ofList "runlog" []
    wrk := .ofList "wrk" []
    org := .ofList "org" []
    dst := .ofList "dst" []
    log := .ofList "log" [] }
  threads := 0
  acked := []

def request : Label :=
  .preconf ⟨allOpen, allOpen, allOpen, allOpen, allOpen, allOpen, []⟩
    (.ofList "runlog" [("server.log", "$$|1|\n$$|2|\n")]) 0

theorem fingerprint_overtaken : ¬ Always (step (insertion _) 1) (fun t ↦
    files twoFingers.host.afp.files ⊆
      files t.host.afp.files ∪ files t.host.org.files ∪ {x | x ∈ t.acked})
    twoFingers [request, request] := by
  intro h
  have hmem : (FileName.ofC "1.afp".toList, "x".toList) ∈ files twoFingers.host.afp.files := rfl
  rcases Always.exec h (t := _) rfl hmem with (hafp | horg) | hacked
  · cases (show none = some _ from hafp)
  · cases (show none = some _ from horg)
  · cases hacked

end FingerMove.Service.HandOver
