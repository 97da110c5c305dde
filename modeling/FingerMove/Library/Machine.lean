import Mathlib.Data.List.Basic
import Mathlib.Data.Set.Basic

namespace FingerMove.Machine

variable {σ ε : Type*} (step : σ → ε → Option σ)

/-- Executes labels one after another; a label without a step has no result. -/
def exec : σ → List ε → Option σ
  | s, [] => some s
  | s, e :: es => (step s e).bind fun t ↦ exec t es

def Always (P : σ → Prop) : σ → List ε → Prop
  | s, [] => P s
  | s, e :: es => P s ∧ ∀ t, step s e = some t → Always P t es

def EachStep (G : σ → ε → Prop) : σ → List ε → Prop
  | _, [] => True
  | s, e :: es => ∀ t, step s e = some t → G s e ∧ EachStep G t es

variable {step}

theorem exec_cons {s t : σ} {e : ε} {es : List ε} (h : exec step s (e :: es) = some t) :
    ∃ u, step s e = some u ∧ exec step u es = some t := Option.bind_eq_some_iff.mp h

theorem exec_append {s t : σ} {es fs : List ε} (h : exec step s es = some t) :
    exec step s (es ++ fs) = exec step t fs := by
  induction es generalizing s with
  | nil => rw [List.nil_append, Option.some.inj h]
  | cons e es ih =>
    obtain ⟨u, hu, h⟩ := exec_cons h
    rw [List.cons_append, exec, hu, Option.bind_some, ih h]

theorem exec_concat {s t : σ} {es : List ε} {e : ε} (h : exec step s (es ++ [e]) = some t) :
    ∃ u, exec step s es = some u ∧ step u e = some t := by
  induction es generalizing s with
  | nil =>
    obtain ⟨u, hu, h⟩ := exec_cons h
    obtain rfl := Option.some.inj h
    exact ⟨s, rfl, hu⟩
  | cons d es ih =>
    obtain ⟨u, hu, h⟩ := exec_cons h
    obtain ⟨v, hv, h⟩ := ih h
    exact ⟨v, Option.bind_eq_some_iff.mpr ⟨u, hu, hv⟩, h⟩

theorem Always.start {P : σ → Prop} {s : σ} {es : List ε} (h : Always step P s es) : P s := by
  cases es with
  | nil => exact h
  | cons e es => exact h.1

theorem Always.exec {P : σ → Prop} {s t : σ} {es : List ε} (h : Always step P s es)
    (hr : exec step s es = some t) : P t := by
  induction es generalizing s with
  | nil => exact Option.some.inj hr ▸ h
  | cons e es ih =>
    obtain ⟨u, hu, hr⟩ := exec_cons hr
    exact ih (h.2 u hu) hr

theorem Always.mono {P Q : σ → Prop} (hPQ : ∀ s, P s → Q s) {s : σ} {es : List ε}
    (h : Always step P s es) : Always step Q s es := by
  induction es generalizing s with
  | nil => exact hPQ s h
  | cons e es ih => exact ⟨hPQ s h.1, fun t ht ↦ ih (h.2 t ht)⟩

theorem EachStep.cons {G : σ → ε → Prop} {s t : σ} {e : ε} {es : List ε} (ht : step s e = some t)
    (hg : G s e) (h : EachStep step G t es) : EachStep step G s (e :: es) := by
  intro u hu
  obtain rfl := Option.some.inj (ht.symm.trans hu)
  exact ⟨hg, h⟩

theorem EachStep.append {G : σ → ε → Prop} {s t : σ} {es fs : List ε} (h : EachStep step G s es)
    (hr : exec step s es = some t) (hf : EachStep step G t fs) : EachStep step G s (es ++ fs) := by
  induction es generalizing s with
  | nil =>
    obtain rfl := Option.some.inj hr
    exact hf
  | cons e es ih =>
    obtain ⟨u, hu, hr⟩ := exec_cons hr
    exact .cons hu (h u hu).1 (ih (h u hu).2 hr)

theorem EachStep.mono {G H : σ → ε → Prop} (hGH : ∀ s e, G s e → H s e) {s : σ} {es : List ε}
    (h : EachStep step G s es) : EachStep step H s es := by
  induction es generalizing s with
  | nil => trivial
  | cons e es ih => exact fun t ht ↦ ⟨hGH s e (h t ht).1, ih (h t ht).2⟩

theorem eachStep_of_mem {G : ε → Prop} {s : σ} {es : List ε} (h : ∀ e ∈ es, G e) :
    EachStep step (fun _ ↦ G) s es := by
  induction es generalizing s with
  | nil => trivial
  | cons e es ih =>
    obtain ⟨he, hes⟩ := List.forall_mem_cons.mp h
    exact fun t _ ↦ ⟨he, ih hes⟩

theorem EachStep.of_mem {G : σ → ε → Prop} {s t : σ} {es : List ε} (h : EachStep step G s es)
    (hr : exec step s es = some t) {e : ε} (he : e ∈ es) : ∃ u, G u e := by
  induction es generalizing s with
  | nil => cases he
  | cons d es ih =>
    obtain ⟨u, hu, hr⟩ := exec_cons hr
    rcases List.mem_cons.mp he with rfl | he
    · exact ⟨s, (h u hu).1⟩
    · exact ih (h u hu).2 hr he

/-- The invariant rule: steps meeting `G` preserve `P`, so a run of such steps
keeps `P` in every state it visits. -/
theorem always_of_eachStep {P : σ → Prop} {G : σ → ε → Prop}
    (hs : ∀ s e t, P s → G s e → step s e = some t → P t)
    {s : σ} {es : List ε} (h : P s) (hg : EachStep step G s es) : Always step P s es := by
  induction es generalizing s with
  | nil => exact h
  | cons e es ih =>
    refine ⟨h, ?_⟩
    intro t ht
    obtain ⟨hge, hgt⟩ := hg t ht
    exact ih (hs s e t h hge ht) hgt

theorem exec_invariant {I : σ → Prop} {G : ε → Prop}
    (hs : ∀ s e t, I s → G e → step s e = some t → I t)
    {es : List ε} {s t : σ} (h : I s) (hg : ∀ e ∈ es, G e) (hr : exec step s es = some t) :
    I t := by
  induction es generalizing s with
  | nil => exact Option.some.inj hr ▸ h
  | cons e es ih =>
    obtain ⟨u, hu, hr⟩ := exec_cons hr
    obtain ⟨hge, hges⟩ := List.forall_mem_cons.mp hg
    exact ih (hs s e u h hge hu) hges hr

section Simulation

variable {τ φ : Type*} (step' : τ → φ → Option τ) (R : σ → τ → Prop)

/-- From `x` another machine has a run to a state that stands for `t`. -/
def Matches (t : σ) (x : τ) : Prop := ∃ fs y, exec step' x fs = some y ∧ R t y

variable {step' R} {t : σ} {x y : τ}

theorem matches_idle (h : R t x) : Matches step' R t x := ⟨[], x, rfl, h⟩

theorem matches_one {l : φ} (hl : step' x l = some y) (h : R t y) : Matches step' R t x :=
  ⟨[l], y, by rw [exec, hl]; rfl, h⟩

/-- Where another machine matches each step by a run of its own, it matches each run. -/
theorem exec_simulated {G : σ → ε → Prop}
    (hs : ∀ s e t x, R s x → G s e → step s e = some t → Matches step' R t x)
    {es : List ε} {s t : σ} {x : τ} (h : R s x) (hg : EachStep step G s es)
    (hr : exec step s es = some t) : Matches step' R t x := by
  induction es generalizing s x with
  | nil =>
    obtain rfl := Option.some.inj hr
    exact matches_idle h
  | cons e es ih =>
    obtain ⟨u, hu, hr⟩ := exec_cons hr
    obtain ⟨hge, hges⟩ := hg u hu
    obtain ⟨fs, y, hy, hR⟩ := hs s e u x h hge hu
    obtain ⟨fs', z, hz, hR'⟩ := ih hR hges hr
    exact ⟨fs ++ fs', z, by rw [exec_append hy, hz], hR'⟩

end Simulation

theorem length_add_le {I : σ → Prop} {G : σ → ε → Prop} {μ : σ → ℕ}
    (hs : ∀ s e t, I s → G s e → step s e = some t → I t ∧ μ t < μ s)
    {es : List ε} {s t : σ} (h : I s) (hg : EachStep step G s es) (hr : exec step s es = some t) :
    I t ∧ es.length + μ t ≤ μ s := by
  induction es generalizing s with
  | nil =>
    obtain rfl := Option.some.inj hr
    exact ⟨h, (Nat.zero_add _).le⟩
  | cons e es ih =>
    obtain ⟨u, hu, hr⟩ := exec_cons hr
    obtain ⟨hge, hges⟩ := hg u hu
    obtain ⟨hi, hlt⟩ := hs s e u h hge hu
    obtain ⟨ht, hle⟩ := ih hi hges hr
    rw [List.length_cons]
    exact ⟨ht, by omega⟩

theorem exists_maximal {I : σ → Prop} {G : σ → ε → Prop} {μ : σ → ℕ}
    (hs : ∀ s e t, I s → G s e → step s e = some t → I t ∧ μ t < μ s) {s : σ} (h : I s) :
    ∃ es t, EachStep step G s es ∧ exec step s es = some t ∧ I t ∧
      ∀ e, G t e → step t e = none := by
  induction hn : μ s using Nat.strong_induction_on generalizing s with
  | _ n ih =>
    by_cases hstop : ∀ e, G s e → step s e = none
    · exact ⟨[], s, trivial, rfl, h, hstop⟩
    · push Not at hstop
      obtain ⟨e, he, hne⟩ := hstop
      obtain ⟨u, hu⟩ := Option.ne_none_iff_exists'.mp hne
      obtain ⟨hi, hlt⟩ := hs s e u h he hu
      obtain ⟨es, t, hes, ht, hit, hmax⟩ := ih (μ u) (hn ▸ hlt) hi rfl
      exact ⟨e :: es, t, .cons hu he hes, by rw [exec, hu]; exact ht, hit, hmax⟩

end FingerMove.Machine
