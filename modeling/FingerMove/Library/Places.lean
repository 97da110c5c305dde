import FingerMove.Library.Machine
import Mathlib.Data.Set.Lattice
import Mathlib.Logic.Function.Basic

namespace FingerMove.Places

open Function Machine

variable {P ν τ : Type*} [DecidableEq P]

def Agree (S : Set (ν × τ)) : Prop := ∀ n v w, (n, v) ∈ S → (n, w) ∈ S → v = w

def put (n : ν) (v : τ) (S : Set (ν × τ)) : Set (ν × τ) := insert (n, v) {x ∈ S | x.1 ≠ n}

def everything (x : P → Set (ν × τ)) : Set (ν × τ) := ⋃ p, x p

def kept (stores : Set P) (x : P → Set (ν × τ)) : Set (ν × τ) := ⋃ p ∈ stores, x p

/-- A step that empties none of the `stores`: places take entries that others
have, and places that are no stores may lose some. -/
inductive Quiet (stores : Set P) : (P → Set (ν × τ)) → (P → Set (ν × τ)) → Prop
  | refl (x : P → Set (ν × τ)) : Quiet stores x x
  | take {x y : P → Set (ν × τ)} (p q : P) (n : ν) (v : τ) : (n, v) ∈ x q →
      Quiet stores (update x p (put n v (x p))) y → Quiet stores x y
  | drop {x y : P → Set (ν × τ)} (p : P) (S : Set (ν × τ)) : p ∉ stores → S ⊆ x p →
      Quiet stores (update x p S) y → Quiet stores x y

/-- A step that empties the place `b` and moves entries of `a` there. -/
structure Refill (a b : P) (x y : P → Set (ν × τ)) : Prop where
  ne : a ≠ b
  split : y a ∪ y b = x a
  same : ∀ p, p ≠ a → p ≠ b → y p = x p

def elsewhere (stores : Set P) (b : P) (x : P → Set (ν × τ)) : Set (ν × τ) :=
  ⋃ p ∈ {p ∈ stores | p ≠ b}, x p

variable {stores : Set P} {x y : P → Set (ν × τ)} {a b : P}

omit [DecidableEq P] in
theorem Agree.mono {S T : Set (ν × τ)} (h : Agree T) (hs : S ⊆ T) : Agree S :=
  fun n v w hv hw ↦ h n v w (hs hv) (hs hw)

omit [DecidableEq P] in
theorem mem_everything {e : ν × τ} : e ∈ everything x ↔ ∃ p, e ∈ x p := Set.mem_iUnion

omit [DecidableEq P] in
theorem mem_kept {e : ν × τ} : e ∈ kept stores x ↔ ∃ p ∈ stores, e ∈ x p := by
  simp [kept]

omit [DecidableEq P] in
theorem mem_elsewhere {e : ν × τ} :
    e ∈ elsewhere stores b x ↔ ∃ p ∈ stores, p ≠ b ∧ e ∈ x p := by
  simp [elsewhere, and_assoc]

theorem everything_take {p q : P} {n : ν} {v : τ} (h : (n, v) ∈ x q) :
    everything (update x p (put n v (x p))) ⊆ everything x := by
  intro e he
  obtain ⟨r, hr⟩ := mem_everything.mp he
  rcases eq_or_ne r p with rfl | hne
  · rw [update_self] at hr
    rcases hr with rfl | hr
    · exact mem_everything.mpr ⟨q, h⟩
    · exact mem_everything.mpr ⟨r, hr.1⟩
  · rw [update_of_ne hne] at hr
    exact mem_everything.mpr ⟨r, hr⟩

theorem everything_drop {p : P} {S : Set (ν × τ)} (h : S ⊆ x p) :
    everything (update x p S) ⊆ everything x := by
  intro e he
  obtain ⟨r, hr⟩ := mem_everything.mp he
  rcases eq_or_ne r p with rfl | hne
  · rw [update_self] at hr
    exact mem_everything.mpr ⟨r, h hr⟩
  · rw [update_of_ne hne] at hr
    exact mem_everything.mpr ⟨r, hr⟩

theorem Quiet.trans {z : P → Set (ν × τ)} (h : Quiet stores x y) (hz : Quiet stores y z) :
    Quiet stores x z := by
  induction h with
  | refl => exact hz
  | take p q n v hv _ ih => exact .take p q n v hv (ih hz)
  | drop p S hp hS _ ih => exact .drop p S hp hS (ih hz)

theorem Quiet.everything_subset (h : Quiet stores x y) : everything y ⊆ everything x := by
  induction h with
  | refl => exact subset_rfl
  | take p q n v hv _ ih => exact ih.trans (everything_take hv)
  | drop p S _ hS _ ih => exact ih.trans (everything_drop hS)

omit [DecidableEq P] in
theorem Refill.everything_subset (h : Refill a b x y) : everything y ⊆ everything x := by
  intro e he
  obtain ⟨p, hp⟩ := mem_everything.mp he
  by_cases hab : p = a ∨ p = b
  · have hsplit : e ∈ y a ∪ y b := by
      rcases hab with rfl | rfl
      · exact .inl hp
      · exact .inr hp
    exact mem_everything.mpr ⟨a, h.split ▸ hsplit⟩
  · push Not at hab
    rw [h.same p hab.1 hab.2] at hp
    exact mem_everything.mpr ⟨p, hp⟩

omit [DecidableEq P] in
theorem subset_put {S : Set (ν × τ)} {n : ν} {v : τ} (h : ∀ w, (n, w) ∈ S → w = v) :
    S ⊆ put n v S := by
  rintro ⟨m, w⟩ hm
  rcases eq_or_ne m n with rfl | hne
  · exact .inl (by rw [h w hm])
  · exact .inr ⟨hm, hne⟩

/-- As long as names have one value each, a store overwrites nothing by another. -/
theorem Quiet.subset_of_mem (h : Quiet stores x y) (ha : Agree (everything x)) {r : P}
    (hr : r ∈ stores) : x r ⊆ y r := by
  induction h with
  | refl => exact subset_rfl
  | @take x y p q n v hv _ ih =>
    refine Set.Subset.trans ?_ (ih (ha.mono (everything_take hv)))
    rcases eq_or_ne r p with rfl | hne
    · rw [update_self]
      refine subset_put fun w hw ↦ ?_
      exact ha n w v (mem_everything.mpr ⟨r, hw⟩) (mem_everything.mpr ⟨q, hv⟩)
    · rw [update_of_ne hne]
  | @drop x y p S hp hS _ ih =>
    refine Set.Subset.trans ?_ (ih (ha.mono (everything_drop hS)))
    rw [update_of_ne (by rintro rfl; exact hp hr)]

theorem Quiet.kept_subset (h : Quiet stores x y) (ha : Agree (everything x)) :
    kept stores x ⊆ kept stores y := by
  intro e he
  obtain ⟨p, hp, he⟩ := mem_kept.mp he
  exact mem_kept.mpr ⟨p, hp, h.subset_of_mem ha hp he⟩

theorem Quiet.mono {S : Set P} (h : Quiet stores x y) (hs : S ⊆ stores) : Quiet S x y := by
  induction h with
  | refl x => exact .refl x
  | take p q n v hv _ ih => exact .take p q n v hv ih
  | drop p T hp hT _ ih => exact .drop p T (fun h ↦ hp (hs h)) hT ih

omit [DecidableEq P] in
theorem Refill.kept_eq (h : Refill a b x y) (ha : a ∈ stores) (hb : b ∈ stores) :
    kept stores y = elsewhere stores b x := by
  ext e
  rw [mem_kept, mem_elsewhere]
  constructor
  · rintro ⟨p, hp, he⟩
    by_cases hab : p = a ∨ p = b
    · have hsplit : e ∈ y a ∪ y b := by
        rcases hab with rfl | rfl
        · exact .inl he
        · exact .inr he
      exact ⟨a, ha, h.ne, h.split ▸ hsplit⟩
    · push Not at hab
      exact ⟨p, hp, hab.2, h.same p hab.1 hab.2 ▸ he⟩
  · rintro ⟨p, hp, hpb, he⟩
    by_cases hpa : p = a
    · subst hpa
      rw [← h.split] at he
      rcases he with he | he
      · exact ⟨p, hp, he⟩
      · exact ⟨b, hb, he⟩
    · exact ⟨p, hp, (h.same p hpa hpb).symm ▸ he⟩

section Runs

variable {σ ε : Type*} {step : σ → ε → Option σ}

/-- A system whose steps are quiet or refills, by their labels. -/
structure System (step : σ → ε → Option σ) (P ν τ : Type*) [DecidableEq P] where
  stores : Set P
  held : σ → P → Set (ν × τ)
  refills : σ → ε → Option (P × P)
  quiet : ∀ s e t, step s e = some t → refills s e = none → Quiet stores (held s) (held t)
  refill : ∀ s e t a b, step s e = some t → refills s e = some (a, b) →
    a ∈ stores ∧ b ∈ stores ∧ Refill a b (held s) (held t)

variable (S : System step P ν τ) {s t : σ} {es : List ε}

theorem step_everything {e : ε} (h : step s e = some t) :
    everything (S.held t) ⊆ everything (S.held s) := by
  cases hr : S.refills s e with
  | none => exact (S.quiet s e t h hr).everything_subset
  | some ab => exact (S.refill s e t ab.1 ab.2 h hr).2.2.everything_subset

theorem run_everything (h : exec step s es = some t) :
    everything (S.held t) ⊆ everything (S.held s) := by
  have hsub := exec_invariant (I := fun u ↦ everything (S.held u) ⊆ everything (S.held s))
    (G := fun _ ↦ True) (fun u e v hu _ hv ↦ (step_everything S hv).trans hu) subset_rfl
    (fun _ _ ↦ trivial) h
  exact hsub

def Spares (K : Set (ν × τ)) (s : σ) (e : ε) : Prop :=
  ∀ a b, S.refills s e = some (a, b) → S.held s b ∩ K ⊆ elsewhere S.stores b (S.held s)

theorem step_kept {K : Set (ν × τ)} {e : ε} (ha : Agree (everything (S.held s)))
    (hK : K ⊆ kept S.stores (S.held s)) (h : step s e = some t) :
    K ⊆ kept S.stores (S.held t) ↔ Spares S K s e := by
  cases hr : S.refills s e with
  | none =>
    refine iff_of_true (hK.trans ((S.quiet s e t h hr).kept_subset ha)) ?_
    intro a b hab
    rw [hr] at hab
    cases hab
  | some ab =>
    obtain ⟨a, b⟩ := ab
    obtain ⟨hma, hmb, hrefill⟩ := S.refill s e t a b h hr
    rw [hrefill.kept_eq hma hmb]
    constructor
    · intro hsub a' b' hab x hx
      obtain ⟨rfl, rfl⟩ := Prod.mk.inj (Option.some.inj (hr.symm.trans hab))
      exact hsub hx.2
    · intro hspares x hx
      obtain ⟨p, hp, hxp⟩ := mem_kept.mp (hK hx)
      by_cases hpb : p = b
      · exact hspares a b hr ⟨hpb ▸ hxp, hx⟩
      · exact mem_elsewhere.mpr ⟨p, hp, hpb, hxp⟩

/-- Where names have one value each, a run keeps `K` in the stores throughout
exactly when each of its refills spares it. -/
theorem always_kept_iff {K : Set (ν × τ)} (ha : Agree (everything (S.held s)))
    (hK : K ⊆ kept S.stores (S.held s)) :
    Always step (fun t ↦ K ⊆ kept S.stores (S.held t)) s es ↔
      EachStep step (Spares S K) s es := by
  induction es generalizing s with
  | nil => exact iff_of_true hK trivial
  | cons e es ih =>
    constructor
    · intro halways t ht
      have hKt : K ⊆ kept S.stores (S.held t) := (halways.2 t ht).start
      exact ⟨(step_kept S ha hK ht).mp hKt,
        (ih (ha.mono (step_everything S ht)) hKt).mp (halways.2 t ht)⟩
    · intro heach
      refine ⟨hK, fun t ht ↦ ?_⟩
      obtain ⟨hspares, hrest⟩ := heach t ht
      have hKt := (step_kept S ha hK ht).mpr hspares
      exact (ih (ha.mono (step_everything S ht)) hKt).mpr hrest

end Runs

end FingerMove.Places
