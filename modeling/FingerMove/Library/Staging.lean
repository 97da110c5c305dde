import FingerMove.Library.Machine

namespace FingerMove.Staging

open Machine

variable {σ ε α : Type*} {step : σ → ε → Option σ}

/-- A transfer through a staging area: a refill discards what the staging area
holds and moves items into it from the source, every other step at most
delivers items. -/
structure Transfer (step : σ → ε → Option σ) (α : Type*) where
  source : σ → Set α
  buffer : σ → Set α
  delivered : σ → Set α
  refills : σ → ε → Prop
  quiet : ∀ s e t, step s e = some t → ¬ refills s e →
    source t = source s ∧ buffer t = buffer s ∧ delivered s ⊆ delivered t
  refill : ∀ s e t, step s e = some t → refills s e →
    source t ∪ buffer t = source s ∧ delivered t = delivered s

variable (T : Transfer step α)

def Kept (s₀ t : σ) : Prop := T.source s₀ ⊆ T.source t ∪ T.buffer t ∪ T.delivered t

def Settled (s₀ t : σ) (e : ε) : Prop :=
  T.refills t e → T.buffer t ∩ T.source s₀ ⊆ T.source t ∪ T.delivered t

theorem kept_refl (s : σ) : Kept T s s := fun _ hx ↦ Or.inl (Or.inl hx)

theorem kept_step {s₀ s t : σ} {e : ε} (h : Kept T s₀ s) (hg : Settled T s₀ s e)
    (ht : step s e = some t) : Kept T s₀ t := by
  intro x hx
  by_cases hr : T.refills s e
  · obtain ⟨hsplit, hdel⟩ := T.refill s e t ht hr
    rw [hsplit, hdel]
    rcases h hx with (hs | hb) | hd
    · exact Or.inl hs
    · exact hg hr ⟨hb, hx⟩
    · exact Or.inr hd
  · obtain ⟨hs, hb, hd⟩ := T.quiet s e t ht hr
    rw [hs, hb]
    exact (h hx).imp_right (fun hx ↦ hd hx)

theorem settled_of_kept {s₀ s t : σ} {e : ε} (ht : step s e = some t) (h : Kept T s₀ t) :
    Settled T s₀ s e := by
  rintro hr x ⟨_, hx⟩
  obtain ⟨hsplit, hdel⟩ := T.refill s e t ht hr
  simpa only [hsplit, hdel] using h hx

/-- A run loses nothing exactly when each of its refills discards only items
that were delivered, or that the source still has. -/
theorem always_kept_iff {s₀ s : σ} {es : List ε} (h : Kept T s₀ s) :
    Always step (Kept T s₀) s es ↔ EachStep step (Settled T s₀) s es := by
  constructor
  · intro ha
    induction es generalizing s with
    | nil => trivial
    | cons e es ih =>
      intro t ht
      have hat := ha.2 t ht
      exact ⟨settled_of_kept T ht hat.start, ih hat.start hat⟩
  · exact always_of_eachStep (fun _ _ _ hk hg ht ↦ kept_step T hk hg ht) h

end FingerMove.Staging
