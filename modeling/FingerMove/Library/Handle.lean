import Mathlib.Data.Finset.Card

namespace FingerMove.Handle

variable {η α β : Type} [DecidableEq η]

/-- How a call that opens something picks its handle. -/
structure Allocator (η : Type) where
  fresh : Finset η → η
  unused : ∀ live, fresh live ∉ live

/-- Programs on the set of the handles that are open; `none` is undefined. -/
abbrev Prog (η α : Type) := StateT (Finset η) Option α

def acquire (A : Allocator η) : Prog η η := fun live ↦
  some (A.fresh live, insert (A.fresh live) live)

def release (h : η) : Prog η Unit := fun live ↦ if h ∈ live then some ((), live.erase h) else none

def tryOpen (A : Allocator η) (ok : Bool) : Prog η (Option η) := do
  if !ok then return none
  return some (← acquire A)

omit [DecidableEq η] in
/-- When `m` returns, the handles it was called with are open and no others
exactly if `P` holds. -/
def KeepsIff (m : Prog η α) (P : Prop) : Prop :=
  ∀ live a live', m.run live = some (a, live') → (live' = live ↔ P)

/-- Called with `S` to close, `m` does what `x` does. It leaves all other handles
open, and no more than these exactly if `P` holds. -/
def Ends (S : Finset η) (m : Prog η α) (x : Option α) (P : Prop) : Prop :=
  ∀ live, S ⊆ live → (x = none → m.run live = none) ∧ ∀ a, x = some a →
    ∃ live', m.run live = some (a, live') ∧ live \ S ⊆ live' ∧ (live' = live \ S ↔ P)

variable {A : Allocator η} {S : Finset η} {m : Prog η α} {x : Option α} {P Q : Prop}

theorem Ends.congr (hm : Ends S m x P) (hPQ : P ↔ Q) : Ends S m x Q := by
  rwa [← propext hPQ]

theorem ends_pure (hS : ∀ h, h ∉ S) (a : α) : Ends S (pure a) (some a) True := by
  obtain rfl := Finset.eq_empty_of_forall_notMem hS
  intro live _
  refine ⟨fun h ↦ (Option.some_ne_none a h).elim, ?_⟩
  intro b hb
  obtain rfl := Option.some.inj hb
  exact ⟨live, rfl, by simp⟩

theorem ends_leak (hS : S.Nonempty) (a : α) : Ends S (pure a) (some a) False := by
  intro live hlive
  refine ⟨fun h ↦ (Option.some_ne_none a h).elim, ?_⟩
  intro b hb
  obtain rfl := Option.some.inj hb
  refine ⟨live, rfl, Finset.sdiff_subset, iff_false_intro ?_⟩
  intro he
  obtain ⟨h, hh⟩ := hS
  have hmem := hlive hh
  rw [he, Finset.mem_sdiff] at hmem
  exact hmem.2 hh

theorem Ends.acquire {k : η → Prog η α} (hk : ∀ h, h ∉ S → Ends (insert h S) (k h) x P) :
    Ends S (acquire A >>= k) x P := by
  intro live hlive
  have hS : A.fresh live ∉ S := fun hmem ↦ A.unused live (hlive hmem)
  have hsame : insert (A.fresh live) live \ insert (A.fresh live) S = live \ S := by
    rw [Finset.insert_sdiff_insert, Finset.sdiff_insert_of_notMem (A.unused live)]
  have hrun := hk _ hS _ (Finset.insert_subset_insert (A.fresh live) hlive)
  rw [hsame] at hrun
  exact hrun

theorem ends_tryOpen {ok : Bool} {k : Option η → Prog η α} {x y : Option α}
    (hopen : ok = true → ∀ h, h ∉ S → Ends (insert h S) (k (some h)) y P)
    (hfail : ok = false → Ends S (k none) x P) :
    Ends S (tryOpen A ok >>= k) (if !ok then x else y) P := by
  cases ok with
  | false => exact hfail rfl
  | true => exact Ends.acquire (A := A) (k := fun h ↦ k (some h)) (hopen rfl)

theorem Ends.release {k : Unit → Prog η α} {h : η} (hmem : h ∈ S)
    (hk : Ends (S.erase h) (k ()) x P) : Ends S (release h >>= k) x P := by
  intro live hlive
  have hsame : live.erase h \ S.erase h = live \ S := by
    rw [← Finset.erase_sdiff_distrib, Finset.erase_eq_of_notMem]
    simp [hmem]
  have hclose : (Handle.release h >>= k).run live = (k ()).run (live.erase h) := by
    have hrun : (Handle.release h).run live = some ((), live.erase h) := if_pos (hlive hmem)
    rw [StateT.run_bind, hrun]
    rfl
  have hrun := hk _ (Finset.erase_subset_erase h hlive)
  rw [hsame, ← hclose] at hrun
  exact hrun

def closing (a : α) : List η → Prog η α
  | [] => pure a
  | h :: hs => do
    release h
    closing a hs

theorem ends_closing (hs : List η) (h : hs.Nodup ∧ ∀ g, g ∈ S ↔ g ∈ hs) (a : α) :
    Ends S (closing a hs) (some a) True := by
  obtain ⟨hnodup, hS⟩ := h
  induction hs generalizing S with
  | nil => exact ends_pure (by simp [hS]) a
  | cons g hs ih =>
    obtain ⟨hg, hnodup⟩ := List.nodup_cons.mp hnodup
    apply Ends.release ((hS g).mpr List.mem_cons_self)
    apply ih hnodup
    intro k
    rw [Finset.mem_erase, hS, List.mem_cons]
    constructor
    · intro h
      exact h.2.resolve_left h.1
    · intro hk
      exact ⟨fun he ↦ hg (he ▸ hk), .inr hk⟩

theorem Ends.bind {y : Option β} {n : Prog η β} {k : β → Prog η α} {f : β → Option α}
    (hn : Ends ∅ n y P) (hk : ∀ b, y = some b → Ends S (k b) (f b) Q) :
    Ends S (n >>= k) (y.bind f) (P ∧ Q) := by
  intro live hlive
  obtain ⟨hnone, hsome⟩ := hn live (Finset.empty_subset _)
  rw [StateT.run_bind]
  cases y with
  | none =>
    rw [hnone rfl]
    exact ⟨fun _ ↦ rfl, fun a ha ↦ nomatch ha⟩
  | some b =>
    obtain ⟨mid, hrun, hsub, hmid⟩ := hsome b rfl
    rw [Finset.sdiff_empty] at hsub hmid
    obtain ⟨hnone, hsome⟩ := hk b rfl mid (hlive.trans hsub)
    rw [hrun]
    refine ⟨hnone, ?_⟩
    intro a ha
    obtain ⟨live', hrun', hsub', hlive'⟩ := hsome a ha
    refine ⟨live', hrun', (Finset.sdiff_subset_sdiff hsub (Finset.Subset.refl S)).trans hsub', ?_⟩
    rw [← hmid, ← hlive']
    constructor
    · intro he
      rw [he] at hsub'
      have hback : mid ⊆ live := by
        intro h hh
        by_cases hS : h ∈ S
        · exact hlive hS
        · exact (Finset.mem_sdiff.mp (hsub' (Finset.mem_sdiff.mpr ⟨hh, hS⟩))).1
      have hmid := hback.antisymm hsub
      exact ⟨hmid, by rw [he, hmid]⟩
    · intro h
      exact h.1 ▸ h.2

theorem Ends.bind_closed {y : Option β} {n : Prog η β} {k : β → Prog η α} {f : β → Option α}
    (hn : Ends ∅ n y True) (hk : ∀ b, y = some b → Ends S (k b) (f b) P) :
    Ends S (n >>= k) (y.bind f) P :=
  (hn.bind hk).congr (iff_of_eq (true_and P))

theorem Ends.bind_some {n : Prog η β} {k : β → Prog η α} {b : β} (hn : Ends ∅ n (some b) True)
    (hk : Ends S (k b) x P) : Ends S (n >>= k) x P := by
  apply hn.bind_closed (f := fun _ ↦ x)
  intro c hc
  obtain rfl := Option.some.inj hc
  exact hk

theorem Ends.bind_none {n : Prog η β} {k : β → Prog η α} (hn : Ends ∅ n none True) :
    Ends S (n >>= k) none P := by
  apply hn.bind_closed (f := fun _ ↦ none)
  intro c hc
  cases hc

theorem ends_lift (x : Option α) : Ends ∅ (liftM x : Prog η α) x True := by
  intro live _
  cases x with
  | none => exact ⟨fun _ ↦ rfl, fun a ha ↦ nomatch ha⟩
  | some b =>
    refine ⟨fun h ↦ (Option.some_ne_none b h).elim, ?_⟩
    intro a ha
    obtain rfl := Option.some.inj ha
    exact ⟨live, rfl, by simp⟩

theorem Ends.lift {y : Option β} {k : β → Prog η α} {f : β → Option α}
    (hk : ∀ b, y = some b → Ends S (k b) (f b) P) : Ends S (liftM y >>= k) (y.bind f) P :=
  (ends_lift y).bind_closed hk

theorem ends_guard {p : Prop} [Decidable p] {k : Unit → Prog η α} {f : Unit → Option α}
    (hk : p → Ends S (k ()) (f ()) P) :
    Ends S (guard p >>= k) ((guard p : Option Unit).bind f) P := by
  unfold guard
  by_cases hp : p
  · rw [if_pos hp, if_pos hp]
    exact hk hp
  · rw [if_neg hp, if_neg hp]
    intro live _
    exact ⟨fun _ ↦ rfl, fun a ha ↦ nomatch ha⟩

theorem ends_foldlM {f : β → α → Prog η β} {g : β → α → Option β} {R : α → Prop}
    (h : ∀ b a, Ends ∅ (f b a) (g b a) (R a)) (l : List α) (b : β) :
    Ends ∅ (l.foldlM f b) (l.foldlM g b) (∀ a ∈ l, R a) := by
  induction l generalizing b with
  | nil => exact (ends_pure Finset.notMem_empty b).congr (by simp)
  | cons a l ih =>
    rw [List.foldlM_cons, List.foldlM_cons]
    exact ((h b a).bind fun b _ ↦ ih b).congr List.forall_mem_cons.symm

theorem ends_mapM {f : α → Prog η β} {g : α → Option β} (h : ∀ a, Ends ∅ (f a) (g a) True)
    (l : List α) : Ends ∅ (l.mapM f) (l.mapM g) True := by
  induction l with
  | nil =>
    rw [List.mapM_nil, List.mapM_nil]
    exact ends_pure Finset.notMem_empty []
  | cons a l ih =>
    rw [List.mapM_cons, List.mapM_cons]
    apply (h a).bind_closed
    intro b _
    apply ih.bind_closed
    intro bs _
    exact ends_pure Finset.notMem_empty (b :: bs)

theorem Ends.returned (hm : Ends ∅ m x P) {live live' : Finset η} {a : α}
    (h : m.run live = some (a, live')) : live ⊆ live' ∧ (live' = live ↔ P) := by
  obtain ⟨hnone, hsome⟩ := hm live (Finset.empty_subset _)
  cases x with
  | none => cases (hnone rfl).symm.trans h
  | some b =>
    obtain ⟨mid, hrun, hends⟩ := hsome b rfl
    rw [Finset.sdiff_empty] at hends
    obtain ⟨-, rfl⟩ := Prod.mk.inj (Option.some.inj (hrun.symm.trans h))
    exact hends

theorem Ends.keepsIff (hm : Ends ∅ m x P) : KeepsIff m P :=
  fun _ _ _ h ↦ (hm.returned h).2

/-- Since none is closed that was open before, it is enough to count them. -/
theorem Ends.card_iff (hm : Ends ∅ m x P) {live live' : Finset η} {a : α}
    (h : m.run live = some (a, live')) : live'.card = live.card ↔ P := by
  obtain ⟨hsub, hmid⟩ := hm.returned h
  rw [← hmid]
  constructor
  · intro hcard
    exact (Finset.eq_of_subset_of_card_le hsub hcard.le).symm
  · intro he
    rw [he]

end FingerMove.Handle
