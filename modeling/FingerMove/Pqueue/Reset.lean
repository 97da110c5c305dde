import FingerMove.Pqueue.Fifo
import FingerMove.Pqueue.Wakeup

namespace FingerMove.Pqueue

open Machine

variable {ι N : Type*} [Fintype ι] [DecidableEq ι] [DecidableEq N]

def Counted (s : State ι N) : Prop :=
  (count (Thread.asleepOn .free) s.thread : ℤ) ≤ s.freewait ∧
    (count (Thread.asleepOn .full) s.thread : ℤ) ≤ s.fullwait

/-- No thread sleeps on while it could go on and none has been woken in its place. -/
def Unstranded (s : State ι N) : Prop :=
  ((∃ i, (s.thread i).asleepOn .free) → s.cursize ≠ 0 → ∃ i, (s.thread i).wokenFrom .free) ∧
    ((∃ i, (s.thread i).asleepOn .full) → s.cursize < s.maxsize →
      ∃ i, (s.thread i).wokenFrom .full)

section Step

variable {s t : State ι N}

theorem step_resetqueue (h : step s .resetqueue = some t) :
    t.thread = s.thread ∧ t.freewait = 0 ∧ t.fullwait = 0 ∧ t.cursize = 0 ∧ t.overflag = 0 := by
  obtain ⟨l, -, rfl⟩ := Option.map_eq_some_iff.mp h
  exact ⟨rfl, rfl, rfl, rfl, rfl⟩

omit [DecidableEq ι] [DecidableEq N] in
theorem count_eq_zero {p : Thread N → Bool} {thread : ι → Thread N}
    (h : ∀ i, p (thread i) = false) : count p thread = 0 := by
  simp [count, h]

omit [Fintype ι] [DecidableEq ι] [DecidableEq N] in
theorem asleepOn_cond {th : Thread N} {call : Call N} (h : th = .asleep call) :
    th.asleepOn call.cond := by
  simp [h, Thread.asleepOn]

theorem awake_resetqueue (h : step s .resetqueue = some t)
    (hnone : ∀ i call, s.thread i ≠ .asleep call) : Awake t := by
  obtain ⟨hthread, hfree, hfull, hsize, hflag⟩ := step_resetqueue h
  have hawake : ∀ c i, (t.thread i).asleepOn c = false := by
    intro c i
    rw [hthread]
    cases hi : s.thread i with
    | asleep call => exact absurd hi (hnone i call)
    | idle | entering call | woken call => rfl
  refine ⟨hflag, hsize.ge, ⟨?_, ?_⟩, ⟨?_, ?_⟩⟩
  · rw [count_eq_zero (hawake .free), hfree]
    rfl
  · rw [count_eq_zero (hawake .free)]
    exact fun hpos ↦ absurd hpos (lt_irrefl 0)
  · rw [count_eq_zero (hawake .full), hfull]
    rfl
  · rw [count_eq_zero (hawake .full)]
    exact fun hpos ↦ absurd hpos (lt_irrefl 0)

theorem nobody_of_counted (h : step s .resetqueue = some t) (hc : Counted t) :
    ∀ i call, s.thread i ≠ .asleep call := by
  obtain ⟨hthread, hfree, hfull, -, -⟩ := step_resetqueue h
  intro i call hi
  have hasleep : (t.thread i).asleepOn call.cond := asleepOn_cond (hthread ▸ hi)
  have hpos : 0 < count (Thread.asleepOn call.cond) t.thread := count_pos.mpr ⟨i, hasleep⟩
  obtain ⟨hcfree, hcfull⟩ := hc
  cases call with
  | put a => exact absurd hcfull (by rw [Call.cond] at hpos; omega)
  | get => exact absurd hcfree (by rw [Call.cond] at hpos; omega)

end Step

/-- In every reachable state `resetqueue` keeps the waiters counted, and no later
step of `put` and `get` strands one, exactly when it runs while nobody is asleep. -/
theorem reset_strands_nobody_iff {next : N → Option N} {es : List (Label ι N)} {s : State ι N}
    (hrun : exec step (pqueue ι next) es = some s) :
    ∃ t, step s .resetqueue = some t ∧
      ((Counted t ∧ ∀ es' u, (∀ e ∈ es', e.Normal) → exec step t es' = some u → Unstranded u) ↔
        ∀ i call, s.thread i ≠ .asleep call) := by
  obtain ⟨l, q⟩ := exec_invariant (G := fun _ ↦ True) (I := fun s ↦ ∃ l, Queue s l)
    (fun s e t hq _ ht ↦ queue_step ht hq) ⟨[], queue_init next⟩ (fun _ _ ↦ trivial) hrun
  obtain ⟨t, ht, -⟩ := q.resetqueue
  refine ⟨t, ht, ?_⟩
  constructor
  · intro hall
    exact nobody_of_counted ht hall.1
  · intro hnone
    have hawake : Awake t := awake_resetqueue ht hnone
    refine ⟨⟨hawake.free.1, hawake.full.1⟩, ?_⟩
    intro es' u hes hu
    have hu' : Awake u :=
      exec_invariant (fun _ _ _ ha hg ht ↦ awake_step ha hg ht) hawake hes hu
    exact hu'.covers

def fullQueue : List (Label (Fin 2) ℕ) :=
  [.setsize 1, .callPut 0 (some 7), .lock 0 ∅, .callPut 1 (some 8), .lock 1 ∅]

theorem reset_strands_nobody_iff_fullQueue : ∃ s,
    exec step (pqueue (Fin 2) fun _ : ℕ ↦ none) fullQueue = some s ∧
      ∃ t, step s .resetqueue = some t ∧
        ((Counted t ∧ ∀ es' u, (∀ e ∈ es', e.Normal) → exec step t es' = some u →
          Unstranded u) ↔ ∀ i call, s.thread i ≠ .asleep call) :=
  ⟨_, rfl, reset_strands_nobody_iff (show exec step (pqueue (Fin 2) fun _ : ℕ ↦ none)
    fullQueue = _ from rfl)⟩

/-- After the calls of `logover` the putter sleeps beside an empty queue. -/
theorem putter_stranded : ∃ t,
    exec step (pqueue (Fin 2) fun _ : ℕ ↦ none)
      (fullQueue ++ [.setflag 1, .releaseFree, .resetqueue]) = some t ∧
    ¬ Counted t ∧ (t.thread 1).asleepOn .full ∧ t.cursize < t.maxsize ∧
      ∀ i, (t.thread i).wokenFrom .full = false := by
  refine ⟨_, rfl, ?_, rfl, by decide, by decide⟩
  intro h
  exact absurd h.2 (by decide)

end FingerMove.Pqueue
