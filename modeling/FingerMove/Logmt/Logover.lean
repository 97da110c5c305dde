import FingerMove.Pqueue.Fifo

namespace FingerMove.Logmt.Logover

open Pqueue Machine Function

/-- Where `mtlogthr` is: about to call `get`, inside it, writing the message
that it returned, or behind its loop. -/
inductive Pc (N : Type*)
  | calling
  | inGet
  | writing (p : N)
  | left

/-- How far `logover` is: before it, and after each of its three sections. -/
inductive Stage
  | before
  | flagged
  | released
  | returned

structure State (ι N : Type*) where
  queue : Pqueue.State ι N
  pc : Pc N
  stage : Stage

inductive Label (ι : Type*)
  | call
  | lock (w : Finset ι)
  | spurious
  | write
  | logover

variable {ι N : Type*}

def result (log : List (Event N)) : Option N :=
  match log.getLast? with
  | some (.get r) => r
  | _ => none

variable [DecidableEq ι] [Fintype ι] [DecidableEq N]

def step (i : ι) (s : State ι N) : Label ι → Option (State ι N)
  | .call => match s.pc with
    | .calling => do
      let queue ← Pqueue.step s.queue (.callGet i)
      return { s with queue, pc := .inGet }
    | _ => none
  | .lock w => match s.pc with
    | .inGet => do
      let queue ← Pqueue.step s.queue (.lock i w)
      let pc := if queue.thread i ≠ .idle then .inGet
        else match result queue.log with
          | none => .left
          | some p => .writing p
      return { s with queue, pc }
    | _ => none
  | .spurious => match s.pc with
    | .inGet => do
      let queue ← Pqueue.step s.queue (.spurious i)
      return { s with queue }
    | _ => none
  | .write => match s.pc with
    | .writing _ => some { s with pc := .calling }
    | _ => none
  | .logover => match s.stage with
    | .before => do
      let queue ← Pqueue.step s.queue (.setflag 1)
      return { s with queue, stage := .flagged }
    | .flagged => do
      let queue ← Pqueue.step s.queue .releaseFree
      return { s with queue, stage := .released }
    | .released => do
      let queue ← Pqueue.step s.queue .resetqueue
      return { s with queue, stage := .returned }
    | .returned => none

/-- The log thread is inside `get` exactly as its program counter says. -/
def Placed (i : ι) (s : State ι N) : Prop :=
  match s.pc with
  | .inGet => s.queue.thread i = .entering .get ∨ s.queue.thread i = .asleep .get ∨
      s.queue.thread i = .woken .get
  | _ => s.queue.thread i = .idle

/-- `logover` has returned, and nothing is going to wake the log thread. -/
def Stuck (i : ι) (s : State ι N) : Prop :=
  s.stage = .returned ∧ s.queue.thread i = .asleep .get

/-- A state in which `logover` may start. -/
structure Start (i : ι) (s : State ι N) : Prop where
  stage : s.stage = .before
  queue : ∃ l, Queue s.queue l
  placed : Placed i s

variable {i : ι} {s t : State ι N}

theorem step_queue {e : Label ι} (h : step i s e = some t) :
    t.queue = s.queue ∨ ∃ l, Pqueue.step s.queue l = some t.queue := by
  cases e with
  | write =>
    simp only [step] at h
    split at h
    · obtain rfl := Option.some.inj h
      exact .inl rfl
    · cases h
  | logover =>
    simp only [step] at h
    split at h
    case h_4 => cases h
    all_goals
      obtain ⟨q, hq, h⟩ := Option.bind_eq_some_iff.mp h
      obtain rfl := Option.some.inj h
      exact .inr ⟨_, hq⟩
  | call | lock | spurious =>
    simp only [step] at h
    split at h
    · obtain ⟨q, hq, h⟩ := Option.bind_eq_some_iff.mp h
      obtain rfl := Option.some.inj h
      exact .inr ⟨_, hq⟩
    · cases h

theorem queue_kept {e : Label ι} (h : step i s e = some t) (hq : ∃ l, Queue s.queue l) :
    ∃ l, Queue t.queue l := by
  obtain he | ⟨l, hl⟩ := step_queue h
  · rw [he]
    exact hq
  · exact queue_step hl hq

omit [DecidableEq N] in
theorem get_thread {q q' : Pqueue.State ι N} {w : Finset ι} (h : q.get i w = some q') :
    q'.thread i = .idle ∨ q'.thread i = .asleep .get := by
  have hidle : ∀ e, (q.leave i e).thread i = .idle := fun e ↦ update_self _ _ _
  obtain ⟨-, rfl⟩ | ⟨-, -, rfl⟩ | ⟨-, -, a, -, ⟨-, u, hu, rfl⟩ | ⟨-, rfl⟩⟩ := get_cases h
  · exact .inl (hidle _)
  · exact .inr (update_self _ _ _)
  · obtain ⟨rfl, -⟩ := signal_eq hu
    left
    have hunlink : (q.unlink i a).thread i = .idle := update_self _ _ _
    simp [wake, hunlink, Thread.asleepOn]
  · exact .inl (update_self _ _ _)

omit [DecidableEq N] in
theorem placed_broadcast (hp : Placed i s) (c : Cond) (stage : Stage) :
    Placed i { s with queue := s.queue.broadcast c, stage } := by
  cases hpc : s.pc with
  | inGet =>
    simp only [Placed, hpc] at hp ⊢
    rcases hp with hp | hp | hp
    · exact .inl (by simp [State.broadcast, wake, hp, Thread.asleepOn])
    · cases c with
      | free => exact .inr (.inr (by
          simp [State.broadcast, wake, hp, Thread.asleepOn, Call.cond, Thread.wake]))
      | full => exact .inr (.inl (by
          simp [State.broadcast, wake, hp, Thread.asleepOn, Call.cond]))
    · exact .inr (.inr (by simp [State.broadcast, wake, hp, Thread.asleepOn]))
  | calling | writing | left =>
    simp only [Placed, hpc] at hp ⊢
    simp [State.broadcast, wake, hp, Thread.asleepOn]

theorem placed_kept {e : Label ι} (h : step i s e = some t) (hp : Placed i s) : Placed i t := by
  cases e with
  | call =>
    simp only [step] at h
    split at h
    · obtain ⟨q, hq, h⟩ := Option.bind_eq_some_iff.mp h
      obtain rfl := Option.some.inj h
      simp only [Pqueue.step] at hq
      split at hq
      · obtain rfl := Option.some.inj hq
        exact .inl (update_self _ _ _)
      · cases hq
    · cases h
  | lock w =>
    simp only [step] at h
    split at h
    · next hpc =>
      obtain ⟨q, hq, h⟩ := Option.bind_eq_some_iff.mp h
      obtain rfl := Option.some.inj h
      simp only [Placed, hpc] at hp
      have hget : s.queue.get i w = some q := by
        obtain ⟨a, ha, -⟩ | ⟨-, hget⟩ := lock_cases hq
        · rcases hp with hp | hp | hp <;> simp [hp] at ha
        · exact hget
      rcases get_thread hget with hidle | hasleep
      · simp only [Placed, hidle]
        cases result q.log <;> simp
      · simp [Placed, hasleep]
    · cases h
  | spurious =>
    simp only [step] at h
    split at h
    · next hpc =>
      obtain ⟨q, hq, h⟩ := Option.bind_eq_some_iff.mp h
      obtain rfl := Option.some.inj h
      simp only [Placed, hpc] at hp ⊢
      simp only [Pqueue.step] at hq
      split at hq
      · next c hc =>
        obtain rfl := Option.some.inj hq
        have hcall : c = .get := by
          rcases hp with hp | hp | hp <;> simp [hp] at hc
          exact hc.symm
        exact .inr (.inr (by simp [hcall]))
      · cases hq
    · cases h
  | write =>
    simp only [step] at h
    split at h
    · next hpc =>
      obtain rfl := Option.some.inj h
      simpa [Placed, hpc] using hp
    · cases h
  | logover =>
    simp only [step] at h
    split at h
    · obtain rfl := Option.some.inj h
      exact hp
    · obtain rfl := Option.some.inj h
      exact placed_broadcast hp _ _
    · obtain ⟨q, hq, h⟩ := Option.bind_eq_some_iff.mp h
      obtain rfl := Option.some.inj h
      obtain ⟨l, -, rfl⟩ := Option.map_eq_some_iff.mp hq
      exact hp
    · cases h

theorem sleeps {u : State ι N} (hstage : u.stage = .returned) (hpc : u.pc = .inGet)
    (hthread : u.queue.thread i = .entering .get ∨ u.queue.thread i = .woken .get)
    (hsize : u.queue.cursize = 0) (hflag : u.queue.overflag = 0) :
    ∃ t, step i u (.lock ∅) = some t ∧ Stuck i t := by
  have hget : u.queue.get i ∅ = some { u.queue with
      freewait := u.queue.freewait + 1
      thread := update u.queue.thread i (.asleep .get) } := by
    rw [State.get, if_pos hsize, if_neg (not_not.mpr hflag)]
  have hlock : Pqueue.step u.queue (.lock i ∅) = u.queue.get i ∅ := by
    rcases hthread with hthread | hthread <;> simp [Pqueue.step, hthread]
  refine ⟨{ u with pc := .inGet, queue := { u.queue with
      freewait := u.queue.freewait + 1
      thread := update u.queue.thread i (.asleep .get) } }, ?_, hstage, update_self _ _ _⟩
  simp [step, hpc, hlock, hget]

theorem calls_and_sleeps {u : State ι N} (hstage : u.stage = .returned) (hpc : u.pc = .calling)
    (hidle : u.queue.thread i = .idle) (hsize : u.queue.cursize = 0)
    (hflag : u.queue.overflag = 0) : ∃ es t, exec (step i) u es = some t ∧ Stuck i t := by
  have hcall : step i u .call = some { u with
      queue := { u.queue with thread := update u.queue.thread i (.entering .get) }
      pc := .inGet } := by
    simp [step, hpc, Pqueue.step, hidle]
  obtain ⟨t, ht, hstuck⟩ := sleeps (i := i) (u := { u with
      queue := { u.queue with thread := update u.queue.thread i (.entering .get) }
      pc := .inGet }) hstage rfl (.inl (update_self _ _ _)) hsize hflag
  exact ⟨[.call, .lock ∅], t, by simp [exec, hcall, ht], hstuck⟩

theorem sleeps_after_reset (hstage : s.stage = .released) (hq : ∃ l, Queue s.queue l)
    (hp : Placed i s) (hleft : s.pc ≠ .left) :
    ∃ es t, exec (step i) s (.logover :: es) = some t ∧ Stuck i t := by
  obtain ⟨l, hl⟩ := hq
  obtain ⟨q, hreset, -⟩ := hl.resetqueue
  have hsame : q.thread = s.queue.thread ∧ q.cursize = 0 ∧ q.overflag = 0 := by
    obtain ⟨_, -, rfl⟩ := Option.map_eq_some_iff.mp hreset
    exact ⟨rfl, rfl, rfl⟩
  obtain ⟨hthread, hsize, hflag⟩ := hsame
  have hstep : step i s .logover = some { s with queue := q, stage := .returned } := by
    simp [step, hstage, Pqueue.step, hreset]
  simp only [exec, hstep, Option.bind_some]
  cases hpc : s.pc with
  | left => exact absurd hpc hleft
  | calling =>
    simp only [Placed, hpc] at hp
    exact calls_and_sleeps rfl rfl (hthread ▸ hp) hsize hflag
  | writing p =>
    simp only [Placed, hpc] at hp
    obtain ⟨es, t, ht, hstuck⟩ := calls_and_sleeps (i := i)
      (u := { s with queue := q, stage := .returned, pc := .calling }) rfl rfl (hthread ▸ hp)
      hsize hflag
    exact ⟨.write :: es, t, ht, hstuck⟩
  | inGet =>
    simp only [Placed, hpc, ← hthread] at hp
    rcases hp with hp | hp | hp
    · obtain ⟨t, ht, hstuck⟩ := sleeps (i := i)
        (u := ⟨q, .inGet, .returned⟩) rfl rfl (.inl hp) hsize hflag
      exact ⟨[.lock ∅], t, by simp only [exec, ht, Option.bind_some], hstuck⟩
    · exact ⟨[], _, rfl, rfl, hp⟩
    · obtain ⟨t, ht, hstuck⟩ := sleeps (i := i)
        (u := ⟨q, .inGet, .returned⟩) rfl rfl (.inr hp) hsize hflag
      exact ⟨[.lock ∅], t, by simp only [exec, ht, Option.bind_some], hstuck⟩

theorem left_kept {e : Label ι} (h : step i s e = some t) (hleft : s.pc = .left) :
    t.pc = .left := by
  cases e with
  | logover =>
    simp only [step] at h
    split at h
    case h_4 => cases h
    all_goals
      obtain ⟨q, -, h⟩ := Option.bind_eq_some_iff.mp h
      obtain rfl := Option.some.inj h
      exact hleft
  | call | lock | spurious | write => simp [step, hleft] at h

/-- After `logover` the log thread is never left asleep exactly if its `get` has
returned 0 before `resetqueue` takes the lock. -/
theorem logover_stops_iff {s₀ s : State ι N} {es : List (Label ι)} (h : Start i s₀)
    (hrun : exec (step i) s₀ es = some s) (hstage : s.stage = .released) :
    (∀ es' t, exec (step i) s (.logover :: es') = some t → ¬ Stuck i t) ↔ s.pc = .left := by
  have hkept : Placed i s ∧ ∃ l, Queue s.queue l :=
    exec_invariant (I := fun s ↦ Placed i s ∧ ∃ l, Queue s.queue l) (G := fun _ ↦ True)
      (fun _ _ _ hs _ ht ↦ ⟨placed_kept ht hs.1, queue_kept ht hs.2⟩)
      ⟨h.placed, h.queue⟩ (fun _ _ ↦ trivial) hrun
  obtain ⟨hplaced, hqueue⟩ := hkept
  constructor
  · intro hnever
    by_contra hleft
    obtain ⟨es', t, ht, hstuck⟩ := sleeps_after_reset hstage hqueue hplaced hleft
    exact hnever es' t ht hstuck
  · intro hleft es' t ht hstuck
    have hend : Placed i t ∧ t.pc = .left :=
      exec_invariant (I := fun s ↦ Placed i s ∧ s.pc = .left) (G := fun _ ↦ True)
        (fun _ _ _ hs _ ht ↦ ⟨placed_kept ht hs.1, left_kept ht hs.2⟩)
        ⟨hplaced, hleft⟩ (fun _ _ ↦ trivial) ht
    obtain ⟨hidle, hpc⟩ := hend
    simp only [Placed, hpc, hstuck.2] at hidle
    cases hidle

def asleepLogger : State (Fin 1) ℕ where
  queue := { pqueue (Fin 1) (fun _ ↦ none) with freewait := 1, thread := fun _ ↦ .asleep .get }
  pc := .inGet
  stage := .before

theorem start_asleepLogger : Start 0 asleepLogger where
  stage := rfl
  queue := ⟨[], (queue_init fun _ : ℕ ↦ none).congr (t := asleepLogger.queue) (fun _ ↦ rfl)
    rfl rfl rfl rfl rfl rfl rfl⟩
  placed := .inr (.inl rfl)

theorem logover_stops_iff_asleep : ∃ s : State (Fin 1) ℕ,
    exec (step 0) asleepLogger [.logover, .logover] = some s ∧
      ((∀ es' t, exec (step 0) s (.logover :: es') = some t → ¬ Stuck 0 t) ↔ s.pc = .left) :=
  ⟨_, rfl, logover_stops_iff start_asleepLogger
    (show exec (step 0) asleepLogger [.logover, .logover] = _ from rfl) rfl⟩

/-- The reset clears the flag before the woken thread has seen it. -/
theorem logger_asleep_after_logover : Start 0 asleepLogger ∧ ∃ t,
    exec (step 0) asleepLogger [.logover, .logover, .logover, .lock ∅] = some t ∧ Stuck 0 t :=
  ⟨start_asleepLogger, _, rfl, rfl, rfl⟩

end FingerMove.Logmt.Logover
