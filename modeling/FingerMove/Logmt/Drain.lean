import FingerMove.Logmt.InOrder

namespace FingerMove.Logmt.Logger

open CText Directory ProDeal Pqueue PointerList Machine Function

variable {ι N : Type} [DecidableEq ι] [Fintype ι] [DecidableEq N] {before : Text} {s t : State ι N}

def Label.Normal : Label ι N → Prop
  | .log .logover => False
  | _ => True

/-- A step of what has been logged already, without a spurious wake-up. -/
def Label.Quiet : Label ι N → Prop
  | .lock _ _ | .log .call | .log (.lock _) | .write _ => True
  | _ => False

structure Alive (s : State ι N) : Prop where
  awake : Awake s.queue
  stage : s.stage = .before
  pc : s.pc ≠ .left

theorem normal_of_step {u v : Logover.State (Option ι) N} {e : Logover.Label (Option ι)}
    (hw : e ≠ .write) (ho : e ≠ .logover) (h : Logover.step none u e = some v) :
    v.stage = u.stage ∧ ∃ l : Pqueue.Label (Option ι) N,
      l.Normal ∧ Pqueue.step u.queue l = some v.queue := by
  cases e with
  | write => exact absurd rfl hw
  | logover => exact absurd rfl ho
  | call | lock | spurious =>
    simp only [Logover.step] at h
    split at h
    · obtain ⟨q, hq, h⟩ := Option.bind_eq_some_iff.mp h
      obtain rfl := Option.some.inj h
      exact ⟨rfl, _, by trivial, hq⟩
    · cases h

theorem alive_step (hl : Logged s) (h : Alive s) {e : Label ι N} (hn : e.Normal)
    (ht : step s e = some t) : Alive t := by
  cases e with
  | logstring i p str =>
    obtain ⟨buf, -, -, -, -, hstep, -, -, -, ht⟩ := logstring_cases ht
    rw [ht]
    exact ⟨awake_step (e := .callPut (some i) (some p)) h.awake trivial hstep, h.stage, h.pc⟩
  | lock i w =>
    obtain ⟨a, -, hstep, -, ht⟩ := lock_ends (hl.caller i) ht
    rw [ht]
    exact ⟨awake_step (e := .lock (some i) w) h.awake trivial hstep, h.stage, h.pc⟩
  | spurious i =>
    obtain ⟨q, hstep, ht⟩ := Option.bind_eq_some_iff.mp ht
    obtain rfl := Option.some.inj ht
    exact ⟨awake_step (e := .spurious (some i)) h.awake trivial hstep, h.stage, h.pc⟩
  | write fname =>
    simp only [step] at ht
    split at ht
    · obtain ⟨disk, -, ht⟩ := Option.bind_eq_some_iff.mp ht
      obtain rfl := Option.some.inj ht
      exact ⟨h.awake, h.stage, by simp⟩
    · cases ht
  | log e =>
    obtain ⟨he, u, hu, ht⟩ := log_eq ht
    obtain ⟨-, -, hcases⟩ := log_cases he hl.placed hu
    have hpc : u.pc ≠ .left := by
      obtain ⟨-, -, hleft, -⟩ | ⟨r, -, -, -, hpc, -, hflag⟩ | ⟨l, -, hpc, -⟩ := hcases
      · exact mt hleft.mp h.pc
      · cases r with
        | none => exact absurd h.awake.flag (hflag rfl)
        | some p => simp [hpc]
      · exact hpc ▸ h.pc
    have ho : e ≠ .logover := by
      rintro rfl
      exact hn
    obtain ⟨hstage, l, hnormal, hqueue⟩ := normal_of_step he ho hu
    rw [← ht]
    exact ⟨awake_step h.awake hnormal hqueue, hstage.trans h.stage, hpc⟩

def calling : Logover.Pc N → ℕ
  | .calling => 2
  | _ => 0

/-- Messages that are not in the files yet, each with the steps it still needs. -/
def waiting (s : State ι N) : ℕ :=
  3 * count Thread.holding s.queue.thread + 2 * s.queue.cursize.toNat + (inHand s.pc).length

def active (s : State ι N) : ℕ := count Thread.active s.queue.thread + calling s.pc

/-- A bound for the steps that the log takes when nothing more is logged. -/
def work (s : State ι N) : ℕ := waiting s * (Fintype.card ι + 4) + active s

omit [DecidableEq ι] [DecidableEq N] in
theorem active_le (s : State ι N) : active s ≤ Fintype.card ι + 3 := by
  have hcount := count_le Thread.active s.queue.thread
  rw [Fintype.card_option] at hcount
  have hcalling : calling s.pc ≤ 2 := by cases s.pc <;> simp [calling]
  rw [active]
  omega

omit [DecidableEq ι] [DecidableEq N] in
theorem work_of_waiting (h : waiting t + 1 ≤ waiting s) : work t < work s := by
  have hactive := active_le t
  have hmul := Nat.mul_le_mul_right (Fintype.card ι + 4) h
  rw [Nat.add_mul, Nat.one_mul] at hmul
  rw [work, work]
  omega

omit [DecidableEq ι] [DecidableEq N] in
theorem work_of_active (hw : waiting t = waiting s) (ha : active t < active s) :
    work t < work s := by
  rw [work, work, hw]
  omega

theorem lock_work (hl : Logged s) {i : ι} {w : Finset (Option ι)}
    (h : step s (.lock i w) = some t) : work t < work s := by
  obtain ⟨a, hi, -, hput, ht⟩ := lock_ends (hl.caller i) h
  obtain ⟨l, ql⟩ := hl.queue
  have hsize := ql.size
  have hholding : (s.queue.thread (some i)).holding = true := by
    rcases hi with hi | hi <;> rw [hi] <;> rfl
  have hactive : (s.queue.thread (some i)).active = true := by
    rcases hi with hi | hi <;> rw [hi] <;> rfl
  have hpc : t.pc = s.pc := by rw [ht]
  obtain ⟨-, hsize', hthread⟩ | ⟨w', -, hsize', hthread⟩ := (put_ends hput).2
  · have hheld := count_update hholding (show (Thread.asleep (.put a)).holding = true from rfl)
    have hact := count_update hactive (show (Thread.asleep (.put a)).active = false from rfl)
    apply work_of_active
    · rw [waiting, waiting, hpc, hthread, hsize']
      omega
    · rw [active, active, hpc, hthread]
      simp only [Bool.toNat_true, Bool.toNat_false] at hact
      omega
  · have hheld := count_update hholding (show (Thread.idle (N := N)).holding = false from rfl)
    apply work_of_waiting
    rw [waiting, waiting, hpc, hthread, count_holding_wake]
    simp only [Bool.toNat_true, Bool.toNat_false] at hheld
    omega

theorem call_work (h : step s (.log .call) = some t) :
    work t < work s := by
  obtain ⟨-, u, hu, rfl⟩ := log_eq h
  simp only [Logover.step] at hu
  split at hu
  case h_2 => cases hu
  next hpc =>
  obtain ⟨q, hq, hu⟩ := Option.bind_eq_some_iff.mp hu
  obtain rfl := Option.some.inj hu
  simp only [Pqueue.step] at hq
  split at hq
  case isFalse => cases hq
  next hidle =>
  obtain rfl := Option.some.inj hq
  have hheld := count_update (show (s.queue.thread none).holding = false by rw [hidle]; rfl)
    (show (Thread.entering (.get (N := N))).holding = false from rfl)
  have hact := count_update (show (s.queue.thread none).active = false by rw [hidle]; rfl)
    (show (Thread.entering (.get (N := N))).active = true from rfl)
  simp only [Bool.toNat_true, Bool.toNat_false] at hheld hact
  apply work_of_active
  · simp only [waiting, hpc, inHand]
    omega
  · simp only [active, hpc, calling]
    omega

theorem get_work (hl : Logged s) (ha : Alive s) {w : Finset (Option ι)}
    (h : step s (.log (.lock w)) = some t) : work t < work s := by
  obtain ⟨-, u, hu, rfl⟩ := log_eq h
  have hnone : ∀ {th}, th = Thread.entering (.get (N := N)) ∨ th = .woken .get →
      th.holding = false ∧ th.active = true := by
    rintro th (rfl | rfl) <;> exact ⟨rfl, rfl⟩
  obtain ⟨hpc, -, hi, -, ⟨-, hsize, hthread, hpc'⟩ | ⟨hflag, -⟩ |
    ⟨a, w', -, hsize, hthread, hpc'⟩⟩ := get_step hl.placed hu
  · have hheld := count_update (hnone hi).1
      (show (Thread.asleep (.get (N := N))).holding = false from rfl)
    have hact := count_update (hnone hi).2
      (show (Thread.asleep (.get (N := N))).active = false from rfl)
    simp only [Bool.toNat_true, Bool.toNat_false] at hheld hact
    apply work_of_active
    · simp only [waiting, hpc, hpc', hthread, hsize]
      omega
    · simp only [active, hpc, hpc', hthread, calling]
      omega
  · exact absurd ha.awake.flag hflag
  · have hheld := count_update (hnone hi).1 (show (Thread.idle (N := N)).holding = false from rfl)
    simp only [Bool.toNat_false] at hheld
    obtain ⟨l, ql⟩ := Logover.queue_kept hu hl.queue
    have hlength := ql.size
    apply work_of_waiting
    simp only [waiting, hpc, hpc', hthread, inHand, count_holding_wake]
    simp only [List.length_nil, List.length_singleton]
    omega

theorem write_work {fname : FileName} (h : step s (.write fname) = some t) : work t < work s := by
  simp only [step] at h
  split at h
  case h_2 => cases h
  next p hpc =>
  obtain ⟨disk, -, h⟩ := Option.bind_eq_some_iff.mp h
  obtain rfl := Option.some.inj h
  apply work_of_waiting
  simp [waiting, hpc, inHand]

theorem quiet_work (hl : Logged s) (ha : Alive s) {e : Label ι N} (he : e.Quiet)
    (h : step s e = some t) : work t < work s := by
  cases e with
  | lock i w => exact lock_work hl h
  | write fname => exact write_work h
  | logstring | spurious => exact he.elim
  | log e =>
    cases e with
    | call => exact call_work h
    | lock w => exact get_work hl ha h
    | spurious | write | logover => exact he.elim

theorem exists_fresh {τ : Type} (d : Dir FileName τ) : ∃ n, n ∉ d := by
  have hinfinite : Infinite FileName := by
    have hname : ∀ n, '\x00' ∉ List.replicate n 'a' := by
      intro n hmem
      cases List.eq_of_mem_replicate hmem
    refine .of_injective (fun n ↦ ⟨.replicate n 'a', hname n⟩) fun n m he ↦ ?_
    simpa using congrArg (·.text.length) he
  obtain ⟨n, hn⟩ := Infinite.exists_notMem_finset d.keys.toFinset
  exact ⟨n, fun hmem ↦ hn (List.mem_toFinset.mpr hmem)⟩

/-- No step of the log is left but new messages and spurious wake-ups. -/
def Stuck (s : State ι N) : Prop := ∀ e : Label ι N, e.Quiet → step s e = none

theorem write_enabled (hl : Logged s) (hd : Rotation.Kept before s.disk) {p : N}
    (hpc : s.pc = .writing p) (fname : FileName) : step s (.write fname) ≠ none := by
  obtain ⟨disk, hdisk⟩ := Rotation.message_enabled hd (hl.running.mpr (by simp [hpc])) fname
    (s.m_buf p)
  simp [step, hpc, hdisk]

theorem stuck_of_fresh (hl : Logged s) (hd : Rotation.Kept before s.disk)
    (h : ∀ e : Label ι N, e.Quiet ∧ Fresh s e → step s e = none) : Stuck s := by
  intro e he
  cases e with
  | lock i w => exact h _ ⟨he, trivial⟩
  | log e => exact h _ ⟨he, trivial⟩
  | logstring | spurious => exact he.elim
  | write fname =>
    obtain ⟨n, hn⟩ := exists_fresh s.disk.files
    by_contra hne
    obtain ⟨p, hpc⟩ : ∃ p, s.pc = .writing p := by
      by_contra hpc
      push Not at hpc
      cases hpc' : s.pc with
      | writing p => exact hpc p hpc'
      | calling | inGet | left => simp [step, hpc'] at hne
    exact write_enabled hl hd hpc n (h (.write n) ⟨trivial, fun _ ↦ hn⟩)

namespace Stuck

variable (h : Stuck s) (hl : Logged s)

include h hl

theorem inactive (i : ι) : (s.queue.thread (some i)).active = false := by
  by_contra hne
  obtain ⟨l, ql⟩ := hl.queue
  obtain ⟨q, hq⟩ := lock_enabled ql (Bool.not_eq_false _ ▸ hne)
  have hnone := h (.lock i Finset.univ) trivial
  simp [step, hq] at hnone

theorem log_asleep (hd : Rotation.Kept before s.disk) (ha : Alive s) :
    s.pc = .inGet ∧ s.queue.thread none = .asleep .get := by
  have hplaced := hl.placed
  obtain ⟨l, ql⟩ := hl.queue
  cases hpc : s.pc with
  | left => exact absurd hpc ha.pc
  | writing p => exact absurd (h (.write serverLog) trivial) (write_enabled hl hd hpc _)
  | calling =>
    simp only [Logover.Placed, hpc] at hplaced
    have hnone := h (.log .call) trivial
    simp [step, Logover.step, hpc, Pqueue.step, hplaced] at hnone
  | inGet =>
    simp only [Logover.Placed, hpc] at hplaced
    have hlock : (s.queue.thread none).active = true → False := by
      intro hactive
      obtain ⟨q, hq⟩ := lock_enabled ql hactive
      have hnone := h (.log (.lock Finset.univ)) trivial
      simp [step, Logover.step, hpc, hq] at hnone
    rcases hplaced with hthread | hthread | hthread
    · exact (hlock (by rw [hthread]; rfl)).elim
    · exact ⟨rfl, hthread⟩
    · exact (hlock (by rw [hthread]; rfl)).elim

theorem nobody_woken (hd : Rotation.Kept before s.disk) (ha : Alive s) (c : Cond) :
    ¬ ∃ i, (s.queue.thread i).wokenFrom c := by
  rintro ⟨i, hi⟩
  cases i with
  | none =>
    rw [(h.log_asleep hl hd ha).2] at hi
    cases hi
  | some i =>
    have hinactive := h.inactive hl i
    cases ht : s.queue.thread (some i) with
    | woken call => simp [ht, Thread.active] at hinactive
    | idle | entering | asleep =>
      rw [ht] at hi
      cases hi

theorem nothing_left (hd : Rotation.Kept before s.disk) (ha : Alive s) :
    inHand s.pc = [] ∧ (∀ i, pending s i = []) ∧ ∀ l, Queue s.queue l → l = [] := by
  obtain ⟨hpc, hasleep⟩ := h.log_asleep hl hd ha
  have hsize : s.queue.cursize = 0 := by
    by_contra hne
    refine h.nobody_woken hl hd ha .free (ha.awake.covers.1 ⟨none, ?_⟩ hne)
    rw [hasleep]
    rfl
  refine ⟨by rw [hpc]; rfl, ?_, ?_⟩
  · intro i
    obtain ⟨l, ql⟩ := hl.queue
    have hpos := ql.pos
    rcases hl.caller i with hidle | ⟨a, hheld⟩
    · rw [pending, hidle]
      rfl
    · exfalso
      refine h.nobody_woken hl hd ha .full (ha.awake.covers.2 ⟨some i, ?_⟩ (by omega))
      have hinactive := h.inactive hl i
      cases ht : s.queue.thread (some i) with
      | asleep call =>
        cases call with
        | put b => rfl
        | get =>
          rw [ht] at hheld
          cases hheld
      | idle =>
        rw [ht] at hheld
        cases hheld
      | entering | woken => simp [ht, Thread.active] at hinactive
  · intro l ql
    have hlength := ql.size
    exact List.length_eq_zero_iff.mp (by omega)

end Stuck

def Draining (s : State ι N) (e : Label ι N) : Prop := e.Quiet ∧ Fresh s e

/-- What holds at every moment of a run without `logover`. -/
structure Running (before : Text) (s : State ι N) : Prop where
  logged : Logged s
  disk : Rotation.Kept before s.disk
  alive : Alive s

theorem running_step {e : Label ι N} (h : Running before s) (he : e.Normal ∧ Fresh s e)
    (ht : step s e = some t) : Running before t where
  logged := logged_step h.logged ht
  disk := disk_step h.disk he.2 ht
  alive := alive_step h.logged h.alive he.1 ht

theorem draining_step {e : Label ι N} (h : Running before s) (he : Draining s e)
    (ht : step s e = some t) : Running before t ∧ work t < work s := by
  have hnormal : e.Normal := by
    cases e with
    | log e =>
      cases e with
      | logover => exact he.1.elim
      | call | lock | spurious | write => trivial
    | logstring | lock | spurious | write => trivial
  exact ⟨running_step h ⟨hnormal, he.2⟩ ht, quiet_work h.logged h.alive he.1 ht⟩

omit [Fintype ι] [DecidableEq N] in
theorem messages_quiet {es : List (Label ι N)} (h : ∀ e ∈ es, e.Quiet) (i : ι) :
    messages i es = [] := by
  refine List.filterMap_eq_nil_iff.mpr fun e he ↦ ?_
  cases e with
  | logstring => exact (h _ he).elim
  | lock | spurious | log | write => rfl

theorem running_exec {next : N → Option N} {m_buf : N → Text} {files : Dir FileName Text}
    {es : List (Label ι N)} {s₀ : State ι N} (h₀ : logstart next m_buf files = some s₀)
    (hes : EachStep step (fun s e ↦ e.Normal ∧ Fresh s e) s₀ es) (h : exec step s₀ es = some s) :
    Running ((files.lookup serverLog).getD []) s := by
  have hawake : Alive s₀ := by
    obtain rfl := Option.some.inj h₀
    refine ⟨?_, rfl, by simp⟩
    constructor <;> simp [pqueue, Covered, count, Thread.asleepOn]
  obtain ⟨hlogged, hdisk, -⟩ := logged_logstart h₀
  exact (always_of_eachStep (fun _ _ _ hs hg ht ↦ running_step hs hg ht)
    ⟨hlogged, hdisk, hawake⟩ hes).exec h

/-- Without `logover` the log always drains: however the threads are scheduled, a
bounded number of steps after the last message and the last spurious wake-up no
thread can go on, and then every message is in the files. -/
theorem log_drains {next : N → Option N} {m_buf : N → Text} {files : Dir FileName Text}
    {es : List (Label ι N)} {s₀ s : State ι N} (h₀ : logstart next m_buf files = some s₀)
    (hes : EachStep step (fun s e ↦ e.Normal ∧ Fresh s e) s₀ es) (h : exec step s₀ es = some s) :
    (∀ es' t, EachStep step Draining s es' → exec step s es' = some t →
      es'.length ≤ work s ∧ (Stuck t → ∃ order : List (ι × Text),
        (∀ i, messages i es = (order.filter (·.1 = i)).map Prod.snd) ∧
        t.disk.archived ++ t.disk.server =
          (files.lookup serverLog).getD [] ++ (order.map Prod.snd).flatten)) ∧
    ∃ es' t, EachStep step Draining s es' ∧ exec step s es' = some t ∧ Stuck t := by
  have hrunning := running_exec h₀ hes h
  constructor
  · intro es' t hes' ht
    obtain ⟨⟨hlogged, hdisk, ha⟩, hlength⟩ :=
      length_add_le (fun _ _ _ hs he ht ↦ draining_step hs he ht) hrunning hes' ht
    refine ⟨by omega, ?_⟩
    intro hstuck
    have hfresh : EachStep step Fresh s₀ (es ++ es') :=
      (hes.mono fun _ _ hg ↦ hg.2).append h (hes'.mono fun _ _ hg ↦ hg.2)
    have hexec : exec step s₀ (es ++ es') = some t := by rw [exec_append h, ht]
    obtain ⟨order, written, hmessages, htext, -, hqueue⟩ := messages_in_order h₀ hfresh hexec
    obtain ⟨hhand, hpending, hempty⟩ := hstuck.nothing_left hlogged hdisk ha
    obtain ⟨l, hlinked, horder⟩ := hqueue (by simp [ha.stage])
    have hl : l = [] := by
      obtain ⟨l', ql⟩ := hlogged.queue
      have hhead := ql.linked
      rw [hempty l' ql] at hhead
      cases l with
      | nil => rfl
      | cons a l => exact absurd (hhead.symm.trans hlinked.1) (by simp)
    rw [hl, hhand, List.append_nil, List.filterMap_nil, List.append_nil] at horder
    refine ⟨order, ?_, horder ▸ htext⟩
    intro i
    have hquiet : messages i es' = [] := by
      refine messages_quiet (fun e he ↦ ?_) i
      obtain ⟨u, hu⟩ := hes'.of_mem ht he
      exact hu.1
    have hall := hmessages i
    rwa [hpending, List.map_nil, List.append_nil, messages, List.filterMap_append, ← messages,
      ← messages, hquiet, List.append_nil] at hall
  · obtain ⟨es', t, hes', ht, hit, hmax⟩ :=
      exists_maximal (fun _ _ _ hs he ht ↦ draining_step hs he ht) hrunning
    exact ⟨es', t, hes', ht, stuck_of_fresh hit.logged hit.disk hmax⟩

theorem log_drains_two : ∃ s₀ s t : State (Fin 2) ℕ,
    logstart (fun _ ↦ none) (fun _ ↦ []) ∅ = some s₀ ∧
    exec step s₀ [.logstring 0 7 "a".toList, .logstring 1 8 "b".toList, .lock 1 ∅] = some s ∧
    Stuck t ∧ ∃ es', ∃ order : List (Fin 2 × Text), exec step s es' = some t ∧
      es'.length ≤ work s ∧
      t.disk.archived ++ t.disk.server = [] ++ (order.map Prod.snd).flatten := by
  obtain ⟨s₀, h₀⟩ : ∃ s₀ : State (Fin 2) ℕ,
    logstart (fun _ ↦ none) (fun _ ↦ []) ∅ = some s₀ := ⟨_, rfl⟩
  obtain ⟨s, h⟩ : ∃ s, exec step s₀
      [.logstring 0 7 "a".toList, .logstring 1 8 "b".toList, .lock 1 ∅] = some s := by
    obtain rfl := Option.some.inj h₀
    exact ⟨_, rfl⟩
  have hes : EachStep step (fun s e ↦ e.Normal ∧ Fresh s e) s₀
      [.logstring 0 7 "a".toList, .logstring 1 8 "b".toList, .lock 1 ∅] := by
    obtain rfl := Option.some.inj h₀
    exact .cons rfl ⟨trivial, trivial⟩ <| .cons rfl ⟨trivial, trivial⟩ <|
      .cons rfl ⟨trivial, trivial⟩ trivial
  obtain ⟨hall, es', t, hes', ht, hstuck⟩ := log_drains h₀ hes h
  obtain ⟨hlength, hdelivered⟩ := hall es' t hes' ht
  obtain ⟨order, -, htext⟩ := hdelivered hstuck
  exact ⟨s₀, s, t, h₀, h, hstuck, es', order, ht, hlength, htext⟩

end FingerMove.Logmt.Logger
