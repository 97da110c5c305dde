import FingerMove.Logmt.Logover
import FingerMove.Logmt.Rotation
import FingerMove.Pqueue.Sections
import FingerMove.ProDeal.Pipeline
import Mathlib.Data.Fintype.Option

namespace FingerMove.Logmt.Logger

open CText Directory ProDeal Pqueue Machine Function

/-- The queue and the log thread, which is `none` among the threads, the text of
every node, and the files. `owner`, `said` and `freed` record which thread made a
node, what each thread has logged, and what the log thread has deleted. -/
structure State (ι N : Type) extends Logover.State (Option ι) N where
  m_buf : N → Text
  owner : N → Option ι
  said : ι → List Text
  freed : List N
  disk : Rotation.State

variable {ι N : Type} [DecidableEq ι] [Fintype ι] [DecidableEq N]

/-- `logstart`, called once and before anything is logged. -/
def logstart (next : N → Option N) (m_buf : N → Text) (files : Dir FileName Text) :
    Option (State ι N) := do
  let queue ← exec Pqueue.step (pqueue (Option ι) next) [.setsize 100, .setflag 0]
  let disk ← Rotation.step (Rotation.init files) .start
  return {
    queue, disk, m_buf
    pc := .calling
    stage := .before
    owner := fun _ ↦ none
    said := fun _ ↦ []
    freed := [] }

/-- `logstring` up to its call of `put`, a section of that call, and the steps of
the log thread and of `logover`. A write comes with the name `strftime` gives. -/
inductive Label (ι N : Type)
  | logstring (i : ι) (p : N) (str : Text)
  | lock (i : ι) (w : Finset (Option ι))
  | spurious (i : ι)
  | log (e : Logover.Label (Option ι))
  | write (fname : FileName)

/-- Behind its loop the log thread has closed its file. -/
def close (pc : Logover.Pc N) (disk : Rotation.State) : Rotation.State :=
  match pc with
  | .left => { disk with running := false, fp := false }
  | _ => disk

def step (s : State ι N) : Label ι N → Option (State ι N)
  | .logstring i p str => do
    let buf ← sprintf MAX_LINE_LEN (cstr str ++ ['\n'])
    let queue ← Pqueue.step s.queue (.callPut (some i) (some p))
    return { s with
      queue
      m_buf := update s.m_buf p buf
      owner := update s.owner p (some i)
      said := update s.said i (s.said i ++ [buf]) }
  | .lock i w => do
    let queue ← Pqueue.step s.queue (.lock (some i) w)
    return { s with queue }
  | .spurious i => do
    let queue ← Pqueue.step s.queue (.spurious (some i))
    return { s with queue }
  | .log .write => none
  | .log e => do
    let u ← Logover.step none s.toState e
    return { s with toState := u, disk := close u.pc s.disk }
  | .write fname => match s.pc with
    | .writing p => do
      let disk ← Rotation.step s.disk (.message fname (s.m_buf p))
      return { s with disk, freed := s.freed ++ [p], pc := .calling }
    | _ => none

/-- The name of a rotation is not in use. -/
def Fresh (s : State ι N) : Label ι N → Prop
  | .write fname => s.disk.count = 0 → fname ∉ s.disk.files
  | _ => True

def inHand : Logover.Pc N → List N
  | .writing p => [p]
  | _ => []

def pending (s : State ι N) (i : ι) : List N := (s.queue.thread (some i)).held.toList

def putBy (s : State ι N) (i : ι) : List N :=
  (puts s.queue.log).filter (s.owner · = some i)

/-- What holds of the log in every state: every message is with its thread, on
its way in the order of the `put`s, or in the files. -/
structure Logged (s : State ι N) : Prop where
  queue : ∃ l, Queue s.queue l
  placed : Logover.Placed none s.toState
  past : Past s.queue.log
  whole : s.stage ≠ .returned → sinceReset s.queue.log = s.queue.log
  caller : ∀ i, s.queue.thread (some i) = .idle ∨ ∃ a, (s.queue.thread (some i)).held = some a
  owned : ∀ i a, (s.queue.thread (some i)).held = some a → s.owner a = some i
  said : ∀ i, s.said i = (putBy s i).map s.m_buf ++ (pending s i).map s.m_buf
  made : ∀ a ∈ s.queue.issued, cstr (s.m_buf a) = s.m_buf a ∧ ∃ i, s.owner a = some i
  reached : ∀ a ∈ s.queue.issued, a ∈ puts s.queue.log ∨
    ∃ i, (s.queue.thread (some i)).held = some a
  taken : gots s.queue.log = s.freed ++ inHand s.pc
  text : s.disk.taken = s.freed.map s.m_buf
  running : s.disk.running = true ↔ s.pc ≠ .left

variable {before : Text} {s t : State ι N}

omit [Fintype ι] [DecidableEq N] in
theorem placed_signal {u : Logover.State (Option ι) N} (h : Logover.Placed none u) {c : Cond}
    {w : Finset (Option ι)} {thread : Option ι → Thread N} (hn : thread none = u.queue.thread none)
    {q : Pqueue.State (Option ι) N} (hq : q.thread = wake c w thread) :
    Logover.Placed none { u with queue := q } := by
  have hthread : q.thread none = u.queue.thread none ∨
      q.thread none = (u.queue.thread none).wake := by
    rw [hq, ← hn]
    exact wake_or c w thread none
  cases hpc : u.pc with
  | inGet =>
    simp only [Logover.Placed, hpc] at h ⊢
    rcases hthread with he | he <;> rcases h with h | h | h <;> simp [he, h, Thread.wake]
  | calling | writing | left =>
    simp only [Logover.Placed, hpc] at h ⊢
    rcases hthread with he | he <;> simp [he, h, Thread.wake]

theorem get_step {u v : Logover.State (Option ι) N} {w : Finset (Option ι)}
    (hp : Logover.Placed none u) (h : Logover.step none u (.lock w) = some v) :
    u.pc = .inGet ∧ v.stage = u.stage ∧
    (u.queue.thread none = .entering .get ∨ u.queue.thread none = .woken .get) ∧
    v.queue.issued = u.queue.issued ∧
    ((v.queue.log = u.queue.log ∧ v.queue.cursize = u.queue.cursize ∧
        v.queue.thread = update u.queue.thread none (.asleep .get) ∧ v.pc = .inGet) ∨
      (u.queue.overflag ≠ 0 ∧ v.queue.log = u.queue.log ++ [.get none] ∧
        v.queue.thread = update u.queue.thread none .idle ∧ v.pc = .left) ∨
      ∃ a w', v.queue.log = u.queue.log ++ [.get (some a)] ∧
        v.queue.cursize + 1 = u.queue.cursize ∧
        v.queue.thread = wake .full w' (update u.queue.thread none .idle) ∧
        v.pc = .writing a) := by
  simp only [Logover.step] at h
  split at h
  · next hpc =>
    obtain ⟨q, hq, h⟩ := Option.bind_eq_some_iff.mp h
    obtain rfl := Option.some.inj h
    simp only [Logover.Placed, hpc] at hp
    obtain ⟨hthread, hget⟩ : (u.queue.thread none = .entering .get ∨
        u.queue.thread none = .woken .get) ∧ u.queue.get none w = some q := by
      obtain ⟨a, ha, -⟩ | hget := lock_cases hq
      · rcases hp with hp | hp | hp <;> simp [hp] at ha
      · exact hget
    refine ⟨hpc, rfl, hthread, (get_ends hget).1, ?_⟩
    obtain ⟨hlog, hsize, hthread⟩ | ⟨hflag, hlog, hthread⟩ | ⟨a, w', hlog, hsize, hthread⟩ :=
      (get_ends hget).2
    · exact .inl ⟨hlog, hsize, hthread, by simp [hthread]⟩
    · exact .inr (.inl ⟨hflag, hlog, hthread, by simp [hthread, hlog, Logover.result]⟩)
    · refine .inr (.inr ⟨a, w', hlog, hsize, hthread, ?_⟩)
      simp [hthread, hlog, Logover.result, wake, Thread.asleepOn]
  · cases h

theorem log_cases {u v : Logover.State (Option ι) N} {e : Logover.Label (Option ι)}
    (he : e ≠ .write) (hp : Logover.Placed none u)
    (h : Logover.step none u e = some v) :
    v.queue.issued = u.queue.issued ∧
    (∀ i, v.queue.thread (some i) = u.queue.thread (some i) ∨
      v.queue.thread (some i) = (u.queue.thread (some i)).wake) ∧
    ((v.queue.log = u.queue.log ∧ inHand v.pc = inHand u.pc ∧ (v.pc = .left ↔ u.pc = .left) ∧
        (v.stage ≠ .returned → u.stage ≠ .returned)) ∨
      (∃ r, v.queue.log = u.queue.log ++ [.get r] ∧ inHand u.pc = [] ∧ u.pc ≠ .left ∧
        v.pc = r.elim .left .writing ∧ v.stage = u.stage ∧
        (r = none → u.queue.overflag ≠ 0)) ∨
      ∃ l, v.queue.log = u.queue.log ++ [.reset l] ∧ v.pc = u.pc ∧ v.stage = .returned) := by
  cases e with
  | write => exact absurd rfl he
  | call =>
    simp only [Logover.step] at h
    split at h
    · next hpc =>
      obtain ⟨q, hq, h⟩ := Option.bind_eq_some_iff.mp h
      obtain rfl := Option.some.inj h
      simp only [Pqueue.step] at hq
      split at hq
      · obtain rfl := Option.some.inj hq
        refine ⟨rfl, fun i ↦ .inl (by simp),
          .inl ⟨rfl, by rw [hpc]; rfl, by simp [hpc], id⟩⟩
      · cases hq
    · cases h
  | spurious =>
    simp only [Logover.step] at h
    split at h
    · next hpc =>
      obtain ⟨q, hq, h⟩ := Option.bind_eq_some_iff.mp h
      obtain rfl := Option.some.inj h
      simp only [Pqueue.step] at hq
      split at hq
      · obtain rfl := Option.some.inj hq
        exact ⟨rfl, fun i ↦ .inl (by simp),
          .inl ⟨rfl, rfl, Iff.rfl, id⟩⟩
      · cases hq
    · cases h
  | lock w =>
    obtain ⟨hpc, hstage, -, hissued, ⟨hlog, -, hthread, hpc'⟩ | ⟨hflag, hlog, hthread, hpc'⟩ |
      ⟨a, w', hlog, -, hthread, hpc'⟩⟩ := get_step hp h
    · refine ⟨hissued, fun i ↦ .inl (by rw [hthread, update_of_ne (Option.some_ne_none i)]),
        .inl ⟨hlog, by rw [hpc, hpc'], by simp [hpc, hpc'], fun hs ↦ hstage ▸ hs⟩⟩
    · refine ⟨hissued, fun i ↦ .inl (by rw [hthread, update_of_ne (Option.some_ne_none i)]),
        .inr (.inl ⟨none, hlog, by rw [hpc]; rfl, by simp [hpc], hpc', hstage, fun _ ↦ hflag⟩)⟩
    · refine ⟨hissued, ?_,
        .inr (.inl ⟨some a, hlog, by rw [hpc]; rfl, by simp [hpc], hpc', hstage, by simp⟩)⟩
      intro i
      have hwake := wake_or .full w' (update u.queue.thread none .idle) (some i)
      rw [update_of_ne (Option.some_ne_none i)] at hwake
      rw [hthread]
      exact hwake
  | logover =>
    simp only [Logover.step] at h
    split at h
    · next hstage =>
      obtain rfl := Option.some.inj h
      exact ⟨rfl, fun _ ↦ .inl rfl, .inl ⟨rfl, rfl, Iff.rfl, fun _ ↦ by simp [hstage]⟩⟩
    · next hstage =>
      obtain rfl := Option.some.inj h
      exact ⟨rfl, fun _ ↦ wake_or _ _ _ _,
        .inl ⟨rfl, rfl, Iff.rfl, fun _ ↦ by simp [hstage]⟩⟩
    · obtain ⟨q, hq, h⟩ := Option.bind_eq_some_iff.mp h
      obtain rfl := Option.some.inj h
      obtain ⟨l, -, rfl⟩ := Option.map_eq_some_iff.mp hq
      exact ⟨rfl, fun _ ↦ .inl rfl, .inr (.inr ⟨l, rfl, rfl, rfl⟩)⟩
    · cases h

section Close

omit [DecidableEq N]

theorem kept_close {disk : Rotation.State} (h : Rotation.Kept before disk) (pc : Logover.Pc N) :
    Rotation.Kept before (close pc disk) := by
  cases pc with
  | left =>
    refine ⟨⟨h.present, h.text, h.full, h.recent, h.bound⟩, h.fresh, ?_, h.held⟩
    intro hrun
    cases hrun
  | calling | inGet | writing => exact h

theorem close_running {disk : Rotation.State} {pc : Logover.Pc N}
    (h : pc ≠ .left → disk.running = true) : (close pc disk).running = true ↔ pc ≠ .left := by
  cases pc with
  | left => simp [close]
  | calling | inGet | writing => simpa [close] using h

theorem close_taken (disk : Rotation.State) (pc : Logover.Pc N) :
    (close pc disk).taken = disk.taken := by
  cases pc <;> rfl

end Close

theorem log_eq {e : Logover.Label (Option ι)} (h : step s (.log e) = some t) :
    e ≠ .write ∧ ∃ u, Logover.step none s.toState e = some u ∧
      { s with toState := u, disk := close u.pc s.disk } = t := by
  cases e with
  | write => cases h
  | call | lock | spurious | logover =>
    obtain ⟨u, hu, h⟩ := Option.bind_eq_some_iff.mp h
    exact ⟨by simp, u, hu, Option.some.inj h⟩

theorem logstring_cases {i : ι} {p : N} {str : Text}
    (h : step s (.logstring i p str) = some t) : ∃ buf, cstr buf = buf ∧
      sprintf MAX_LINE_LEN (cstr str ++ ['\n']) = some buf ∧
      s.queue.thread (some i) = .idle ∧ p ∉ s.queue.issued ∧
      Pqueue.step s.queue (.callPut (some i) (some p)) = some t.queue ∧
      t.queue.thread = update s.queue.thread (some i) (.entering (.put p)) ∧
      t.queue.issued = p :: s.queue.issued ∧ t.queue.log = s.queue.log ∧
      t = { s with
        queue := t.queue
        m_buf := update s.m_buf p buf
        owner := update s.owner p (some i)
        said := update s.said i (s.said i ++ [buf]) } := by
  obtain ⟨buf, hbuf, h⟩ := Option.bind_eq_some_iff.mp h
  obtain ⟨q, hq, h⟩ := Option.bind_eq_some_iff.mp h
  obtain rfl := Option.some.inj h
  have hstring : cstr buf = buf := by
    unfold sprintf at hbuf
    split at hbuf
    · rw [← Option.some.inj hbuf]
      refine cstr_eq_self fun hnul ↦ ?_
      rcases List.mem_append.mp hnul with hnul | hnul
      · exact not_mem_cstr str hnul
      · simp at hnul
    · cases hbuf
  have hstep := hq
  simp only [Pqueue.step] at hq
  split at hq
  · next hfresh =>
    obtain rfl := Option.some.inj hq
    exact ⟨buf, hstring, hbuf, hfresh.1, hfresh.2, hstep, rfl, rfl, rfl, rfl⟩
  · cases hq

theorem lock_ends {i : ι} {w : Finset (Option ι)}
    (hc : s.queue.thread (some i) = .idle ∨ ∃ a, (s.queue.thread (some i)).held = some a)
    (h : step s (.lock i w) = some t) : ∃ a,
      (s.queue.thread (some i) = .entering (.put a) ∨ s.queue.thread (some i) = .woken (.put a)) ∧
      Pqueue.step s.queue (.lock (some i) w) = some t.queue ∧
      s.queue.put (some i) a w = some t.queue ∧ t = { s with queue := t.queue } := by
  obtain ⟨q, hq, h⟩ := Option.bind_eq_some_iff.mp h
  obtain rfl := Option.some.inj h
  rcases lock_cases hq with ⟨a, ha, hput⟩ | ⟨hget, -⟩
  · exact ⟨a, ha, hq, hput, rfl⟩
  · rcases hc with hc | ⟨a, ha⟩
    · rw [hc] at hget
      rcases hget with hget | hget <;> cases hget
    · rcases hget with hget | hget <;> rw [hget] at ha <;> cases ha

namespace Logged

omit [Fintype ι] [DecidableEq N] in
theorem issued_of_pending (h : Logged s) {i : ι} {a : N} (ha : a ∈ pending s i) :
    a ∈ s.queue.issued := by
  obtain ⟨l, q⟩ := h.queue
  exact (q.held (some i) a (Option.mem_toList.mp ha)).1

omit [Fintype ι] [DecidableEq N] in
theorem issued_of_freed (h : Logged s) {a : N} (ha : a ∈ s.freed) :
    a ∈ s.queue.issued := by
  obtain ⟨l, q⟩ := h.queue
  refine q.issued a (q.account.mem_iff.mpr ?_)
  rw [h.taken]
  simp [ha]

theorem logstring (h : Logged s) {i : ι} {p : N} {str : Text}
    (ht : step s (.logstring i p str) = some t) : Logged t := by
  obtain ⟨buf, hstring, -, hidle, hfresh, hstep, hthread, hissued, hlog, ht⟩ := logstring_cases ht
  have hqueue := queue_step hstep h.queue
  generalize t.queue = q at *
  subst ht
  obtain ⟨l, ql⟩ := h.queue
  have hne : ∀ a ∈ s.queue.issued, a ≠ p := by
    rintro a ha rfl
    exact hfresh ha
  have hbuf : ∀ a ∈ s.queue.issued, update s.m_buf p buf a = s.m_buf a :=
    fun a ha ↦ update_of_ne (hne a ha) _ _
  have howner : ∀ a ∈ s.queue.issued, update s.owner p (some i) a = s.owner a :=
    fun a ha ↦ update_of_ne (hne a ha) _ _
  have hmap : ∀ as : List N, (∀ a ∈ as, a ∈ s.queue.issued) →
      as.map (update s.m_buf p buf) = as.map s.m_buf :=
    fun as has ↦ List.map_congr_left fun a ha ↦ hbuf a (has a ha)
  have hputBy : ∀ j, ((puts q.log).filter (update s.owner p (some i) · = some j)).map
      (update s.m_buf p buf) = (putBy s j).map s.m_buf := by
    intro j
    have hsame : (puts q.log).filter (update s.owner p (some i) · = some j) = putBy s j := by
      rw [hlog, putBy]
      exact List.filter_congr fun a ha ↦ by rw [howner a (ql.issued a ha)]
    rw [hsame]
    exact hmap _ fun a ha ↦ ql.issued a (List.mem_of_mem_filter ha)
  refine ⟨hqueue, ?_, hlog ▸ h.past, hlog ▸ h.whole, ?_, ?_, ?_, ?_, ?_, hlog ▸ h.taken, ?_,
    h.running⟩
  · refine placed_signal h.placed (c := .free) (w := ∅) ?_ (by rw [hthread, wake_empty])
    exact update_of_ne (Option.some_ne_none i).symm _ _
  · intro j
    simp only [hthread]
    rcases eq_or_ne j i with rfl | hj
    · exact .inr ⟨p, by rw [update_self]; rfl⟩
    · rw [update_of_ne (by simpa using hj)]
      exact h.caller j
  · intro j a ha
    simp only at ha ⊢
    rcases eq_or_ne j i with rfl | hj
    · rw [hthread, update_self] at ha
      rw [← Option.some.inj ha, update_self]
    · rw [hthread, update_of_ne (by simpa using hj)] at ha
      rw [howner a (ql.held (some j) a ha).1, h.owned j a ha]
  · intro j
    simp only [putBy, pending, hputBy, hthread]
    rcases eq_or_ne j i with rfl | hj
    · rw [update_self, update_self, h.said j, pending, hidle]
      simp [putBy, Thread.held, Call.val]
    · rw [update_of_ne hj, update_of_ne (by simpa using hj), h.said j]
      exact congrArg _ (hmap (pending s j) fun a ha ↦ h.issued_of_pending ha).symm
  · intro a ha
    simp only [hissued, List.mem_cons] at ha ⊢
    rcases ha with rfl | ha
    · rw [update_self, update_self]
      exact ⟨hstring, i, rfl⟩
    · rw [hbuf a ha, howner a ha]
      exact h.made a ha
  · intro a ha
    simp only [hissued, List.mem_cons] at ha
    simp only [hlog, hthread]
    rcases ha with rfl | ha
    · exact .inr ⟨i, by rw [update_self]; rfl⟩
    · refine (h.reached a ha).imp_right ?_
      rintro ⟨j, hj⟩
      have hji : j ≠ i := by
        rintro rfl
        rw [hidle] at hj
        cases hj
      exact ⟨j, by rw [update_of_ne (by simpa using hji)]; exact hj⟩
  · exact h.text.trans (hmap s.freed fun a ha ↦ h.issued_of_freed ha).symm

omit [Fintype ι] [DecidableEq N] in
theorem same (h : Logged s) {q : Pqueue.State (Option ι) N} (hqueue : ∃ l, Queue q l)
    (hlog : q.log = s.queue.log) (hissued : q.issued = s.queue.issued)
    (hnone : q.thread none = s.queue.thread none)
    (hcaller : ∀ j, q.thread (some j) = .idle ∨ ∃ a, (q.thread (some j)).held = some a)
    (hheld : ∀ j, (q.thread (some j)).held = (s.queue.thread (some j)).held) :
    Logged { s with queue := q } := by
  refine ⟨hqueue, ?_, hlog ▸ h.past, hlog ▸ h.whole, hcaller, ?_, ?_, hissued ▸ h.made, ?_,
    hlog ▸ h.taken, h.text, h.running⟩
  · exact placed_signal h.placed (c := .free) (w := ∅) hnone (wake_empty _ _).symm
  · intro j b hb
    exact h.owned j b (hheld j ▸ hb)
  · intro j
    simp only [putBy, pending, hlog, hheld]
    exact h.said j
  · intro b hb
    simp only [hlog, hheld]
    exact h.reached b (hissued ▸ hb)

omit [Fintype ι] [DecidableEq N] in
theorem linked (h : Logged s) {q : Pqueue.State (Option ι) N} {i : ι} {a : N}
    {w : Finset (Option ι)} (hqueue : ∃ l, Queue q l) (hlog : q.log = s.queue.log ++ [.put a])
    (hissued : q.issued = s.queue.issued)
    (hthread : q.thread = wake .free w (update s.queue.thread (some i) .idle))
    (ha : (s.queue.thread (some i)).held = some a) : Logged { s with queue := q } := by
  have hheld : ∀ j, (q.thread (some j)).held =
      if j = i then none else (s.queue.thread (some j)).held := by
    intro j
    rw [hthread, held_wake_idle]
    simp only [Option.some.injEq]
  refine ⟨hqueue, ?_, ?_, ?_, ?_, ?_, ?_, hissued ▸ h.made, ?_, ?_, h.text, h.running⟩
  · exact placed_signal h.placed (update_of_ne (Option.some_ne_none i).symm _ _) hthread
  · rw [hlog]
    exact h.past.put a
  · intro hstage
    rw [hlog, sinceReset_put, h.whole hstage]
  · intro j
    have hwake := wake_or .free w (update s.queue.thread (some i) .idle) (some j)
    simp only [hthread, Thread.idle_of_wake hwake, Thread.held_of_wake hwake]
    rcases eq_or_ne j i with rfl | hj
    · exact .inl (update_self _ _ _)
    · rw [update_of_ne (by simpa using hj)]
      exact h.caller j
  · intro j b hb
    rw [hheld j] at hb
    split at hb
    · cases hb
    · exact h.owned j b hb
  · intro j
    have howner := h.owned i a ha
    simp only [putBy, pending, hlog, hheld, puts_put, List.filter_append, List.map_append]
    rcases eq_or_ne j i with rfl | hj
    · rw [h.said j, if_pos rfl]
      simp [putBy, pending, ha, howner]
    · have hother : s.owner a ≠ some j := by
        rw [howner]
        simpa using hj.symm
      rw [h.said j, if_neg hj]
      simp [putBy, pending, hother]
  · intro b hb
    simp only [hlog, puts_put, List.mem_append, List.mem_singleton, hheld]
    rcases h.reached b (hissued ▸ hb) with hputs | ⟨j, hj⟩
    · exact .inl (.inl hputs)
    · rcases eq_or_ne j i with rfl | hji
      · exact .inl (.inr (Option.some.inj (hj.symm.trans ha)))
      · exact .inr ⟨j, by rw [if_neg hji]; exact hj⟩
  · rw [hlog, gots_put]
    exact h.taken

theorem lock (h : Logged s) {i : ι} {w : Finset (Option ι)}
    (ht : step s (.lock i w) = some t) : Logged t := by
  obtain ⟨a, hthread, hstep, hput, ht⟩ := lock_ends (h.caller i) ht
  have ha : (s.queue.thread (some i)).held = some a := by
    rcases hthread with hthread | hthread <;> rw [hthread] <;> rfl
  have hqueue := queue_step hstep h.queue
  rw [ht]
  have hissued := (put_ends hput).1
  obtain ⟨hlog, -, hthread⟩ | ⟨w', hlog, -, hthread⟩ := (put_ends hput).2
  · refine h.same hqueue hlog hissued ?_ ?_ ?_
    · rw [hthread, update_of_ne (Option.some_ne_none i).symm]
    · intro j
      rw [hthread]
      rcases eq_or_ne j i with rfl | hj
      · exact .inr ⟨a, by rw [update_self]; rfl⟩
      · rw [update_of_ne (by simpa using hj)]
        exact h.caller j
    · intro j
      rcases eq_or_ne j i with rfl | hj
      · rw [hthread, update_self, ha]
        rfl
      · rw [hthread, held_update (by simpa using hj)]
  · exact h.linked hqueue hlog hissued hthread ha

theorem spurious (h : Logged s) {i : ι} (ht : step s (.spurious i) = some t) :
    Logged t := by
  obtain ⟨q, hstep, ht⟩ := Option.bind_eq_some_iff.mp ht
  obtain rfl := Option.some.inj ht
  have hqueue := queue_step hstep h.queue
  simp only [Pqueue.step] at hstep
  split at hstep
  case h_2 => cases hstep
  next call hcall =>
  obtain ⟨hthread, hlog, hissued⟩ : q.thread = update s.queue.thread (some i) (.woken call) ∧
      q.log = s.queue.log ∧ q.issued = s.queue.issued := by
    obtain rfl := Option.some.inj hstep
    exact ⟨rfl, rfl, rfl⟩
  have hwoken : ∀ j, q.thread (some j) = s.queue.thread (some j) ∨
      q.thread (some j) = (s.queue.thread (some j)).wake := by
    intro j
    rw [hthread]
    rcases eq_or_ne j i with rfl | hj
    · rw [update_self, hcall]
      exact .inr rfl
    · exact .inl (update_of_ne (by simpa using hj) _ _)
  refine h.same hqueue hlog hissued ?_ ?_ fun j ↦ Thread.held_of_wake (hwoken j)
  · rw [hthread, update_of_ne (Option.some_ne_none i).symm]
  · intro j
    simp only [Thread.idle_of_wake (hwoken j), Thread.held_of_wake (hwoken j)]
    exact h.caller j

theorem log (h : Logged s) {e : Logover.Label (Option ι)}
    (ht : step s (.log e) = some t) : Logged t := by
  obtain ⟨he, u, hu, rfl⟩ := log_eq ht
  obtain ⟨hissued, hwoken, hcases⟩ := log_cases he h.placed hu
  have hcaller : ∀ i, u.queue.thread (some i) = .idle ∨
      ∃ a, (u.queue.thread (some i)).held = some a := by
    intro i
    simp only [Thread.idle_of_wake (hwoken i), Thread.held_of_wake (hwoken i)]
    exact h.caller i
  have howned : ∀ i a, (u.queue.thread (some i)).held = some a → s.owner a = some i :=
    fun i a ha ↦ h.owned i a (Thread.held_of_wake (hwoken i) ▸ ha)
  have hsaid : ∀ i, puts u.queue.log = puts s.queue.log → s.said i =
      ((puts u.queue.log).filter (s.owner · = some i)).map s.m_buf ++
        ((u.queue.thread (some i)).held.toList).map s.m_buf := by
    intro i hputs
    rw [hputs, Thread.held_of_wake (hwoken i)]
    exact h.said i
  have hreached : puts u.queue.log = puts s.queue.log → ∀ a ∈ u.queue.issued,
      a ∈ puts u.queue.log ∨ ∃ i, (u.queue.thread (some i)).held = some a := by
    intro hputs a ha
    simp only [hputs, Thread.held_of_wake (hwoken _)]
    exact h.reached a (hissued ▸ ha)
  have htext : (close u.pc s.disk).taken = s.freed.map s.m_buf := by
    rw [close_taken]
    exact h.text
  have hqueue := Logover.queue_kept hu h.queue
  have hplaced := Logover.placed_kept hu h.placed
  obtain ⟨hlog, hhand, hleft, hstage⟩ | ⟨r, hlog, hhand, hleft, hpc, hstage, -⟩ |
      ⟨l, hlog, hpc, hstage⟩ := hcases
  · refine ⟨hqueue, hplaced, hlog ▸ h.past, fun hs ↦ hlog ▸ h.whole (hstage hs), hcaller, howned,
      fun i ↦ hsaid i (by rw [hlog]), hissued ▸ h.made, hreached (by rw [hlog]), ?_, htext,
      close_running ?_⟩
    · simp only [hlog, hhand]
      exact h.taken
    · intro hne
      exact h.running.mpr (mt hleft.mpr hne)
  · refine ⟨hqueue, hplaced, ?_, ?_, hcaller, howned, fun i ↦ hsaid i (by rw [hlog, puts_get]),
      hissued ▸ h.made, hreached (by rw [hlog, puts_get]), ?_, htext,
      close_running fun _ ↦ h.running.mpr hleft⟩
    · simp only [hlog]
      exact h.past.get r
    · intro hs
      simp only [hlog, sinceReset_get]
      rw [h.whole (hstage ▸ hs)]
    · have htaken := h.taken
      rw [hhand, List.append_nil] at htaken
      simp only [hlog, hpc]
      cases r with
      | none => simp [htaken, inHand]
      | some p => simp [htaken, inHand]
  · obtain ⟨l', ql⟩ := h.queue
    refine ⟨hqueue, hplaced, ?_, fun hs ↦ absurd hstage hs, hcaller, howned,
      fun i ↦ hsaid i (by rw [hlog, puts_reset]), hissued ▸ h.made,
      hreached (by rw [hlog, puts_reset]), ?_, htext,
      close_running fun hne ↦ h.running.mpr (hpc ▸ hne)⟩
    · simp only [hlog]
      exact .reset (h.past.sublist ql) l
    · simp only [hlog, hpc, gots_reset]
      exact h.taken

theorem write (h : Logged s) {fname : FileName} (ht : step s (.write fname) = some t) :
    Logged t := by
  simp only [step] at ht
  split at ht
  case h_2 => cases ht
  next p hpc =>
  obtain ⟨disk, hdisk, ht⟩ := Option.bind_eq_some_iff.mp ht
  obtain rfl := Option.some.inj ht
  obtain ⟨l, ql⟩ := h.queue
  have htaken := h.taken
  rw [hpc, inHand] at htaken
  have hissued : p ∈ s.queue.issued := by
    refine ql.issued p (ql.account.mem_iff.mpr ?_)
    rw [htaken]
    simp
  have hplaced := h.placed
  simp only [Logover.Placed, hpc] at hplaced
  refine ⟨h.queue, hplaced, h.past, h.whole, h.caller, h.owned, h.said, h.made, h.reached, ?_,
    ?_, ?_⟩
  · simpa [inHand] using htaken
  · have hexec : exec Rotation.step s.disk [.message fname (s.m_buf p)] = some disk := by
      rw [exec, hdisk]
      rfl
    rw [Rotation.taken_exec hexec, h.text]
    simp [Rotation.messages, (h.made p hissued).1]
  · simp [Rotation.running_message hdisk]

end Logged

theorem logged_step {e : Label ι N} (h : Logged s) (ht : step s e = some t) : Logged t := by
  cases e with
  | logstring i p str => exact h.logstring ht
  | lock i w => exact h.lock ht
  | spurious i => exact h.spurious ht
  | log e => exact h.log ht
  | write fname => exact h.write ht

theorem disk_step {e : Label ι N} (h : Rotation.Kept before s.disk) (hfresh : Fresh s e)
    (ht : step s e = some t) : Rotation.Kept before t.disk := by
  cases e with
  | logstring i p str =>
    obtain ⟨buf, -, -, -, -, -, -, -, -, ht⟩ := logstring_cases ht
    rw [ht]
    exact h
  | lock | spurious =>
    obtain ⟨q, -, ht⟩ := Option.bind_eq_some_iff.mp ht
    obtain rfl := Option.some.inj ht
    exact h
  | log e =>
    obtain ⟨-, u, -, rfl⟩ := log_eq ht
    exact kept_close h u.pc
  | write fname =>
    simp only [step] at ht
    split at ht
    · next p hpc =>
      obtain ⟨disk, hdisk, ht⟩ := Option.bind_eq_some_iff.mp ht
      obtain rfl := Option.some.inj ht
      exact Rotation.kept_step (.message fname (s.m_buf p)) h hfresh hdisk
    · cases ht

theorem logged_logstart {next : N → Option N} {m_buf : N → Text} {files : Dir FileName Text}
    (h : logstart next m_buf files = some s) :
    Logged s ∧ Rotation.Kept ((files.lookup serverLog).getD []) s.disk ∧ s.said = fun _ ↦ [] := by
  have hqueue : exec Pqueue.step (pqueue (Option ι) next) [.setsize 100, .setflag 0] =
      some (pqueue (Option ι) next) := rfl
  simp only [logstart, hqueue, Option.bind_eq_bind, Option.bind_some] at h
  obtain ⟨disk, hdisk, h⟩ := Option.bind_eq_some_iff.mp h
  obtain rfl := Option.some.inj h
  obtain rfl := Option.some.inj hdisk
  refine ⟨⟨⟨[], queue_init next⟩, rfl, ⟨[], rfl, List.Sublist.refl _⟩, fun _ ↦ rfl,
    fun _ ↦ .inl rfl, ?_, fun _ ↦ rfl, ?_, ?_, rfl, rfl, ?_⟩,
    ⟨⟨?_, ?_, ?_, List.suffix_refl _, ?_⟩, fun _ ↦ rfl, ?_, ?_⟩, rfl⟩
  · intro i a ha
    cases ha
  · intro a ha
    cases ha
  · intro a ha
    cases ha
  · simp
  · intro a ha
    cases ha
  · exact (List.append_nil _).symm
  · intro a ha
    cases ha
  · show 0 < Rotation.MAX_LOG_CUNT
    decide
  · exact fun _ hne ↦ absurd rfl hne
  · exact fun hne ↦ absurd rfl hne

end FingerMove.Logmt.Logger
