import FingerMove.Library.Machine
import FingerMove.Library.PointerList
import Mathlib.Data.Fintype.Basic
import Mathlib.Data.Finset.Basic

namespace FingerMove.Pqueue

open PointerList Function

inductive Cond
  | free
  | full
  deriving DecidableEq

inductive Call (N : Type*)
  | put (val : N)
  | get
  deriving DecidableEq

def Call.cond {N : Type*} : Call N → Cond
  | .put _ => .full
  | .get => .free

def Call.val {N : Type*} : Call N → Option N
  | .put a => some a
  | .get => none

/-- Where a thread is: outside the queue, about to take `m_lock` for the first
time, inside `pthread_cond_wait`, or signalled and about to take `m_lock` again. -/
inductive Thread (N : Type*)
  | idle
  | entering (call : Call N)
  | asleep (call : Call N)
  | woken (call : Call N)
  deriving DecidableEq

namespace Thread

variable {N : Type*}

def held : Thread N → Option N
  | .idle => none
  | .entering call | .asleep call | .woken call => call.val

def asleepOn (c : Cond) : Thread N → Bool
  | .asleep call => call.cond = c
  | .idle | .entering _ | .woken _ => false

def wokenFrom (c : Cond) : Thread N → Bool
  | .woken call => call.cond = c
  | .idle | .entering _ | .asleep _ => false

def wake : Thread N → Thread N
  | .asleep call => .woken call
  | t => t

end Thread

/-- What the critical sections did: linked a node, returned a node or null from
`get`, deleted nodes in `resetqueue`. -/
inductive Event (N : Type*)
  | put (a : N)
  | get (r : Option N)
  | reset (l : List N)

/-- The fields of `pqueue`, the `m_next` field of every node, and the threads.
`issued` lists the nodes allocated so far, `log` records what the calls did. -/
structure State (ι N : Type*) where
  head : Option N
  tail : Slot N
  next : N → Option N
  cursize : ℤ
  maxsize : ℤ
  overflag : ℤ
  fullwait : ℤ
  freewait : ℤ
  thread : ι → Thread N
  issued : List N
  log : List (Event N)

def DEFAULT_SIZE : ℤ := 100

def pqueue (ι : Type*) {N : Type*} (next : N → Option N) : State ι N where
  head := none
  tail := .head
  next := next
  cursize := 0
  maxsize := DEFAULT_SIZE
  overflag := 0
  fullwait := 0
  freewait := 0
  thread := fun _ ↦ .idle
  issued := []
  log := []

variable {ι N : Type*} [DecidableEq ι]

def wake (c : Cond) (w : Finset ι) (thread : ι → Thread N) (i : ι) : Thread N :=
  if i ∈ w ∧ (thread i).asleepOn c then (thread i).wake else thread i

theorem held_wake (c : Cond) (w : Finset ι) (thread : ι → Thread N) (i : ι) :
    (wake c w thread i).held = (thread i).held := by
  unfold wake
  split
  · cases thread i <;> rfl
  · rfl

def State.leave (s : State ι N) (i : ι) (e : Event N) : State ι N :=
  { s with thread := update s.thread i .idle, log := s.log ++ [e] }

@[simp] theorem leave_log (s : State ι N) (i : ι) (e : Event N) :
    (s.leave i e).log = s.log ++ [e] := rfl

def State.unlink (s : State ι N) (i : ι) (a : N) : State ι N :=
  { s with
    head := s.next a
    tail := if (s.next a).isNone then .head else s.tail
    cursize := s.cursize - 1 }.leave i (.get (some a))

@[simp] theorem unlink_log (s : State ι N) (i : ι) (a : N) :
    (s.unlink i a).log = s.log ++ [.get (some a)] := rfl

section

variable [DecidableEq N]

def State.link (s : State ι N) (i : ι) (a : N) : State ι N :=
  { s with
    cursize := s.cursize + 1
    head := (store s.head s.next (some a) s.tail).1
    next := (store s.head s.next (some a) s.tail).2
    tail := .next a }.leave i (.put a)

@[simp] theorem link_log (s : State ι N) (i : ι) (a : N) :
    (s.link i a).log = s.log ++ [.put a] := rfl

end

/-- `resetqueue`. The walk has as many steps as there are nodes in memory. -/
def State.resetqueue (s : State ι N) : Option (State ι N) :=
  (walk s.next s.issued.length s.head).map fun l ↦ { s with
    head := none
    tail := .head
    cursize := 0
    maxsize := DEFAULT_SIZE
    overflag := 0
    freewait := 0
    fullwait := 0
    log := s.log ++ [.reset l] }

variable [Fintype ι]

/-- `pthread_cond_signal`: the woken threads `w` include a sleeper if there is one. -/
def State.signal (s : State ι N) (c : Cond) (w : Finset ι) : Option (State ι N) :=
  if (∃ i, (s.thread i).asleepOn c) → ∃ i ∈ w, (s.thread i).asleepOn c then
    some { s with thread := wake c w s.thread }
  else none

theorem signal_eq {s t : State ι N} {c : Cond} {w : Finset ι} (h : s.signal c w = some t) :
    t = { s with thread := wake c w s.thread } ∧
      ((∃ i, (s.thread i).asleepOn c) → ∃ i ∈ w, (s.thread i).asleepOn c) := by
  unfold State.signal at h
  split at h
  · next hw => exact ⟨(Option.some.inj h).symm, hw⟩
  · cases h

def State.broadcast (s : State ι N) (c : Cond) : State ι N :=
  { s with thread := wake c Finset.univ s.thread }

/-- `get` from taking `m_lock` until it is released, once on each path, or waited with.
Reading the link of a null head is undefined. -/
def State.get (s : State ι N) (i : ι) (w : Finset ι) : Option (State ι N) :=
  if s.cursize = 0 then
    if s.overflag ≠ 0 then some (s.leave i (.get none))
    else some { s with
      freewait := s.freewait + 1
      thread := update s.thread i (.asleep .get) }
  else if s.overflag ≠ 0 then some (s.leave i (.get none))
  else s.head.bind fun a ↦
    if 0 < s.fullwait then
      ((s.unlink i a).signal .full w).map fun t ↦ { t with fullwait := t.fullwait - 1 }
    else some (s.unlink i a)

theorem get_cases {s t : State ι N} {i : ι} {w : Finset ι} (h : s.get i w = some t) :
    (s.overflag ≠ 0 ∧ t = s.leave i (.get none)) ∨
    (s.cursize = 0 ∧ s.overflag = 0 ∧ t = { s with
      freewait := s.freewait + 1
      thread := update s.thread i (.asleep .get) }) ∨
    (s.cursize ≠ 0 ∧ s.overflag = 0 ∧ ∃ a, s.head = some a ∧
      ((0 < s.fullwait ∧ ∃ u, (s.unlink i a).signal .full w = some u ∧
        t = { u with fullwait := u.fullwait - 1 }) ∨
      (s.fullwait ≤ 0 ∧ t = s.unlink i a))) := by
  unfold State.get at h
  split at h
  · next hc =>
    split at h
    · next ho => exact .inl ⟨ho, (Option.some.inj h).symm⟩
    · next ho => exact .inr (.inl ⟨hc, not_not.mp ho, (Option.some.inj h).symm⟩)
  · next hc =>
    split at h
    · next ho => exact .inl ⟨ho, (Option.some.inj h).symm⟩
    · next ho =>
      obtain ⟨a, ha, h⟩ := Option.bind_eq_some_iff.mp h
      refine .inr (.inr ⟨hc, not_not.mp ho, a, ha, ?_⟩)
      split at h
      · next hw =>
        obtain ⟨u, hu, rfl⟩ := Option.map_eq_some_iff.mp h
        exact .inl ⟨hw, u, hu, rfl⟩
      · next hw => exact .inr ⟨not_lt.mp hw, (Option.some.inj h).symm⟩

variable [DecidableEq N]

def State.put (s : State ι N) (i : ι) (a : N) (w : Finset ι) : Option (State ι N) :=
  if s.maxsize ≤ s.cursize then
    some { s with
      fullwait := s.fullwait + 1
      thread := update s.thread i (.asleep (.put a)) }
  else if 0 < s.freewait then
    ((s.link i a).signal .free w).map fun t ↦ { t with freewait := t.freewait - 1 }
  else some (s.link i a)

theorem put_cases {s t : State ι N} {i : ι} {a : N} {w : Finset ι} (h : s.put i a w = some t) :
    (s.maxsize ≤ s.cursize ∧ t = { s with
      fullwait := s.fullwait + 1
      thread := update s.thread i (.asleep (.put a)) }) ∨
    (s.cursize < s.maxsize ∧ 0 < s.freewait ∧ ∃ u, (s.link i a).signal .free w = some u ∧
      t = { u with freewait := u.freewait - 1 }) ∨
    (s.cursize < s.maxsize ∧ s.freewait ≤ 0 ∧ t = s.link i a) := by
  unfold State.put at h
  split at h
  · next hfull => exact .inl ⟨hfull, (Option.some.inj h).symm⟩
  · next hfull =>
    have hlt := not_le.mp hfull
    split at h
    · next hw =>
      obtain ⟨u, hu, rfl⟩ := Option.map_eq_some_iff.mp h
      exact .inr (.inl ⟨hlt, hw, u, hu, rfl⟩)
    · next hw => exact .inr (.inr ⟨hlt, not_lt.mp hw, (Option.some.inj h).symm⟩)

/-- One atomic step. `lock` runs the pending call of a thread, whose signal
wakes the threads `w`; `put` clears the link of a fresh node before it locks. -/
inductive Label (ι N : Type*)
  | callPut (i : ι) (val : Option N)
  | callGet (i : ι)
  | lock (i : ι) (w : Finset ι)
  | spurious (i : ι)
  | setsize (size : ℤ)
  | setflag (flag : ℤ)
  | releaseFree
  | resetqueue

def step (s : State ι N) : Label ι N → Option (State ι N)
  | .callPut _ none => some s
  | .callPut i (some a) =>
    if s.thread i = .idle ∧ a ∉ s.issued then
      some { s with
        next := update s.next a none
        thread := update s.thread i (.entering (.put a))
        issued := a :: s.issued }
    else none
  | .callGet i =>
    if s.thread i = .idle then
      some { s with thread := update s.thread i (.entering .get) }
    else none
  | .lock i w => match s.thread i with
    | .entering (.put a) | .woken (.put a) => s.put i a w
    | .entering .get | .woken .get => s.get i w
    | _ => none
  | .spurious i => match s.thread i with
    | .asleep call => some { s with thread := update s.thread i (.woken call) }
    | _ => none
  | .setsize size => some (if s.cursize < size then { s with maxsize := size } else s)
  | .setflag flag => some { s with overflag := flag }
  | .releaseFree => some (s.broadcast .free)
  | .resetqueue => s.resetqueue

theorem lock_cases {s t : State ι N} {i : ι} {w : Finset ι} (h : step s (.lock i w) = some t) :
    (∃ a, (s.thread i = .entering (.put a) ∨ s.thread i = .woken (.put a)) ∧ s.put i a w = some t) ∨
    ((s.thread i = .entering .get ∨ s.thread i = .woken .get) ∧ s.get i w = some t) := by
  simp only [step] at h
  split at h
  · next a ht => exact .inl ⟨a, .inl ht, h⟩
  · next a ht => exact .inl ⟨a, .inr ht, h⟩
  · next ht => exact .inr ⟨.inl ht, h⟩
  · next ht => exact .inr ⟨.inr ht, h⟩
  · cases h

end FingerMove.Pqueue
