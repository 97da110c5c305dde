import FingerMove.Pqueue.Fifo
import Mathlib.Data.Finset.Card
import Mathlib.Algebra.BigOperators.Group.Finset.Piecewise
import Mathlib.Algebra.Order.BigOperators.Group.Finset

namespace FingerMove.Pqueue

open Function Machine

variable {ι N : Type*} [Fintype ι]

def count (p : Thread N → Bool) (thread : ι → Thread N) : ℕ :=
  (Finset.univ.filter fun i ↦ p (thread i)).card

theorem count_eq_sum (p : Thread N → Bool) (thread : ι → Thread N) :
    count p thread = ∑ i, (p (thread i)).toNat := by
  rw [count, Finset.card_filter]
  exact Finset.sum_congr rfl (fun i _ ↦ by cases p (thread i) <;> rfl)

theorem count_pos {p : Thread N → Bool} {thread : ι → Thread N} :
    0 < count p thread ↔ ∃ i, p (thread i) := by
  simp [count, Finset.card_pos, Finset.Nonempty]

variable [DecidableEq ι]

theorem count_update {p : Thread N → Bool} {thread : ι → Thread N} {i : ι} {th : Thread N}
    {before after : Bool} (hb : p (thread i) = before) (ha : p th = after) :
    count p (update thread i th) + before.toNat = count p thread + after.toNat := by
  have hsum : ∀ f : ι → Thread N,
      count p f = (p (f i)).toNat + ∑ j ∈ Finset.univ.erase i, (p (f j)).toNat := by
    intro f
    rw [count_eq_sum, Finset.add_sum_erase Finset.univ (fun j ↦ (p (f j)).toNat)
      (Finset.mem_univ i)]
  have hrest : ∑ j ∈ Finset.univ.erase i, (p (update thread i th j)).toNat =
      ∑ j ∈ Finset.univ.erase i, (p (thread j)).toNat :=
    Finset.sum_congr rfl (fun j hj ↦ by rw [update_of_ne (Finset.ne_of_mem_erase hj)])
  rw [hsum, hsum thread, hrest, update_self, hb, ha]
  omega

theorem count_wake (c : Cond) (w : Finset ι) (thread : ι → Thread N) :
    ∃ k, count (Thread.asleepOn c) (wake c w thread) + k = count (Thread.asleepOn c) thread ∧
      count (Thread.wokenFrom c) (wake c w thread) = count (Thread.wokenFrom c) thread + k ∧
      ((∃ i ∈ w, (thread i).asleepOn c) → 0 < k) := by
  refine ⟨∑ i, (decide (i ∈ w ∧ (thread i).asleepOn c)).toNat, ?_, ?_, ?_⟩
  · rw [count_eq_sum, count_eq_sum, ← Finset.sum_add_distrib]
    apply Finset.sum_congr rfl
    intro i _
    by_cases h : i ∈ w ∧ (thread i).asleepOn c
    · cases ht : thread i <;> simp_all [wake, Thread.wake, Thread.asleepOn]
    · simp [wake, h]
  · rw [count_eq_sum, count_eq_sum, ← Finset.sum_add_distrib]
    apply Finset.sum_congr rfl
    intro i _
    by_cases h : i ∈ w ∧ (thread i).asleepOn c
    · cases ht : thread i <;> simp_all [wake, Thread.wake, Thread.asleepOn, Thread.wokenFrom]
    · simp [wake, h]
  · rintro ⟨i, hw, hi⟩
    have hle := Finset.single_le_sum
      (f := fun i ↦ (decide (i ∈ w ∧ (thread i).asleepOn c)).toNat)
      (fun _ _ ↦ Nat.zero_le _) (Finset.mem_univ i)
    simp only [hw, hi, and_self, decide_true, Bool.toNat_true] at hle
    omega

theorem count_wake_other {c d : Cond} (hcd : c ≠ d) (w : Finset ι) (thread : ι → Thread N) :
    count (Thread.asleepOn d) (wake c w thread) = count (Thread.asleepOn d) thread ∧
      count (Thread.wokenFrom d) (wake c w thread) = count (Thread.wokenFrom d) thread := by
  have hsame : ∀ i, (wake c w thread i).asleepOn d = (thread i).asleepOn d ∧
      (wake c w thread i).wokenFrom d = (thread i).wokenFrom d := by
    intro i
    by_cases h : i ∈ w ∧ (thread i).asleepOn c
    · cases ht : thread i <;> simp_all [wake, Thread.wake, Thread.asleepOn, Thread.wokenFrom]
    · simp [wake, h]
  simp only [count, hsame, and_self]

/-- The waiter counter of `c` covers its sleepers, and while threads sleep on `c`
there is a pending wake-up for each of the `avail` items or slots. -/
def Covered (c : Cond) (waiters avail : ℤ) (thread : ι → Thread N) : Prop :=
  (count (Thread.asleepOn c) thread : ℤ) ≤ waiters ∧
  (0 < count (Thread.asleepOn c) thread → avail ≤ count (Thread.wokenFrom c) thread)

namespace Covered

variable {c d : Cond} {waiters avail : ℤ} {thread : ι → Thread N} {i : ι} {call : Call N}

theorem sleep (h : Covered c waiters avail thread) (hc : call.cond = c)
    (hi : thread i = .entering call ∨ thread i = .woken call) (ha : avail ≤ 0) :
    Covered c (waiters + 1) avail (update thread i (.asleep call)) := by
  have ho : (thread i).asleepOn c = false := by rcases hi with hi | hi <;> rw [hi] <;> rfl
  have hs := count_update ho (show (Thread.asleep call).asleepOn c = true by
    simpa [Thread.asleepOn] using hc)
  simp only [Bool.toNat_true, Bool.toNat_false] at hs
  obtain ⟨hwait, -⟩ := h
  exact ⟨by omega, fun _ ↦ by omega⟩

theorem take (h : Covered c waiters avail thread)
    (hi : thread i = .entering call ∨ thread i = .woken call) :
    Covered c waiters (avail - 1) (update thread i .idle) := by
  have ho : (thread i).asleepOn c = false := by rcases hi with hi | hi <;> rw [hi] <;> rfl
  have hs := count_update ho (show (Thread.idle : Thread N).asleepOn c = false from rfl)
  have hw := count_update (Eq.refl ((thread i).wokenFrom c))
    (show (Thread.idle : Thread N).wokenFrom c = false from rfl)
  have hb := Bool.toNat_le ((thread i).wokenFrom c)
  simp only [Bool.toNat_false] at hs hw
  obtain ⟨hwait, hcover⟩ := h
  exact ⟨by omega, fun hpos ↦ by have := hcover (by omega); omega⟩

theorem other (h : Covered c waiters avail thread) {th : Thread N}
    (hi : (thread i).asleepOn c = false ∧ (thread i).wokenFrom c = false)
    (hth : th.asleepOn c = false ∧ th.wokenFrom c = false) :
    Covered c waiters avail (update thread i th) := by
  have hs := count_update hi.1 hth.1
  have hw := count_update hi.2 hth.2
  simp only [Bool.toNat_false, Nat.add_zero] at hs hw
  rw [Covered, hs, hw]
  exact h

theorem enter (h : Covered c waiters avail thread) (hi : thread i = .idle) (call : Call N) :
    Covered c waiters avail (update thread i (.entering call)) := by
  apply h.other
  · rw [hi]
    exact ⟨rfl, rfl⟩
  · exact ⟨rfl, rfl⟩

theorem spurious (h : Covered c waiters avail thread) (hi : thread i = .asleep call) :
    Covered c waiters avail (update thread i (.woken call)) := by
  have hs := count_update (show (thread i).asleepOn c = decide (call.cond = c) by rw [hi]; rfl)
    (show (Thread.woken call).asleepOn c = false from rfl)
  have hw := count_update (show (thread i).wokenFrom c = false by rw [hi]; rfl)
    (show (Thread.woken call).wokenFrom c = decide (call.cond = c) from rfl)
  simp only [Bool.toNat_false] at hs hw
  obtain ⟨hwait, hcover⟩ := h
  exact ⟨by omega, fun hpos ↦ by have := hcover (by omega); omega⟩

theorem signal (h : Covered c waiters avail thread) {w : Finset ι}
    (hw : (∃ i, (thread i).asleepOn c) → ∃ i ∈ w, (thread i).asleepOn c) (hpos : 0 < waiters) :
    Covered c (waiters - 1) (avail + 1) (wake c w thread) := by
  obtain ⟨k, hs, hp, hk⟩ := count_wake c w thread
  obtain ⟨hwait, hcover⟩ := h
  have hone : 0 < count (Thread.asleepOn c) thread → 0 < k := fun hn ↦ hk (hw (count_pos.mp hn))
  exact ⟨by omega, fun hn ↦ by have := hcover (by omega); have := hone (by omega); omega⟩

theorem broadcast (h : Covered c waiters avail thread) :
    Covered c waiters avail (wake c Finset.univ thread) := by
  obtain ⟨k, hs, hp, -⟩ := count_wake c Finset.univ thread
  obtain ⟨hwait, hcover⟩ := h
  exact ⟨by omega, fun hn ↦ by have := hcover (by omega); omega⟩

theorem wake_other (h : Covered d waiters avail thread) (hcd : c ≠ d) (w : Finset ι) :
    Covered d waiters avail (wake c w thread) := by
  obtain ⟨hs, hp⟩ := count_wake_other hcd w thread
  rw [Covered, hs, hp]
  exact h

omit [DecidableEq ι] in
theorem nobody (h : Covered c waiters avail thread) (hw : waiters ≤ 0) (n : ℤ) :
    Covered c waiters n thread := by
  obtain ⟨hwait, -⟩ := h
  exact ⟨hwait, fun hn ↦ by omega⟩

end Covered

/-- The state of normal operation: the items cover the getters that sleep on
`m_free`, the free slots cover the putters that sleep on `m_full`. -/
structure Awake (s : State ι N) : Prop where
  flag : s.overflag = 0
  size : 0 ≤ s.cursize
  free : Covered .free s.freewait s.cursize s.thread
  full : Covered .full s.fullwait (s.maxsize - s.cursize) s.thread

def Label.Normal : Label ι N → Prop
  | .setsize _ | .setflag _ | .resetqueue => False
  | _ => True

theorem outside {th : Thread N} {call : Call N} {c : Cond} (hc : call.cond ≠ c)
    (h : th = .entering call ∨ th = .woken call) :
    th.asleepOn c = false ∧ th.wokenFrom c = false := by
  rcases h with rfl | rfl <;> simp [Thread.asleepOn, Thread.wokenFrom, hc]

theorem Awake.get {s t : State ι N} (h : Awake s) {i : ι} {w : Finset ι}
    (hi : s.thread i = .entering .get ∨ s.thread i = .woken .get)
    (hs : s.get i w = some t) : Awake t := by
  have hout := outside (c := .full) (by simp [Call.cond]) hi
  have hsize := h.size
  rcases get_cases hs with ⟨hflag, -⟩ | ⟨hc, -, rfl⟩ | ⟨hc, -, a, -, hs⟩
  · exact absurd h.flag hflag
  · exact ⟨h.flag, h.size, h.free.sleep rfl hi (by omega), h.full.other hout ⟨rfl, rfl⟩⟩
  · have htake : Covered .free s.freewait (s.cursize - 1) (s.unlink i a).thread :=
      h.free.take hi
    have hroom : Covered .full s.fullwait (s.maxsize - s.cursize) (s.unlink i a).thread :=
      h.full.other hout ⟨rfl, rfl⟩
    have hadd : s.maxsize - s.cursize + 1 = s.maxsize - (s.cursize - 1) := by omega
    rcases hs with ⟨hw, u, hu, rfl⟩ | ⟨hw, rfl⟩
    · obtain ⟨rfl, hwake⟩ := signal_eq hu
      refine ⟨h.flag, ?_, htake.wake_other (by simp) w, hadd ▸ hroom.signal hwake hw⟩
      change 0 ≤ s.cursize - 1
      omega
    · refine ⟨h.flag, ?_, htake, hroom.nobody hw _⟩
      change 0 ≤ s.cursize - 1
      omega

variable [DecidableEq N]

theorem Awake.put {s t : State ι N} (h : Awake s) {i : ι} {a : N} {w : Finset ι}
    (hi : s.thread i = .entering (.put a) ∨ s.thread i = .woken (.put a))
    (hs : s.put i a w = some t) : Awake t := by
  have hout := outside (c := .free) (by simp [Call.cond]) hi
  have hlink : Covered .free s.freewait s.cursize (s.link i a).thread :=
    h.free.other hout ⟨rfl, rfl⟩
  have htake : Covered .full s.fullwait (s.maxsize - s.cursize - 1) (s.link i a).thread :=
    h.full.take hi
  have hsize := h.size
  have hadd : s.maxsize - s.cursize - 1 = s.maxsize - (s.cursize + 1) := by omega
  rcases put_cases hs with ⟨hfull, rfl⟩ | ⟨-, hw, u, hu, rfl⟩ | ⟨-, hw, rfl⟩
  · exact ⟨h.flag, h.size, h.free.other hout ⟨rfl, rfl⟩, h.full.sleep rfl hi (by omega)⟩
  · obtain ⟨rfl, hwake⟩ := signal_eq hu
    refine ⟨h.flag, ?_, hlink.signal hwake hw, ?_⟩
    · show 0 ≤ s.cursize + 1
      omega
    · exact (hadd ▸ htake).wake_other (by simp) w
  · refine ⟨h.flag, ?_, hlink.nobody hw _, hadd ▸ htake⟩
    change 0 ≤ s.cursize + 1
    omega

theorem awake_step {s t : State ι N} {e : Label ι N} (h : Awake s) (hn : e.Normal)
    (hs : step s e = some t) : Awake t := by
  cases e with
  | callPut i val =>
    cases val with
    | none => exact Option.some.inj hs ▸ h
    | some a =>
      simp only [step] at hs
      split at hs
      · next hi =>
        cases hs
        exact ⟨h.flag, h.size, h.free.enter hi.1 _, h.full.enter hi.1 _⟩
      · cases hs
  | callGet i =>
    simp only [step] at hs
    split at hs
    · next hi =>
      cases hs
      exact ⟨h.flag, h.size, h.free.enter hi _, h.full.enter hi _⟩
    · cases hs
  | lock i w =>
    rcases lock_cases hs with ⟨a, hi, hs⟩ | ⟨hi, hs⟩
    · exact h.put hi hs
    · exact h.get hi hs
  | spurious i =>
    simp only [step] at hs
    split at hs
    · next call hi =>
      cases hs
      exact ⟨h.flag, h.size, h.free.spurious hi, h.full.spurious hi⟩
    · cases hs
  | releaseFree =>
    cases hs
    exact ⟨h.flag, h.size, h.free.broadcast, h.full.wake_other (by simp) _⟩
  | setsize size => exact hn.elim
  | setflag flag => exact hn.elim
  | resetqueue => exact hn.elim

omit [DecidableEq ι] [DecidableEq N] in
theorem Awake.covers {s : State ι N} (h : Awake s) :
    ((∃ i, (s.thread i).asleepOn .free) → s.cursize ≠ 0 → ∃ i, (s.thread i).wokenFrom .free) ∧
    ((∃ i, (s.thread i).asleepOn .full) → s.cursize < s.maxsize →
      ∃ i, (s.thread i).wokenFrom .full) := by
  have hsize := h.size
  constructor
  · intro hsleep hc
    have hcover := h.free.2 (count_pos.mpr hsleep)
    exact count_pos.mp (by omega)
  · intro hsleep hc
    have hcover := h.full.2 (count_pos.mpr hsleep)
    exact count_pos.mp (by omega)

/-- No wake-up is lost in normal operation, whatever the bound of the queue. -/
theorem no_lost_wakeup (next : N → Option N) (size : ℤ) (es : List (Label ι N)) (s : State ι N)
    (hn : ∀ e ∈ es, e.Normal)
    (h : exec step { pqueue ι next with maxsize := size } es = some s) :
    (count (Thread.asleepOn .free) s.thread : ℤ) ≤ s.freewait ∧
    (count (Thread.asleepOn .full) s.thread : ℤ) ≤ s.fullwait ∧
    ((∃ i, (s.thread i).asleepOn .free) → s.cursize ≠ 0 → ∃ i, (s.thread i).wokenFrom .free) ∧
    ((∃ i, (s.thread i).asleepOn .full) → s.cursize < s.maxsize →
      ∃ i, (s.thread i).wokenFrom .full) := by
  have hinit : Awake { pqueue ι next with maxsize := size } := by
    constructor <;> simp [pqueue, Covered, count, Thread.asleepOn]
  have ha : Awake s := exec_invariant (fun _ _ _ ha hg ht ↦ awake_step ha hg ht) hinit hn h
  exact ⟨ha.free.1, ha.full.1, ha.covers⟩

theorem no_lost_wakeup_get_put :
    ∃ s, exec step { pqueue (Fin 2) (fun _ : ℕ ↦ none) with maxsize := 1 }
        [.callGet 0, .lock 0 ∅, .callPut 1 (some 7), .lock 1 {0}] = some s ∧
      s.cursize ≠ 0 ∧ (count (Thread.asleepOn .free) s.thread : ℤ) ≤ s.freewait ∧
      ((∃ i, (s.thread i).asleepOn .free) → s.cursize ≠ 0 → ∃ i, (s.thread i).wokenFrom .free) := by
  obtain ⟨hwait, -, hwoken, -⟩ := no_lost_wakeup (fun _ : ℕ ↦ none) 1
    ([.callGet 0, .lock 0 ∅, .callPut 1 (some 7), .lock 1 {0}] : List (Label (Fin 2) ℕ)) _
    (by simp [Label.Normal]) rfl
  exact ⟨_, rfl, by decide, hwait, hwoken⟩

end FingerMove.Pqueue
