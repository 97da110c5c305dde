import FingerMove.Pqueue.Wakeup

namespace FingerMove.Pqueue

open Function Machine

variable {ι N : Type*} [DecidableEq ι]

@[simp] theorem wake_empty (c : Cond) (thread : ι → Thread N) : wake c ∅ thread = thread := by
  funext i
  simp [wake]

theorem wake_or (c : Cond) (w : Finset ι) (thread : ι → Thread N) (i : ι) :
    wake c w thread i = thread i ∨ wake c w thread i = (thread i).wake := by
  unfold wake
  split
  · exact .inr rfl
  · exact .inl rfl

omit [DecidableEq ι] in
theorem Thread.held_of_wake {t u : Thread N} (h : t = u ∨ t = u.wake) : t.held = u.held := by
  rcases h with rfl | rfl
  · rfl
  · cases u <;> rfl

omit [DecidableEq ι] in
theorem Thread.idle_of_wake {t u : Thread N} (h : t = u ∨ t = u.wake) :
    t = .idle ↔ u = .idle := by
  rcases h with rfl | rfl
  · rfl
  · cases u <;> simp [Thread.wake]

def Thread.active : Thread N → Bool
  | .entering _ | .woken _ => true
  | .idle | .asleep _ => false

def Thread.holding (t : Thread N) : Bool := t.held.isSome

section Sections

variable [Fintype ι] {s t : State ι N} {i : ι} {a : N} {w : Finset ι}

theorem get_ends (h : s.get i w = some t) : t.issued = s.issued ∧
    ((t.log = s.log ∧ t.cursize = s.cursize ∧ t.thread = update s.thread i (.asleep .get)) ∨
    (s.overflag ≠ 0 ∧ t.log = s.log ++ [.get none] ∧ t.thread = update s.thread i .idle) ∨
    ∃ a w', t.log = s.log ++ [.get (some a)] ∧ t.cursize + 1 = s.cursize ∧
      t.thread = wake .full w' (update s.thread i .idle)) := by
  rcases get_cases h with ⟨hflag, rfl⟩ | ⟨-, -, rfl⟩ | ⟨-, -, a, -, ⟨-, u, hu, rfl⟩ | ⟨-, rfl⟩⟩
  · exact ⟨rfl, .inr (.inl ⟨hflag, rfl, rfl⟩)⟩
  · exact ⟨rfl, .inl ⟨rfl, rfl, rfl⟩⟩
  · obtain ⟨rfl, -⟩ := signal_eq hu
    exact ⟨rfl, .inr (.inr ⟨a, w, rfl, Int.sub_add_cancel _ _, rfl⟩)⟩
  · exact ⟨rfl, .inr (.inr ⟨a, ∅, rfl, Int.sub_add_cancel _ _, (wake_empty _ _).symm⟩)⟩

theorem signal_univ (s : State ι N) (c : Cond) : ∃ t, s.signal c Finset.univ = some t := by
  refine ⟨{ s with thread := wake c Finset.univ s.thread }, if_pos ?_⟩
  rintro ⟨i, hi⟩
  exact ⟨i, Finset.mem_univ i, hi⟩

theorem get_enabled {l : List N} (q : Queue s l) (i : ι) : ∃ t, s.get i Finset.univ = some t := by
  unfold State.get
  split
  · split <;> exact ⟨_, rfl⟩
  · next hsize =>
    split
    · exact ⟨_, rfl⟩
    · cases l with
      | nil => exact absurd q.size hsize
      | cons a l =>
        simp only [show s.head = some a from q.linked.1, Option.bind_some]
        split
        · obtain ⟨t, ht⟩ := signal_univ (s.unlink i a) .full
          exact ⟨_, by rw [ht]; rfl⟩
        · exact ⟨_, rfl⟩

variable [DecidableEq N]

theorem put_ends (h : s.put i a w = some t) : t.issued = s.issued ∧
    ((t.log = s.log ∧ t.cursize = s.cursize ∧ t.thread = update s.thread i (.asleep (.put a))) ∨
    ∃ w', t.log = s.log ++ [.put a] ∧ t.cursize = s.cursize + 1 ∧
      t.thread = wake .free w' (update s.thread i .idle)) := by
  rcases put_cases h with ⟨-, rfl⟩ | ⟨-, -, u, hu, rfl⟩ | ⟨-, -, rfl⟩
  · exact ⟨rfl, .inl ⟨rfl, rfl, rfl⟩⟩
  · obtain ⟨rfl, -⟩ := signal_eq hu
    exact ⟨rfl, .inr ⟨w, rfl, rfl, rfl⟩⟩
  · exact ⟨rfl, .inr ⟨∅, rfl, rfl, (wake_empty _ _).symm⟩⟩

theorem put_enabled (s : State ι N) (i : ι) (a : N) : ∃ t, s.put i a Finset.univ = some t := by
  unfold State.put
  split
  · exact ⟨_, rfl⟩
  · split
    · obtain ⟨t, ht⟩ := signal_univ (s.link i a) .free
      exact ⟨_, by rw [ht]; rfl⟩
    · exact ⟨_, rfl⟩

theorem lock_enabled {l : List N} (q : Queue s l) (hi : (s.thread i).active) :
    ∃ t, step s (.lock i Finset.univ) = some t := by
  simp only [step]
  cases ht : s.thread i with
  | idle | asleep => rw [ht] at hi; cases hi
  | entering call | woken call =>
    cases call with
    | put a => exact put_enabled s i a
    | get => exact get_enabled q i

theorem step_maxsize {e : Label ι N} (he : ∀ size, e ≠ .setsize size) (h : step s e = some t) :
    t.maxsize = s.maxsize ∨ t.maxsize = DEFAULT_SIZE := by
  cases e with
  | callPut i val =>
    cases val with
    | none => exact .inl (Option.some.inj h ▸ rfl)
    | some a =>
      simp only [step] at h
      split at h
      · exact .inl (Option.some.inj h ▸ rfl)
      · cases h
  | callGet | spurious =>
    simp only [step] at h
    split at h
    · exact .inl (Option.some.inj h ▸ rfl)
    · cases h
  | lock i w =>
    left
    rcases lock_cases h with ⟨a, -, h⟩ | ⟨-, h⟩
    · rcases put_cases h with ⟨-, rfl⟩ | ⟨-, -, u, hu, rfl⟩ | ⟨-, -, rfl⟩
      · rfl
      · obtain ⟨rfl, -⟩ := signal_eq hu
        rfl
      · rfl
    · rcases get_cases h with ⟨-, rfl⟩ | ⟨-, -, rfl⟩ | ⟨-, -, a, -, ⟨-, u, hu, rfl⟩ | ⟨-, rfl⟩⟩
      · rfl
      · rfl
      · obtain ⟨rfl, -⟩ := signal_eq hu
        rfl
      · rfl
  | setsize size => exact absurd rfl (he size)
  | setflag | releaseFree => exact .inl (Option.some.inj h ▸ rfl)
  | resetqueue =>
    obtain ⟨l, -, rfl⟩ := Option.map_eq_some_iff.mp h
    exact .inr rfl

end Sections

section Held

variable {thread : ι → Thread N} {i j : ι} {c : Cond} {w : Finset ι} {th : Thread N}

theorem held_update (hj : j ≠ i) : (update thread i th j).held = (thread j).held := by
  rw [update_of_ne hj]

theorem held_wake_idle :
    (wake c w (update thread i .idle) j).held = if j = i then none else (thread j).held := by
  rw [held_wake]
  split
  · next hj => rw [hj, update_self]; rfl
  · next hj => exact held_update hj

variable [Fintype ι]

theorem count_holding_wake :
    count Thread.holding (wake c w thread) = count Thread.holding thread := by
  refine congrArg Finset.card (Finset.filter_congr fun j _ ↦ ?_)
  rw [Thread.holding, held_wake, Thread.holding]

omit [DecidableEq ι] in
theorem count_le (p : Thread N → Bool) (thread : ι → Thread N) :
    count p thread ≤ Fintype.card ι := Finset.card_le_univ _

end Held

/-- The events since the last reset, behind events whose `get`s returned nodes in
the order of the `put`s. -/
def Past (log : List (Event N)) : Prop :=
  ∃ old, log = old ++ sinceReset log ∧ (gots old).Sublist (puts old)

namespace Past

variable {log : List (Event N)} (h : Past log)

omit [DecidableEq ι] in
theorem sublist {s : State ι N} {l : List N} (h : Past s.log) (q : Queue s l) :
    (gots s.log).Sublist (puts s.log) := by
  obtain ⟨old, hlog, hold⟩ := h
  have hgots : gots s.log = gots old ++ gots (sinceReset s.log) := by
    conv_lhs => rw [hlog]
    exact List.filterMap_append
  have hputs : puts s.log = puts old ++ puts (sinceReset s.log) := by
    conv_lhs => rw [hlog]
    exact List.filterMap_append
  rw [hgots, hputs, q.order]
  exact hold.append (List.sublist_append_left _ _)

include h

theorem put (a : N) : Past (log ++ [.put a]) := by
  obtain ⟨old, hlog, hold⟩ := h
  refine ⟨old, ?_, hold⟩
  rw [sinceReset_put, ← List.append_assoc, ← hlog]

theorem get (r : Option N) : Past (log ++ [.get r]) := by
  obtain ⟨old, hlog, hold⟩ := h
  refine ⟨old, ?_, hold⟩
  rw [sinceReset_get, ← List.append_assoc, ← hlog]

end Past

theorem Past.reset {log : List (Event N)} (h : (gots log).Sublist (puts log)) (l : List N) :
    Past (log ++ [.reset l]) := by
  refine ⟨log ++ [.reset l], by simp, ?_⟩
  rw [gots_reset, puts_reset]
  exact h

end FingerMove.Pqueue
