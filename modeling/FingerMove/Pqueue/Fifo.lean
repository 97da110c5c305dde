import FingerMove.Pqueue.Basic
import Mathlib.Data.List.Perm.Basic
import Mathlib.Data.List.Count

namespace FingerMove.Pqueue

open PointerList Function Machine

variable {ι N : Type*}

def puts (log : List (Event N)) : List N :=
  log.filterMap fun | .put a => some a | _ => none

def gots (log : List (Event N)) : List N :=
  log.filterMap fun | .get r => r | _ => none

def deleted (log : List (Event N)) : List N :=
  log.flatMap fun | .reset l => l | _ => []

def sinceReset (log : List (Event N)) : List (Event N) :=
  log.foldl (fun w e ↦ match e with | .reset _ => [] | e => w ++ [e]) []

section Log

variable (log : List (Event N)) (a : N) (l : List N) (r : Option N)

@[simp] theorem puts_put : puts (log ++ [.put a]) = puts log ++ [a] := by simp [puts]

@[simp] theorem puts_get : puts (log ++ [.get r]) = puts log := by simp [puts]

@[simp] theorem puts_reset : puts (log ++ [.reset l]) = puts log := by simp [puts]

@[simp] theorem gots_put : gots (log ++ [.put a]) = gots log := by simp [gots]

@[simp] theorem gots_get : gots (log ++ [.get (some a)]) = gots log ++ [a] := by simp [gots]

@[simp] theorem gots_null : gots (log ++ [.get none]) = gots log := by simp [gots]

@[simp] theorem gots_reset : gots (log ++ [.reset l]) = gots log := by simp [gots]

@[simp] theorem deleted_put : deleted (log ++ [.put a]) = deleted log := by simp [deleted]

@[simp] theorem deleted_get : deleted (log ++ [.get r]) = deleted log := by simp [deleted]

@[simp] theorem deleted_reset : deleted (log ++ [.reset l]) = deleted log ++ l := by
  simp [deleted]

@[simp] theorem sinceReset_put :
    sinceReset (log ++ [.put a]) = sinceReset log ++ [.put a] := by simp [sinceReset]

@[simp] theorem sinceReset_get :
    sinceReset (log ++ [.get r]) = sinceReset log ++ [.get r] := by simp [sinceReset]

@[simp] theorem sinceReset_reset : sinceReset (log ++ [.reset l]) = [] := by simp [sinceReset]

end Log

/-- `l` is the content of the queue, every node put so far has one place, and
the nodes that threads still hold are in none of them. -/
structure Queue (s : State ι N) (l : List N) : Prop where
  linked : Linked s.next s.head l
  tail : s.tail = lastSlot l
  size : s.cursize = l.length
  bound : s.cursize ≤ s.maxsize
  pos : 0 < s.maxsize
  order : puts (sinceReset s.log) = gots (sinceReset s.log) ++ l
  account : (puts s.log).Perm (gots s.log ++ deleted s.log ++ l)
  once : (puts s.log).Nodup
  issued : ∀ a ∈ puts s.log, a ∈ s.issued
  held : ∀ i a, (s.thread i).held = some a →
    a ∈ s.issued ∧ a ∉ puts s.log ∧ s.next a = none
  distinct : ∀ i j a, (s.thread i).held = some a → (s.thread j).held = some a → i = j
  reached : ∀ a ∈ s.issued, a ∈ puts s.log ∨ ∃ i, (s.thread i).held = some a

namespace Queue

variable {s t : State ι N} {l : List N}

theorem listed (q : Queue s l) {a : N} (ha : a ∈ l) : a ∈ puts s.log :=
  q.account.mem_iff.mpr (List.mem_append_right _ ha)

theorem nodup (q : Queue s l) : l.Nodup :=
  (List.nodup_append.mp (q.account.nodup_iff.mp q.once)).2.1

theorem congr (q : Queue s l) (hheld : ∀ i, (t.thread i).held = (s.thread i).held)
    (hhead : t.head = s.head) (htail : t.tail = s.tail) (hnext : t.next = s.next)
    (hcur : t.cursize = s.cursize) (hmax : t.maxsize = s.maxsize)
    (hissued : t.issued = s.issued) (hlog : t.log = s.log) : Queue t l := by
  constructor
  · rw [hnext, hhead]; exact q.linked
  · rw [htail]; exact q.tail
  · rw [hcur]; exact q.size
  · rw [hcur, hmax]; exact q.bound
  · rw [hmax]; exact q.pos
  · rw [hlog]; exact q.order
  · rw [hlog]; exact q.account
  · rw [hlog]; exact q.once
  · rw [hlog, hissued]; exact q.issued
  · intro i a ha
    rw [hlog, hissued, hnext]
    exact q.held i a (hheld i ▸ ha)
  · intro i j a hi hj
    exact q.distinct i j a (hheld i ▸ hi) (hheld j ▸ hj)
  · intro a ha
    rw [hlog]
    refine (q.reached a (hissued ▸ ha)).imp_right ?_
    rintro ⟨i, hi⟩
    exact ⟨i, (hheld i).trans hi⟩

theorem of_counters (q : Queue s l) (overflag fullwait freewait : ℤ) :
    Queue { s with overflag, fullwait, freewait } l :=
  q.congr (fun _ ↦ rfl) rfl rfl rfl rfl rfl rfl rfl

theorem walk {s : State ι N} {l : List N} (q : Queue s l) :
    PointerList.walk s.next s.issued.length s.head = some l :=
  walk_linked q.linked
    (q.nodup.subperm (fun a ha ↦ q.issued a (q.listed ha))).length_le

theorem resetqueue {s : State ι N} {l : List N} (q : Queue s l) :
    ∃ t, s.resetqueue = some t ∧ Queue t [] ∧ t.log = s.log ++ [.reset l] ∧
      t.issued = s.issued := by
  refine ⟨_, Option.map_eq_some_iff.mpr ⟨l, q.walk, rfl⟩, ?_, rfl, rfl⟩
  constructor
  · rfl
  · rfl
  · rfl
  · show (0 : ℤ) ≤ DEFAULT_SIZE
    decide
  · show (0 : ℤ) < DEFAULT_SIZE
    decide
  · simp [puts, gots]
  · simpa using q.account
  · simpa using q.once
  · simpa using q.issued
  · simpa using q.held
  · exact q.distinct
  · simpa using q.reached

variable [DecidableEq ι]

theorem of_thread (q : Queue s l) (i : ι) (th : Thread N) (h : th.held = (s.thread i).held) :
    Queue { s with thread := update s.thread i th } l := by
  refine q.congr ?_ rfl rfl rfl rfl rfl rfl rfl
  intro j
  rcases eq_or_ne j i with rfl | hj
  · simpa using h
  · simp [hj]

theorem of_signal [Fintype ι] (q : Queue s l) {c : Cond} {w : Finset ι}
    (h : s.signal c w = some t) : Queue t l := by
  obtain ⟨rfl, -⟩ := signal_eq h
  exact q.congr (held_wake c w s.thread) rfl rfl rfl rfl rfl rfl rfl

theorem of_broadcast [Fintype ι] (q : Queue s l) (c : Cond) : Queue (s.broadcast c) l :=
  q.congr (held_wake c _ s.thread) rfl rfl rfl rfl rfl rfl rfl

end Queue

theorem queue_init (next : N → Option N) : Queue (pqueue ι next) [] := by
  constructor <;> simp [pqueue, puts, gots, deleted, sinceReset, Linked, lastSlot, DEFAULT_SIZE,
    Thread.held]

variable [DecidableEq ι]

theorem held_leave {s : State ι N} {i j : ι} {e : Event N} {a : N}
    (h : ((s.leave i e).thread j).held = some a) : j ≠ i ∧ (s.thread j).held = some a := by
  rcases eq_or_ne j i with rfl | hj
  · simp [State.leave, Thread.held] at h
  · exact ⟨hj, by simpa [State.leave, hj] using h⟩

theorem Queue.reached_leave {s : State ι N} {l : List N} (q : Queue s l) {i : ι} {a : N}
    {e : Event N} (hi : (s.thread i).held = none) (ha : a ∈ s.issued) :
    a ∈ puts s.log ∨ ∃ j, ((s.leave i e).thread j).held = some a := by
  refine (q.reached a ha).imp_right ?_
  rintro ⟨j, hj⟩
  have hne : j ≠ i := by
    rintro rfl
    rw [hi] at hj
    cases hj
  exact ⟨j, by simpa [State.leave, hne] using hj⟩

theorem Queue.null {s : State ι N} {l : List N} (q : Queue s l) {i : ι}
    (hi : (s.thread i).held = none) : Queue (s.leave i (.get none)) l where
  linked := q.linked
  tail := q.tail
  size := q.size
  bound := q.bound
  pos := q.pos
  order := by simpa [gots] using q.order
  account := by simpa using q.account
  once := by simpa using q.once
  issued a ha := q.issued a (by simpa using ha)
  held j a ha := by
    obtain ⟨hissued, hputs, hnext⟩ := q.held j a (held_leave ha).2
    exact ⟨hissued, by simpa using hputs, hnext⟩
  distinct j k a hj hk := q.distinct j k a (held_leave hj).2 (held_leave hk).2
  reached a ha := by simpa using q.reached_leave hi ha

theorem Queue.unlink {s : State ι N} {l : List N} {a : N} (q : Queue s (a :: l)) {i : ι}
    (hi : (s.thread i).held = none) : Queue (s.unlink i a) l where
  linked := q.linked.2
  tail := by
    change (if (s.next a).isNone then Slot.head else s.tail) = lastSlot l
    cases l with
    | nil => rw [show s.next a = none from q.linked.2]; rfl
    | cons b l =>
      rw [show s.next a = some b from q.linked.2.1, q.tail]
      rfl
  size := by
    have h := q.size
    rw [List.length_cons] at h
    change s.cursize - 1 = l.length
    omega
  bound := by
    have h := q.bound
    change s.cursize - 1 ≤ s.maxsize
    omega
  pos := q.pos
  order := by
    have h := q.order
    simp only [unlink_log, sinceReset_get, puts_get, gots_get, h, List.append_assoc,
      List.singleton_append]
  account := by
    simp only [unlink_log, puts_get, gots_get, deleted_get]
    refine q.account.trans ?_
    simp only [List.append_assoc, List.singleton_append]
    exact List.perm_middle.append_left (gots s.log)
  once := by simpa using q.once
  issued b hb := q.issued b (by simpa using hb)
  held j b hb := by
    obtain ⟨hissued, hputs, hnext⟩ := q.held j b (held_leave hb).2
    exact ⟨hissued, by simpa using hputs, hnext⟩
  distinct j k b hj hk := q.distinct j k b (held_leave hj).2 (held_leave hk).2
  reached b hb := by
    have hreached := q.reached_leave (e := .get (some a)) hi hb
    rw [unlink_log, puts_get]
    exact hreached

/-- What a section of `put`, of `get` or of `resetqueue` does to the list and to the record
of the calls; nothing else touches them. -/
def Effect (s t : State ι N) (l l' : List N) : Label ι N → Prop
  | .lock i _ => match s.thread i with
    | .entering (.put a) | .woken (.put a) =>
      (t.thread i = .asleep (.put a) ∧ l' = l ∧ t.log = s.log) ∨
        (t.thread i = .idle ∧ l' = l ++ [a] ∧ t.log = s.log ++ [.put a])
    | .entering .get | .woken .get =>
      (t.thread i = .asleep .get ∧ l' = l ∧ t.log = s.log) ∨
        (t.thread i = .idle ∧ s.overflag ≠ 0 ∧ l' = l ∧ t.log = s.log ++ [.get none]) ∨
        (t.thread i = .idle ∧ s.overflag = 0 ∧ ∃ a, l = a :: l' ∧
          t.log = s.log ++ [.get (some a)])
    | _ => False
  | .resetqueue => l' = [] ∧ t.log = s.log ++ [.reset l]
  | _ => l' = l ∧ t.log = s.log

def Label.fresh : Label ι N → List N
  | .callPut _ (some a) => [a]
  | _ => []

theorem wake_idle {c : Cond} {w : Finset ι} {thread : ι → Thread N} {i : ι}
    (h : thread i = .idle) : wake c w thread i = .idle := by
  unfold wake
  split
  · rw [h]
    rfl
  · exact h

section

variable [Fintype ι]

theorem Queue.get {s t : State ι N} {l : List N} (q : Queue s l) {i : ι} {w : Finset ι}
    (hi : s.thread i = .entering .get ∨ s.thread i = .woken .get) (h : s.get i w = some t) :
    ∃ l', Queue t l' ∧ Effect s t l l' (.lock i w) ∧ t.issued = s.issued := by
  have hheld : (s.thread i).held = none := by rcases hi with hi | hi <;> rw [hi] <;> rfl
  rcases get_cases h with ⟨hflag, rfl⟩ | ⟨-, -, rfl⟩ | ⟨-, hflag, a, ha, h⟩
  · refine ⟨l, q.null hheld, ?_, rfl⟩
    have hidle : (s.leave i (.get none)).thread i = .idle := update_self _ _ _
    rcases hi with hi | hi <;> simp [Effect, hi, hidle, hflag]
  · refine ⟨l, (q.of_thread i (.asleep .get) hheld.symm).of_counters _ _ _, ?_, rfl⟩
    rcases hi with hi | hi <;> simp [Effect, hi]
  · obtain ⟨l, rfl⟩ : ∃ l', l = a :: l' := by
      cases l with
      | nil => exact absurd (ha.symm.trans q.linked) (by simp)
      | cons b l => exact ⟨l, by rw [Option.some.inj (ha.symm.trans q.linked.1)]⟩
    have hidle : (s.unlink i a).thread i = .idle := update_self _ _ _
    rcases h with ⟨-, u, hu, rfl⟩ | ⟨-, rfl⟩
    · refine ⟨l, ((q.unlink hheld).of_signal hu).of_counters _ _ _, ?_, ?_⟩
      · obtain ⟨rfl, -⟩ := signal_eq hu
        rcases hi with hi | hi <;> simp [Effect, hi, wake_idle hidle, hflag]
      · obtain ⟨rfl, -⟩ := signal_eq hu
        rfl
    · refine ⟨l, q.unlink hheld, ?_, rfl⟩
      rcases hi with hi | hi <;> simp [Effect, hi, hidle, hflag]

end

variable [DecidableEq N]

theorem Queue.link {s : State ι N} {l : List N} (q : Queue s l) {i : ι} {a : N}
    (hi : (s.thread i).held = some a) (hlt : s.cursize < s.maxsize) :
    Queue (s.link i a) (l ++ [a]) where
  linked := by
    change Linked (store s.head s.next (some a) s.tail).2 (store s.head s.next (some a) s.tail).1 _
    obtain ⟨-, ha, hn⟩ := q.held i a hi
    rw [q.tail]
    exact linked_store q.linked q.nodup (fun h ↦ ha (q.listed h)) hn
  tail := (lastSlot_snoc l a).symm
  size := by
    have h := q.size
    rw [List.length_append, List.length_singleton]
    change s.cursize + 1 = (l.length + 1 : ℕ)
    omega
  bound := by
    change s.cursize + 1 ≤ s.maxsize
    omega
  pos := q.pos
  order := by simp [q.order]
  account := by
    simp only [link_log, puts_put, gots_put, deleted_put, ← List.append_assoc]
    exact q.account.append_right [a]
  once := by
    have ha := (q.held i a hi).2.1
    simp only [link_log, puts_put]
    exact List.nodup_append.mpr ⟨q.once, List.nodup_singleton a, by
      intro b hb c hc
      rw [List.mem_singleton.mp hc]
      rintro rfl
      exact ha hb⟩
  issued := by
    intro b hb
    simp only [link_log, puts_put, List.mem_append, List.mem_singleton] at hb
    rcases hb with hb | rfl
    · exact q.issued b hb
    · exact (q.held i b hi).1
  held := by
    intro j b hb
    obtain ⟨hji, hb⟩ := held_leave hb
    obtain ⟨hissued, hputs, hnext⟩ := q.held j b hb
    have hba : b ≠ a := by rintro rfl; exact hji (q.distinct j i b hb hi)
    refine ⟨hissued, by simp [hputs, hba], ?_⟩
    change (store s.head s.next (some a) s.tail).2 b = none
    rw [q.tail, store_elsewhere (fun h ↦ hputs (q.listed h)), hnext]
  distinct j k b hj hk := q.distinct j k b (held_leave hj).2 (held_leave hk).2
  reached := by
    intro b hb
    simp only [link_log, puts_put, List.mem_append, List.mem_singleton]
    rcases q.reached b hb with hputs | ⟨j, hj⟩
    · exact .inl (.inl hputs)
    · rcases eq_or_ne j i with rfl | hne
      · exact .inl (.inr (Option.some.inj (hj.symm.trans hi)))
      · exact .inr ⟨j, by simpa [State.link, State.leave, hne] using hj⟩

theorem Queue.callPut {s : State ι N} {l : List N} (q : Queue s l) {i : ι} {a : N}
    (hi : s.thread i = .idle) (ha : a ∉ s.issued) :
    Queue { s with
      next := update s.next a none
      thread := update s.thread i (.entering (.put a))
      issued := a :: s.issued } l where
  linked := linked_update q.linked (fun h ↦ ha (q.issued a (q.listed h))) none
  tail := q.tail
  size := q.size
  bound := q.bound
  pos := q.pos
  order := q.order
  account := q.account
  once := q.once
  issued b hb := List.mem_cons_of_mem a (q.issued b hb)
  held := by
    intro j b hb
    rcases eq_or_ne j i with rfl | hj
    · simp only [update_self, Thread.held, Call.val, Option.some.injEq] at hb
      subst hb
      exact ⟨List.mem_cons_self, fun h ↦ ha (q.issued a h), by simp⟩
    · obtain ⟨hissued, hputs, hnext⟩ := q.held j b (by simpa [hj] using hb)
      have hba : b ≠ a := by rintro rfl; exact ha hissued
      exact ⟨List.mem_cons_of_mem a hissued, hputs, by simpa [hba] using hnext⟩
  distinct := by
    have hfresh : ∀ j, (s.thread j).held ≠ some a := fun j hj ↦ ha (q.held j a hj).1
    intro j k b hj hk
    rcases eq_or_ne j i with rfl | hji <;> rcases eq_or_ne k j with rfl | hkj
    · rfl
    · simp only [update_self, Thread.held, Call.val, Option.some.injEq] at hj
      subst hj
      exact absurd (by simpa [hkj] using hk) (hfresh k)
    · rfl
    · rcases eq_or_ne k i with rfl | hki
      · simp only [update_self, Thread.held, Call.val, Option.some.injEq] at hk
        subst hk
        exact absurd (by simpa [hji] using hj) (hfresh j)
      · exact q.distinct j k b (by simpa [hji] using hj) (by simpa [hki] using hk)
  reached := by
    intro b hb
    rcases List.mem_cons.mp hb with rfl | hb
    · exact .inr ⟨i, by simp [Thread.held, Call.val]⟩
    · refine (q.reached b hb).imp_right ?_
      rintro ⟨j, hj⟩
      have hne : j ≠ i := by
        rintro rfl
        rw [hi] at hj
        cases hj
      exact ⟨j, by simpa [hne] using hj⟩

variable [Fintype ι]

theorem Queue.put {s t : State ι N} {l : List N} (q : Queue s l) {i : ι} {a : N} {w : Finset ι}
    (hi : s.thread i = .entering (.put a) ∨ s.thread i = .woken (.put a))
    (h : s.put i a w = some t) :
    ∃ l', Queue t l' ∧ Effect s t l l' (.lock i w) ∧ t.issued = s.issued := by
  have hheld : (s.thread i).held = some a := by rcases hi with hi | hi <;> rw [hi] <;> rfl
  have hidle : (s.link i a).thread i = .idle := update_self _ _ _
  rcases put_cases h with ⟨-, rfl⟩ | ⟨hlt, -, u, hu, rfl⟩ | ⟨hlt, -, rfl⟩
  · refine ⟨l, (q.of_thread i (.asleep (.put a)) hheld.symm).of_counters _ _ _, ?_, rfl⟩
    rcases hi with hi | hi <;> simp [Effect, hi]
  · refine ⟨_, ((q.link hheld hlt).of_signal hu).of_counters _ _ _, ?_, ?_⟩
    · obtain ⟨rfl, -⟩ := signal_eq hu
      rcases hi with hi | hi <;> simp [Effect, hi, wake_idle hidle]
    · obtain ⟨rfl, -⟩ := signal_eq hu
      rfl
  · refine ⟨_, q.link hheld hlt, ?_, rfl⟩
    rcases hi with hi | hi <;> simp [Effect, hi, hidle]

theorem queue_effect {s t : State ι N} {l : List N} {e : Label ι N} (q : Queue s l)
    (h : step s e = some t) :
    ∃ l', Queue t l' ∧ Effect s t l l' e ∧ t.issued = e.fresh ++ s.issued := by
  cases e with
  | callPut i val =>
    cases val with
    | none =>
      obtain rfl := Option.some.inj h
      exact ⟨l, q, ⟨rfl, rfl⟩, rfl⟩
    | some a =>
      simp only [step] at h
      split at h
      · next hi =>
        obtain rfl := Option.some.inj h
        exact ⟨l, q.callPut hi.1 hi.2, ⟨rfl, rfl⟩, rfl⟩
      · cases h
  | callGet i =>
    simp only [step] at h
    split at h
    · next hi =>
      obtain rfl := Option.some.inj h
      exact ⟨l, q.of_thread i (.entering .get) (by rw [hi]; rfl), ⟨rfl, rfl⟩, rfl⟩
    · cases h
  | lock i w =>
    rcases lock_cases h with ⟨a, hi, h⟩ | ⟨hi, h⟩
    · exact q.put hi h
    · exact q.get hi h
  | spurious i =>
    simp only [step] at h
    split at h
    · next call hi =>
      obtain rfl := Option.some.inj h
      exact ⟨l, q.of_thread i (.woken call) (by rw [hi]; rfl), ⟨rfl, rfl⟩, rfl⟩
    · cases h
  | setsize size =>
    simp only [step, Option.some.injEq] at h
    split at h
    · next hlt =>
      subst h
      have hs := q.size
      exact ⟨l, { q with bound := le_of_lt hlt, pos := by show 0 < size; omega }, ⟨rfl, rfl⟩, rfl⟩
    · exact ⟨l, h ▸ q, ⟨rfl, h ▸ rfl⟩, h ▸ rfl⟩
  | setflag flag =>
    obtain rfl := Option.some.inj h
    exact ⟨l, q.of_counters _ _ _, ⟨rfl, rfl⟩, rfl⟩
  | releaseFree =>
    obtain rfl := Option.some.inj h
    exact ⟨l, q.of_broadcast .free, ⟨rfl, rfl⟩, rfl⟩
  | resetqueue =>
    obtain ⟨u, hu, hq, hlog, hissued⟩ := q.resetqueue
    obtain rfl := Option.some.inj (hu.symm.trans h)
    exact ⟨[], hq, ⟨rfl, hlog⟩, hissued⟩

theorem queue_step {s t : State ι N} {e : Label ι N} (h : step s e = some t)
    (hq : ∃ l, Queue s l) : ∃ l, Queue t l := by
  obtain ⟨l, q⟩ := hq
  obtain ⟨l', q', -⟩ := queue_effect q h
  exact ⟨l', q'⟩

theorem mem_issued {s t : State ι N} {es : List (Label ι N)} (hq : ∃ l, Queue s l)
    (h : exec step s es = some t) (a : N) :
    a ∈ t.issued ↔ (∃ i, Label.callPut i (some a) ∈ es) ∨ a ∈ s.issued := by
  induction es generalizing s with
  | nil =>
    obtain rfl := Option.some.inj h
    simp
  | cons e es ih =>
    obtain ⟨u, hu, h⟩ := exec_cons h
    obtain ⟨l, q⟩ := hq
    obtain ⟨l', q', -, hissued⟩ := queue_effect q hu
    have hfresh : a ∈ e.fresh ↔ ∃ i, e = .callPut i (some a) := by
      cases e with
      | callPut i val => cases val <;> simp [Label.fresh, eq_comm]
      | callGet | lock | spurious | setsize | setflag | releaseFree | resetqueue =>
        simp [Label.fresh]
    rw [ih ⟨l', q'⟩ h, hissued, List.mem_append, hfresh]
    simp only [List.mem_cons, exists_or, eq_comm]
    tauto

omit [DecidableEq ι] [Fintype ι] in
theorem Queue.places {s : State ι N} {l : List N} (q : Queue s l) {a : N} (ha : a ∈ s.issued) :
    ((∃! i, (s.thread i).held = some a) ∧
        l.count a + (gots s.log).count a + (deleted s.log).count a = 0) ∨
      ((∀ i, (s.thread i).held ≠ some a) ∧
        l.count a + (gots s.log).count a + (deleted s.log).count a = 1) := by
  have hcount := q.account.count_eq a
  simp only [List.count_append] at hcount
  by_cases hputs : a ∈ puts s.log
  · rw [List.count_eq_one_of_mem q.once hputs] at hcount
    exact .inr ⟨fun i hi ↦ (q.held i a hi).2.1 hputs, by omega⟩
  · rw [List.count_eq_zero_of_not_mem hputs] at hcount
    obtain ⟨i, hi⟩ := (q.reached a ha).resolve_left hputs
    exact .inl ⟨⟨i, hi, fun j hj ↦ q.distinct j i a hj hi⟩, by omega⟩

/-- In every interleaving the list from `m_head` is a bounded queue of the nodes
put since the last reset, and no node is lost or handed out twice: one that `put` has been
called with is still with its thread, listed, returned by one `get` or deleted by one
`resetqueue`. -/
theorem fifo (next : N → Option N) (es : List (Label ι N)) (s : State ι N)
    (h : exec step (pqueue ι next) es = some s) :
    ∃ l, Linked s.next s.head l ∧ l.Nodup ∧ s.cursize = l.length ∧
      0 ≤ s.cursize ∧ s.cursize ≤ s.maxsize ∧ 0 < s.maxsize ∧
      s.tail = (if l = [] then .head else lastSlot l) ∧
      puts (sinceReset s.log) = gots (sinceReset s.log) ++ l ∧
      (∀ a ∈ puts s.log, l.count a + (gots s.log).count a + (deleted s.log).count a = 1) ∧
      (∀ a, a ∈ s.issued ↔ ∃ i, .callPut i (some a) ∈ es) ∧
      (∀ a ∈ s.issued, ((∃! i, (s.thread i).held = some a) ∧
          l.count a + (gots s.log).count a + (deleted s.log).count a = 0) ∨
        ((∀ i, (s.thread i).held ≠ some a) ∧
          l.count a + (gots s.log).count a + (deleted s.log).count a = 1)) ∧
      ∀ e t, step s e = some t → ∃ l', Linked t.next t.head l' ∧ Effect s t l l' e ∧
        t.issued = e.fresh ++ s.issued := by
  have hinit : ∃ l, Queue (pqueue ι next) l := ⟨[], queue_init next⟩
  obtain ⟨l, q⟩ := exec_invariant (G := fun _ ↦ True) (I := fun s ↦ ∃ l, Queue s l)
    (fun s e t hq _ ht ↦ queue_step ht hq) hinit (fun _ _ ↦ trivial) h
  refine ⟨l, q.linked, q.nodup, q.size, by rw [q.size]; omega, q.bound, q.pos, ?_, q.order, ?_,
    ?_, fun a ha ↦ q.places ha, ?_⟩
  · rw [q.tail]
    split
    · next hl => rw [hl]; rfl
    · rfl
  · intro a ha
    obtain ⟨⟨i, hi, -⟩, -⟩ | ⟨-, hcount⟩ := q.places (q.issued a ha)
    · exact absurd ha (q.held i a hi).2.1
    · exact hcount
  · intro a
    rw [mem_issued hinit h]
    exact or_iff_left List.not_mem_nil
  · intro e t ht
    obtain ⟨l', q', heffect, hissued⟩ := queue_effect q ht
    exact ⟨l', q'.linked, heffect, hissued⟩

theorem fifo_put_put_get :
    ∃ s, exec step (pqueue (Fin 2) fun _ : ℕ ↦ none)
        [.callPut 0 (some 7), .lock 0 ∅, .callPut 0 (some 8), .lock 0 ∅, .callGet 1, .lock 1 ∅,
          .callPut 0 (some 9)] = some s ∧ s.cursize = 1 ∧ gots s.log = [7] ∧
      (∃! i, (s.thread i).held = some 9) ∧
      ∃ l, Linked s.next s.head l ∧ s.cursize = l.length ∧
        puts (sinceReset s.log) = gots (sinceReset s.log) ++ l ∧
        ∀ t, step s .resetqueue = some t → t.log = s.log ++ [.reset l] := by
  refine ⟨_, rfl, rfl, rfl, ?_⟩
  obtain ⟨l, hl, -, hsize, -, -, -, -, horder, -, hissued, hplaces, hstep⟩ :=
    fifo (fun _ : ℕ ↦ none) ([.callPut 0 (some 7), .lock 0 ∅, .callPut 0 (some 8), .lock 0 ∅,
      .callGet 1, .lock 1 ∅, .callPut 0 (some 9)] : List (Label (Fin 2) ℕ)) _ rfl
  refine ⟨?_, l, hl, hsize, horder, fun t ht ↦ ?_⟩
  · obtain ⟨hheld, -⟩ | ⟨hheld, -⟩ := hplaces 9 ((hissued 9).mpr ⟨0, by simp⟩)
    · exact hheld
    · exact absurd rfl (hheld 0)
  · obtain ⟨l', -, ⟨-, hlog⟩, -⟩ := hstep .resetqueue t ht
    exact hlog

end FingerMove.Pqueue
