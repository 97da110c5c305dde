import FingerMove.Logmt.Logger

namespace FingerMove.Logmt.Logger

open CText Directory ProDeal Pqueue PointerList Machine Function

variable {ι N : Type} [DecidableEq ι] [Fintype ι] [DecidableEq N] {s t : State ι N}

def messages (i : ι) (es : List (Label ι N)) : List Text :=
  es.filterMap fun
    | .logstring j _ str => if j = i then some (cstr str ++ ['\n']) else none
    | _ => none

theorem said_step {e : Label ι N} (h : step s e = some t) (i : ι) :
    t.said i = s.said i ++ messages i [e] := by
  cases e with
  | logstring j p str =>
    obtain ⟨buf, -, hbuf, -, -, -, -, -, -, ht⟩ := logstring_cases h
    have hbuf : cstr str ++ ['\n'] = buf := by
      unfold sprintf at hbuf
      split at hbuf
      · exact Option.some.inj hbuf
      · cases hbuf
    have hsaid : t.said = update s.said j (s.said j ++ [buf]) := by rw [ht]
    rw [hsaid, messages, ← hbuf]
    rcases eq_or_ne j i with rfl | hj
    · simp
    · simp [hj, update_of_ne hj.symm]
  | log e =>
    cases e with
    | write => cases h
    | call | lock | spurious | logover =>
      obtain ⟨u, -, h⟩ := Option.bind_eq_some_iff.mp h
      obtain rfl := Option.some.inj h
      exact (List.append_nil _).symm
  | lock | spurious =>
    obtain ⟨q, -, h⟩ := Option.bind_eq_some_iff.mp h
    obtain rfl := Option.some.inj h
    exact (List.append_nil _).symm
  | write fname =>
    simp only [step] at h
    split at h
    · obtain ⟨disk, -, h⟩ := Option.bind_eq_some_iff.mp h
      obtain rfl := Option.some.inj h
      exact (List.append_nil _).symm
    · cases h

theorem said_exec {es : List (Label ι N)} (h : exec step s es = some t) (i : ι) :
    t.said i = s.said i ++ messages i es := by
  induction es generalizing s with
  | nil =>
    obtain rfl := Option.some.inj h
    exact (List.append_nil _).symm
  | cons e es ih =>
    obtain ⟨u, hu, h⟩ := exec_cons h
    rw [ih h, said_step hu, List.append_assoc, messages, messages, messages,
      ← List.filterMap_append]
    rfl

def State.message (s : State ι N) (p : N) : Option (ι × Text) :=
  (s.owner p).map fun i ↦ (i, s.m_buf p)

omit [DecidableEq ι] [Fintype ι] [DecidableEq N] in
theorem map_message (l : List N) (hl : ∀ a ∈ l, ∃ i, s.owner a = some i) :
    (l.filterMap s.message).map Prod.snd = l.map s.m_buf := by
  induction l with
  | nil => rfl
  | cons a l ih =>
    obtain ⟨hhead, htail⟩ := List.forall_mem_cons.mp hl
    obtain ⟨i, hi⟩ := hhead
    have hmessage : s.message a = some (i, s.m_buf a) := by rw [State.message, hi]; rfl
    rw [List.filterMap_cons_some hmessage, List.map_cons, List.map_cons, ih htail]

omit [Fintype ι] [DecidableEq N] in
theorem filter_message (l : List N) (i : ι) :
    ((l.filterMap s.message).filter (·.1 = i)).map Prod.snd =
      (l.filter (s.owner · = some i)).map s.m_buf := by
  induction l with
  | nil => rfl
  | cons a l ih =>
    cases ha : s.owner a with
    | none =>
      have hmessage : s.message a = none := by rw [State.message, ha]; rfl
      rw [List.filterMap_cons_none hmessage, ih, List.filter_cons_of_neg (by simp [ha])]
    | some j =>
      have hmessage : s.message a = some (j, s.m_buf a) := by rw [State.message, ha]; rfl
      rw [List.filterMap_cons_some hmessage]
      rcases eq_or_ne j i with rfl | hj
      · rw [List.filter_cons_of_pos (by simp), List.filter_cons_of_pos (by simp [ha]),
          List.map_cons, List.map_cons, ih]
      · rw [List.filter_cons_of_neg (by simpa using hj),
          List.filter_cons_of_neg (by simpa [ha] using hj), ih]

section Runs

variable {next : N → Option N} {m_buf : N → Text} {files : Dir FileName Text}
variable {es : List (Label ι N)} {s₀ : State ι N}

theorem logged_exec (h₀ : logstart next m_buf files = some s₀) (h : exec step s₀ es = some s) :
    Logged s ∧ ∀ i, s.said i = messages i es := by
  obtain ⟨hstart, -, hsaid⟩ := logged_logstart h₀
  refine ⟨exec_invariant (G := fun _ ↦ True) (fun _ _ _ hs _ ht ↦ logged_step hs ht) hstart
    (fun _ _ ↦ trivial) h, ?_⟩
  intro i
  rw [said_exec h i, hsaid, List.nil_append]

theorem disk_exec (h₀ : logstart next m_buf files = some s₀) (hfresh : EachStep step Fresh s₀ es)
    (h : exec step s₀ es = some s) :
    Rotation.Kept ((files.lookup serverLog).getD []) s.disk :=
  (always_of_eachStep (P := fun s : State ι N ↦ Rotation.Kept _ s.disk)
    (fun _ _ _ hs hg ht ↦ disk_step hs hg ht) (logged_logstart h₀).2.1 hfresh).exec h

end Runs

/-- In every interleaving the messages reach the files once and in one order, in
which each thread's own messages keep theirs; until the queue is reset none is
missing between the files and the threads that still wait in `put`. -/
theorem messages_in_order {next : N → Option N} {m_buf : N → Text} {files : Dir FileName Text}
    {es : List (Label ι N)} {s₀ s : State ι N} (h₀ : logstart next m_buf files = some s₀)
    (hfresh : EachStep step Fresh s₀ es) (h : exec step s₀ es = some s) :
    ∃ order written : List (ι × Text),
      (∀ i, messages i es =
        (order.filter (·.1 = i)).map Prod.snd ++ (pending s i).map s.m_buf) ∧
      s.disk.archived ++ s.disk.server =
        (files.lookup serverLog).getD [] ++ (written.map Prod.snd).flatten ∧
      written.Sublist order ∧
      (s.stage ≠ .returned → ∃ l, Linked s.queue.next s.queue.head l ∧
        order = written ++ (inHand s.pc ++ l).filterMap s.message) := by
  obtain ⟨hlogged, hsaid⟩ := logged_exec h₀ h
  have hkept := disk_exec h₀ hfresh h
  obtain ⟨l, ql⟩ := hlogged.queue
  have hgots : gots s.queue.log = s.freed ++ inHand s.pc := hlogged.taken
  refine ⟨(puts s.queue.log).filterMap s.message, s.freed.filterMap s.message, ?_, ?_, ?_, ?_⟩
  · intro i
    rw [← hsaid, filter_message]
    exact hlogged.said i
  · rw [hkept.text, hlogged.text, map_message]
    intro a ha
    exact (hlogged.made a (hlogged.issued_of_freed ha)).2
  · refine List.Sublist.filterMap _ (List.Sublist.trans ?_ (hlogged.past.sublist ql))
    rw [hgots]
    exact List.sublist_append_left _ _
  · intro hstage
    refine ⟨l, ql.linked, ?_⟩
    have horder := ql.order
    rw [hlogged.whole hstage, hgots, List.append_assoc] at horder
    rw [horder, List.filterMap_append]

/-- Two threads log three messages, the first one written rotates the old log, and `logover`
resets the queue while the log thread has a node in its hand. -/
def threeMessages {κ : Type} (i j : κ) : List (Label κ ℕ) :=
  [.logstring i 7 "a".toList, .logstring j 8 "b".toList, .lock j ∅, .log .call, .log (.lock ∅),
    .lock i ∅, .write (.ofC "1.log".toList), .log .call, .log (.lock ∅),
    .logstring j 9 "c".toList, .lock j ∅, .log .logover, .log .logover, .log .logover,
    .write (.ofC "2.log".toList)]

theorem threeMessages_runs : ∃ s₀ s : State (Fin 2) ℕ,
    logstart (fun _ ↦ none) (fun _ ↦ []) Rotation.oldLog = some s₀ ∧
      exec step s₀ (threeMessages 0 1) = some s ∧ s.stage = .returned ∧
      s.disk.archives = [(.ofC "1.log".toList, true)] ∧
      s.disk.archived ++ s.disk.server = "a\nb\na\n".toList ∧ deleted s.queue.log = [9] ∧
      EachStep step Fresh s₀ (threeMessages 0 1) := by
  refine ⟨_, _, rfl, rfl, rfl, rfl, rfl, rfl, ?_⟩
  exact .cons rfl trivial <| .cons rfl trivial <| .cons rfl trivial <| .cons rfl trivial <|
    .cons rfl trivial <| .cons rfl trivial <| .cons rfl (fun _ ↦ by decide) <|
    .cons rfl trivial <| .cons rfl trivial <| .cons rfl trivial <| .cons rfl trivial <|
    .cons rfl trivial <| .cons rfl trivial <| .cons rfl trivial <| .cons rfl nofun trivial

theorem messages_in_order_three : ∃ s₀ s : State (Fin 2) ℕ,
    logstart (fun _ ↦ none) (fun _ ↦ []) Rotation.oldLog = some s₀ ∧
    exec step s₀ (threeMessages 0 1) = some s ∧ s.stage = .returned ∧
    ∃ order written : List (Fin 2 × Text),
      (∀ i, messages i (threeMessages 0 1) =
        (order.filter (·.1 = i)).map Prod.snd ++ (pending s i).map s.m_buf) ∧
      s.disk.archived ++ s.disk.server = "a\n".toList ++ (written.map Prod.snd).flatten ∧
      written.Sublist order := by
  obtain ⟨s₀, s, h₀, h, hstage, -, -, -, hfresh⟩ := threeMessages_runs
  obtain ⟨order, written, hmessages, htext, hsub, -⟩ := messages_in_order h₀ hfresh h
  exact ⟨s₀, s, h₀, h, hstage, order, written, hmessages, htext, hsub⟩

/-- In every interleaving each node that `logstring` has made is in one place: with
the thread that puts it, in the queue, with the log thread, or deleted. -/
theorem nodes_in_one_place {next : N → Option N} {m_buf : N → Text} {files : Dir FileName Text}
    {es : List (Label ι N)} {s₀ s : State ι N} (h₀ : logstart next m_buf files = some s₀)
    (h : exec step s₀ es = some s) :
    ∃ l, Linked s.queue.next s.queue.head l ∧ ∀ a ∈ s.queue.issued,
      ((Finset.univ.filter fun i ↦ a ∈ pending s i).card + l.count a + (inHand s.pc).count a +
        (s.freed ++ deleted s.queue.log).count a = 1) := by
  obtain ⟨hlogged, -⟩ := logged_exec h₀ h
  obtain ⟨l, ql⟩ := hlogged.queue
  refine ⟨l, ql.linked, ?_⟩
  intro a ha
  have hcount := ql.account.count_eq a
  rw [hlogged.taken] at hcount
  simp only [List.count_append] at hcount ⊢
  rcases hlogged.reached a ha with hput | ⟨i, hi⟩
  · have hnone : (Finset.univ.filter fun i ↦ a ∈ pending s i) = ∅ := by
      refine Finset.filter_eq_empty_iff.mpr fun i _ hi ↦ ?_
      exact (ql.held (some i) a (Option.mem_toList.mp hi)).2.1 hput
    rw [List.count_eq_one_of_mem ql.once hput] at hcount
    rw [hnone, Finset.card_empty]
    omega
  · have hone : (Finset.univ.filter fun i ↦ a ∈ pending s i) = {i} := by
      ext j
      simp only [Finset.mem_filter, Finset.mem_univ, true_and, Finset.mem_singleton, pending,
        Option.mem_toList]
      constructor
      · intro hj
        exact Option.some.inj (ql.distinct _ _ a hj hi)
      · rintro rfl
        exact hi
    rw [List.count_eq_zero_of_not_mem (ql.held (some i) a hi).2.1] at hcount
    rw [hone, Finset.card_singleton]
    omega

theorem nodes_in_one_place_three : ∃ s₀ s : State (Fin 2) ℕ,
    logstart (fun _ ↦ none) (fun _ ↦ []) Rotation.oldLog = some s₀ ∧
    exec step s₀ (threeMessages 0 1) = some s ∧ s.freed = [8, 7] ∧ deleted s.queue.log = [9] ∧
    ∃ l, Linked s.queue.next s.queue.head l ∧ ∀ a ∈ s.queue.issued,
      (Finset.univ.filter fun i ↦ a ∈ pending s i).card + l.count a + (inHand s.pc).count a +
        (s.freed ++ deleted s.queue.log).count a = 1 := by
  obtain ⟨s₀, s, h₀, h, hfreed, hdeleted⟩ : ∃ s₀ s : State (Fin 2) ℕ,
      logstart (fun _ ↦ none) (fun _ ↦ []) Rotation.oldLog = some s₀ ∧
        exec step s₀ (threeMessages 0 1) = some s ∧ s.freed = [8, 7] ∧
        deleted s.queue.log = [9] := ⟨_, _, rfl, rfl, rfl, rfl⟩
  exact ⟨s₀, s, h₀, h, hfreed, hdeleted, nodes_in_one_place h₀ h⟩

theorem step_maxsize {e : Label ι N} (h : step s e = some t) :
    t.queue.maxsize = s.queue.maxsize ∨ t.queue.maxsize = DEFAULT_SIZE := by
  cases e with
  | logstring i p str =>
    obtain ⟨_, -, -, -, -, hq, -⟩ := logstring_cases h
    exact Pqueue.step_maxsize (by simp) hq
  | lock | spurious =>
    obtain ⟨q, hq, h⟩ := Option.bind_eq_some_iff.mp h
    obtain rfl := Option.some.inj h
    exact Pqueue.step_maxsize (by simp) hq
  | write fname =>
    simp only [step] at h
    split at h
    · obtain ⟨disk, -, h⟩ := Option.bind_eq_some_iff.mp h
      exact .inl (Option.some.inj h ▸ rfl)
    · cases h
  | log e =>
    obtain ⟨he, u, hu, rfl⟩ := log_eq h
    cases e with
    | write => exact absurd rfl he
    | call | lock | spurious =>
      simp only [Logover.step] at hu
      split at hu
      · obtain ⟨q, hq, hu⟩ := Option.bind_eq_some_iff.mp hu
        obtain rfl := Option.some.inj hu
        exact Pqueue.step_maxsize (by simp) hq
      · cases hu
    | logover =>
      simp only [Logover.step] at hu
      split at hu
      case h_4 => cases hu
      all_goals
        obtain ⟨q, hq, hu⟩ := Option.bind_eq_some_iff.mp hu
        obtain rfl := Option.some.inj hu
        exact Pqueue.step_maxsize (by simp) hq

theorem maxsize_exec {next : N → Option N} {m_buf : N → Text} {files : Dir FileName Text}
    {es : List (Label ι N)} {s₀ : State ι N} (h₀ : logstart next m_buf files = some s₀)
    (h : exec step s₀ es = some s) : s.queue.maxsize = DEFAULT_SIZE := by
  refine exec_invariant (I := fun s : State ι N ↦ s.queue.maxsize = DEFAULT_SIZE)
    (G := fun _ ↦ True) ?_ ?_ (fun _ _ ↦ trivial) h
  · intro u e v hu _ hv
    exact (step_maxsize hv).elim (·.trans hu) id
  · have hqueue : exec Pqueue.step (pqueue (Option ι) next) [.setsize 100, .setflag 0] =
        some (pqueue (Option ι) next) := rfl
    simp only [logstart, hqueue, Option.bind_eq_bind, Option.bind_some] at h₀
    obtain ⟨disk, -, h₀⟩ := Option.bind_eq_some_iff.mp h₀
    obtain rfl := Option.some.inj h₀
    rfl

def alive (s : State ι N) : Finset N :=
  s.queue.issued.toFinset \ (s.freed ++ deleted s.queue.log).toFinset

/-- However much is logged, memory holds the nodes of a full queue, one for each thread
and that of the log thread at most. -/
theorem few_nodes_alive {next : N → Option N} {m_buf : N → Text} {files : Dir FileName Text}
    {es : List (Label ι N)} {s₀ s : State ι N} (h₀ : logstart next m_buf files = some s₀)
    (h : exec step s₀ es = some s) : (alive s).card ≤ Fintype.card ι + 100 + 1 := by
  obtain ⟨hlogged, -⟩ := logged_exec h₀ h
  obtain ⟨l, ql⟩ := hlogged.queue
  have hlength : l.length ≤ 100 := by
    have hsize := ql.size
    have hbound := ql.bound
    rw [maxsize_exec h₀ h, DEFAULT_SIZE] at hbound
    omega
  have hsub : alive s ⊆ (Finset.univ.biUnion fun i ↦ (pending s i).toFinset) ∪
      l.toFinset ∪ (inHand s.pc).toFinset := by
    intro a ha
    obtain ⟨hissued, hgone⟩ := Finset.mem_sdiff.mp ha
    rcases hlogged.reached a (List.mem_toFinset.mp hissued) with hput | ⟨i, hi⟩
    · have hplace := ql.account.mem_iff.mp hput
      rw [hlogged.taken] at hplace
      simp only [List.mem_append, List.mem_toFinset] at hplace hgone
      simp only [Finset.mem_union, List.mem_toFinset]
      tauto
    · refine Finset.mem_union_left _ (Finset.mem_union_left _ ?_)
      exact Finset.mem_biUnion.mpr ⟨i, Finset.mem_univ i, by simp [pending, hi]⟩
  have hpending : (Finset.univ.biUnion fun i ↦ (pending s i).toFinset).card ≤
      Fintype.card ι * 1 := by
    refine Finset.card_biUnion_le_card_mul _ _ _ fun i _ ↦ (List.toFinset_card_le _).trans ?_
    cases hheld : (s.queue.thread (some i)).held <;> simp [pending, hheld]
  have hhand : (inHand s.pc).toFinset.card ≤ 1 := by
    refine (List.toFinset_card_le _).trans ?_
    cases s.pc <;> simp [inHand]
  calc (alive s).card
      ≤ (Finset.univ.biUnion fun i ↦ (pending s i).toFinset).card + l.toFinset.card +
          (inHand s.pc).toFinset.card := (Finset.card_le_card hsub).trans <|
        (Finset.card_union_le _ _).trans (Nat.add_le_add_right (Finset.card_union_le _ _) _)
    _ ≤ Fintype.card ι + 100 + 1 := by
        have hqueue := (List.toFinset_card_le l).trans hlength
        omega

theorem few_nodes_alive_eleven : ∃ s₀ s : State (Fin 2) ℕ,
    logstart (fun _ ↦ none) (fun _ ↦ []) Rotation.oldLog = some s₀ ∧
    exec step s₀ ((threeMessages 0 1).take 11) = some s ∧ alive s = {7, 9} ∧
    (alive s).card ≤ Fintype.card (Fin 2) + 100 + 1 := by
  obtain ⟨s₀, s, h₀, h, halive⟩ : ∃ s₀ s : State (Fin 2) ℕ,
      logstart (fun _ ↦ none) (fun _ ↦ []) Rotation.oldLog = some s₀ ∧
        exec step s₀ ((threeMessages 0 1).take 11) = some s ∧ alive s = {7, 9} :=
    ⟨_, _, rfl, rfl, by decide +kernel⟩
  exact ⟨s₀, s, h₀, h, halive, few_nodes_alive h₀ h⟩

end FingerMove.Logmt.Logger
