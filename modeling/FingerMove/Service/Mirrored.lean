import FingerMove.Library.Machine
import FingerMove.Library.Mirror
import FingerMove.Service.McServer

namespace FingerMove.Service.Mirrored

open CText Directory ProDeal Function Machine Mirror

/-- A call of `McServer::Afpmove` that has sent its request to the first `i`
sub caches and written DST_DIR as often, and maybe sent the next. -/
structure Handler where
  req : FingerValue
  data : Text
  i : ℕ
  added : Bool
  data_eq : req.data = some data

def Handler.request (h : Handler) : FingerValue := { h.req with val := h.data }

/-- The eviction: `movCntFile` renames, then `afpMove` takes the files in turn
and has each deleted on the first `i` sub caches. -/
inductive Eviction
  | idle
  | renaming
  | sending (todo : List FileName)
  | deleting (f : FileName) (i : ℕ) (todo : List FileName)

structure State where
  replicas : Replicas
  org : Folder
  handlers : ℕ → Option Handler
  eviction : Eviction

inductive Label
  | start (k : ℕ) (req : FingerValue)
  | handle (k : ℕ)
  | clear
  | rename (f : FileName)
  | list
  | evict

variable (g_sublist : List Text)

def stepHandler (k : ℕ) (h : Handler) (s : State) : Option State :=
  if h.added then do
    let (_, replicas) ← McServer.writeMain .good h.req s.replicas
    return { s with
      replicas
      handlers := update s.handlers k (some { h with i := h.i + 1, added := false }) }
  else match g_sublist[h.i]? with
    | some addr => do
      let (_, replicas) ← McServer.appAdd .good h.request addr s.replicas
      return { s with replicas, handlers := update s.handlers k (some { h with added := true }) }
    | none => some { s with handlers := update s.handlers k none }

def stepEvict (s : State) : Option State :=
  match s.eviction with
  | .sending [] => some { s with eviction := .idle }
  | .sending (f :: todo) => some { s with eviction := .deleting f 0 todo }
  | .deleting f i todo =>
    match g_sublist[i]? with
    | some addr => do
      let (_, d) ← ScServer.delafps f.text (s.replicas.sub addr)
      return { s with
        replicas := { s.replicas with sub := update s.replicas.sub addr d }
        eviction := .deleting f (i + 1) todo }
    | none => some { s with eviction := .sending todo }
  | _ => none

def step (s : State) : Label → Option State
  | .start k req =>
    match s.handlers k, h : req.data with
    | none, some data =>
      some { s with handlers := update s.handlers k (some ⟨req, data, 0, false, h⟩) }
    | _, _ => none
  | .handle k => (s.handlers k).bind fun h ↦ stepHandler g_sublist k h s
  | .clear =>
    match s.eviction with
    | .idle => some { s with org := s.org.clear, eviction := .renaming }
    | _ => none
  | .rename f =>
    match s.eviction with
    | .renaming => do
      guard (s.replicas.main.fits f && s.org.fits f)
      let (a, b) := Directory.rename s.replicas.main.files s.org.files f
      return { s with
        replicas := { s.replicas with main := { s.replicas.main with files := a } }
        org := { s.org with files := b } }
    | _ => none
  | .list =>
    match s.eviction with
    | .renaming => some { s with eviction := .sending s.org.files.keys }
    | _ => none
  | .evict => stepEvict g_sublist s

/-- The part of an eviction that is about `f`: how many sub caches have been
told to delete it. -/
def removal (s : State) (f : FileName) : Option ℕ :=
  match s.eviction with
  | .idle => none
  | .renaming => if f ∈ s.org.files then some 0 else none
  | .sending todo => if f ∈ todo then some 0 else none
  | .deleting g i todo => if f = g then some i else if f ∈ todo then some 0 else none

def writer (f : FileName) (h : Handler) : Option (Writer Text) :=
  if h.req.file = f then some ⟨h.data, h.i, h.added⟩ else none

/-- What the state says about one file. -/
def view (s : State) (f : FileName) : Item Text Text where
  main := s.replicas.main.files.lookup f
  copy addr := (s.replicas.sub addr).files.lookup f
  writer k := (s.handlers k).bind (writer f)
  removal := removal s f

/-- No call works on the file of a new request, and none on a file that is
renamed. -/
def Alone (s : State) : Label → Prop
  | .start _ req => (view s req.file).Idle
  | .rename f => ∀ k, (view s f).writer k = none
  | _ => True

def Quiet (s : State) : Prop := (∀ k, s.handlers k = none) ∧ s.eviction = .idle

def Mirrors (s : State) : Prop :=
  ∀ addr ∈ g_sublist, ∀ f, (s.replicas.sub addr).files.lookup f = s.replicas.main.files.lookup f

variable {g_sublist} {s t : State} {f : FileName}

theorem Handler.request_data (h : Handler) : h.request.data = some h.data :=
  data_request h.data_eq

theorem writers_update (handlers : ℕ → Option Handler) (k : ℕ) (o : Option Handler) :
    (fun j ↦ (update handlers k o j).bind (writer f)) =
      update (fun j ↦ (handlers j).bind (writer f)) k (o.bind (writer f)) :=
  comp_update (fun o : Option Handler ↦ o.bind (writer f)) handlers k o

theorem copies_update (sub : Text → Folder) (addr : Text) (d : Folder) :
    (fun a ↦ (update sub addr d a).files.lookup f) =
      update (fun a ↦ (sub a).files.lookup f) addr (d.files.lookup f) :=
  comp_update (fun d : Folder ↦ d.files.lookup f) sub addr d

theorem writer_of_file {h : Handler} (hf : h.req.file = f) :
    writer f h = some ⟨h.data, h.i, h.added⟩ := if_pos hf

theorem writer_of_ne {h : Handler} (hf : h.req.file ≠ f) : writer f h = none := if_neg hf

theorem view_writer {k : ℕ} {h : Handler} (hk : s.handlers k = some h) :
    (view s f).writer k = writer f h := by
  simp [view, hk]

theorem writers_other {h : Handler} {o : Option Handler} {k : ℕ} (hk : s.handlers k = some h)
    (hf : h.req.file ≠ f) (ho : o.bind (writer f) = none) :
    (fun j ↦ (update s.handlers k o j).bind (writer f)) = (view s f).writer := by
  rw [writers_update, ho]
  exact update_eq_self_iff.mpr ((view_writer hk).trans (writer_of_ne hf)).symm

theorem view_start {k : ℕ} {req : FingerValue} (h : step g_sublist s (.start k req) = some t)
    (ha : Alone s (.start k req)) :
    view t f = view s f ∨ Move g_sublist (view s f) (view t f) := by
  simp only [step] at h
  split at h
  · next data hk hdata =>
    obtain rfl := Option.some.inj h
    by_cases hf : req.file = f
    · subst hf
      refine .inr ?_
      convert (Move.start k data ha : Move g_sublist _ _) using 1
      exact Item.ext rfl rfl (by simp [view, writers_update, writer]) rfl
    · refine .inl (Item.ext rfl rfl ?_ rfl)
      change (fun j ↦ (update s.handlers k _ j).bind (writer f)) = _
      rw [writers_update, Option.bind_some, writer_of_ne hf]
      exact update_eq_self_iff.mpr (by simp [hk])
  · cases h

theorem view_handle {k : ℕ} (h : step g_sublist s (.handle k) = some t) :
    view t f = view s f ∨ Move g_sublist (view s f) (view t f) := by
  obtain ⟨hd, hk, h⟩ := Option.bind_eq_some_iff.mp h
  unfold stepHandler at h
  split at h
  · next hadded =>
    simp only [Option.bind_eq_bind, Option.bind_eq_some_iff, Option.pure_def,
      Option.some.injEq] at h
    obtain ⟨⟨_, r⟩, hwrite, rfl⟩ := h
    obtain ⟨-, rfl⟩ := McServer.writeMain_good hd.data_eq hwrite
    by_cases hf : hd.req.file = f
    · have hw := (view_writer hk).trans (writer_of_file hf)
      refine .inr ?_
      convert (Move.publish k _ hw hadded : Move g_sublist _ _) using 1
      refine Item.ext ?_ rfl (by simp [view, writers_update, writer, hf]) rfl
      simp [view, hf]
    · refine .inl (Item.ext ?_ rfl (writers_other hk hf (by simp [writer, hf])) rfl)
      exact lookup_write_ne (Ne.symm hf) _
  · next hadded =>
    split at h
    · next addr haddr =>
      simp only [Option.bind_eq_bind, Option.bind_eq_some_iff, Option.pure_def,
        Option.some.injEq] at h
      obtain ⟨⟨_, r⟩, hadd, rfl⟩ := h
      obtain ⟨-, rfl⟩ := McServer.appAdd_good hd.request_data hadd
      by_cases hf : hd.req.file = f
      · have hw := (view_writer hk).trans (writer_of_file hf)
        refine .inr ?_
        convert (Move.copy k _ addr hw (by simpa using hadded) haddr : Move g_sublist _ _) using 1
        refine Item.ext rfl ?_ (by simp [view, writers_update, writer, hf]) rfl
        refine (copies_update _ _ _).trans (congrArg _ ?_)
        rw [← hf]
        exact lookup_write_self _
      · refine .inl (Item.ext rfl ?_ (writers_other hk hf (by simp [writer, hf])) rfl)
        refine (copies_update _ _ _).trans (update_eq_self_iff.mpr ?_)
        exact lookup_write_ne (Ne.symm hf) _
    · next hend =>
      obtain rfl := Option.some.inj h
      by_cases hf : hd.req.file = f
      · have hw := (view_writer hk).trans (writer_of_file hf)
        refine .inr ?_
        convert (Move.finish k _ hw hend : Move g_sublist _ _) using 1
        exact Item.ext rfl rfl (by simp [view, writers_update]) rfl
      · exact .inl (Item.ext rfl rfl (writers_other hk hf rfl) rfl)

theorem view_rename {g : FileName} (h : step g_sublist s (.rename g) = some t)
    (ha : Alone s (.rename g)) :
    view t f = view s f ∨ Move g_sublist (view s f) (view t f) := by
  simp only [step] at h
  split at h
  · next hrenaming =>
    simp only [Option.bind_eq_bind, Option.bind_eq_some_iff, Option.pure_def,
      Option.some.injEq] at h
    obtain ⟨_, _, rfl⟩ := h
    by_cases hmove : f = g ∧ g ∈ s.replicas.main.files
    · obtain ⟨rfl, hmem⟩ := hmove
      refine .inr ?_
      convert (Move.remove ha : Move g_sublist _ _) using 1
      refine Item.ext ?_ rfl rfl ?_
      · simp [view, lookup_rename_fst]
      · simp [view, removal, hrenaming, mem_rename_snd, hmem]
    · refine .inl (Item.ext ?_ rfl rfl ?_)
      · show (rename s.replicas.main.files s.org.files g).1.lookup f = _
        rw [lookup_rename_fst]
        split
        · next hf =>
          have hnone := AList.lookup_eq_none.mpr fun hmem ↦ hmove ⟨hf, hmem⟩
          change none = s.replicas.main.files.lookup f
          rw [hf, hnone]
        · rfl
      · simp [view, removal, hrenaming, mem_rename_snd, hmove]
  · cases h

theorem view_evict (h : stepEvict g_sublist s = some t) :
    view t f = view s f ∨ Move g_sublist (view s f) (view t f) := by
  unfold stepEvict at h
  split at h
  · next heviction =>
    obtain rfl := Option.some.inj h
    refine .inl (Item.ext rfl rfl rfl ?_)
    simp [view, removal, heviction]
  · next g todo heviction =>
    obtain rfl := Option.some.inj h
    refine .inl (Item.ext rfl rfl rfl ?_)
    by_cases hf : f = g <;> simp [view, removal, heviction, hf]
  · next g i todo heviction =>
    split at h
    · next addr haddr =>
      simp only [Option.bind_eq_bind, Option.bind_eq_some_iff, Option.pure_def,
        Option.some.injEq] at h
      obtain ⟨⟨_, d⟩, hdel, rfl⟩ := h
      have hlookup := lookup_delafps hdel f
      rw [file_of_text] at hlookup
      by_cases hf : f = g
      · subst hf
        refine .inr ?_
        have hrem : (view s f).removal = some i := by simp [view, removal, heviction]
        convert (Move.erase i addr hrem haddr : Move g_sublist _ _) using 1
        refine Item.ext rfl ?_ rfl (by simp [view, removal])
        refine (copies_update _ _ _).trans (congrArg _ ?_)
        simpa using hlookup
      · refine .inl (Item.ext rfl ?_ rfl (by simp [view, removal, heviction, hf]))
        refine (copies_update _ _ _).trans (update_eq_self_iff.mpr ?_)
        simpa [hf] using hlookup
    · next hend =>
      obtain rfl := Option.some.inj h
      by_cases hf : f = g
      · subst hf
        have hrem : (view s f).removal = some i := by simp [view, removal, heviction]
        refine .inr ?_
        by_cases hmem : f ∈ todo
        · convert (Move.restart i hrem : Move g_sublist _ _) using 1
          exact Item.ext rfl rfl rfl (by simp [view, removal, hmem])
        · convert (Move.settle i hrem hend : Move g_sublist _ _) using 1
          exact Item.ext rfl rfl rfl (by simp [view, removal, hmem])
      · exact .inl (Item.ext rfl rfl rfl (by simp [view, removal, heviction, hf]))
  · cases h

theorem handler_run {k i : ℕ} {subs : List Text} {hd : Handler} {st : Status} {r : Replicas}
    (hk : s.handlers k = some hd) (hadded : hd.added = false) (hsubs : g_sublist.drop hd.i = subs)
    (h : McServer.afpmoveLoop hd.req hd.request (fun _ ↦ .good) i subs s.replicas = some (st, r)) :
    exec (step g_sublist) s (List.replicate (2 * subs.length + 1) (.handle k)) =
      some { s with replicas := r, handlers := update s.handlers k none } := by
  induction subs generalizing i s hd with
  | nil =>
    obtain ⟨rfl, rfl⟩ := Prod.mk.inj (Option.some.inj h)
    have hnone : g_sublist[hd.i]? = none :=
      List.getElem?_eq_none_iff.mpr (List.drop_eq_nil_iff.mp hsubs)
    simp [exec, step, hk, stepHandler, hadded, hnone]
  | cons addr subs ih =>
    -- an iteration of the loop is two steps of the handler
    have haddr : g_sublist[hd.i]? = some addr := by
      rw [← List.head?_drop, hsubs, List.head?_cons]
    have hrest : g_sublist.drop (hd.i + 1) = subs := by
      rw [← List.tail_drop, hsubs, List.tail_cons]
    simp only [McServer.afpmoveLoop, Option.bind_eq_bind, Option.bind_eq_some_iff] at h
    obtain ⟨⟨st₁, r₁⟩, hadd, h⟩ := h
    obtain ⟨rfl, -⟩ := McServer.appAdd_good hd.request_data hadd
    simp only [ne_eq, not_true_eq_false, if_false, Option.bind_eq_some_iff] at h
    obtain ⟨⟨st₂, r₂⟩, hwrite, h⟩ := h
    obtain ⟨rfl, -⟩ := McServer.writeMain_good hd.data_eq hwrite
    simp only [not_true_eq_false, if_false] at h
    have hadd' : step g_sublist s (.handle k) = some { s with
        replicas := r₁
        handlers := update s.handlers k (some { hd with added := true }) } := by
      simp [step, hk, stepHandler, hadded, haddr, hadd]
    have hwrite' : step g_sublist { s with
        replicas := r₁
        handlers := update s.handlers k (some { hd with added := true }) } (.handle k) =
      some { s with
        replicas := r₂
        handlers := update s.handlers k (some { hd with i := hd.i + 1, added := false }) } := by
      simp [step, stepHandler, hwrite]
    rw [List.length_cons, show 2 * (subs.length + 1) + 1 = 2 * subs.length + 1 + 1 + 1 by omega,
      List.replicate_succ, List.replicate_succ, exec, hadd', Option.bind_some, exec, hwrite',
      Option.bind_some, ih (update_self _ _ _) rfl hrest h]
    simp

theorem handler_alone {k : ℕ} {req : FingerValue} {st : Status} {r : Replicas}
    (hk : s.handlers k = none)
    (h : McServer.afpmove g_sublist (fun _ ↦ .good) req s.replicas = some (st, r)) :
    exec (step g_sublist) s
      (.start k req :: List.replicate (2 * g_sublist.length + 1) (.handle k)) =
        some { s with replicas := r } := by
  simp only [McServer.afpmove, Option.bind_eq_bind, Option.bind_eq_some_iff] at h
  obtain ⟨data, hdata, h⟩ := h
  have hstart : step g_sublist s (.start k req) = some { s with
      handlers := update s.handlers k (some ⟨req, data, 0, false, hdata⟩) } := by
    simp only [step]
    split
    · next data' _ hdata' =>
      obtain rfl := Option.some.inj (hdata.symm.trans hdata')
      rfl
    · next hcon => exact absurd hdata (hcon data hk)
  have hrun := handler_run (s := { s with
    handlers := update s.handlers k (some ⟨req, data, 0, false, hdata⟩) })
    (update_self _ _ _) rfl List.drop_zero h
  rw [exec, hstart, Option.bind_some, hrun]
  have hidem : update s.handlers k none = s.handlers := update_eq_self_iff.mpr hk.symm
  simp [hidem]

/-- A step is one of the item model on the file it is about, and none on any
other. -/
theorem step_view {e : Label} (h : step g_sublist s e = some t) (ha : Alone s e) (f : FileName) :
    view t f = view s f ∨ Move g_sublist (view s f) (view t f) := by
  cases e with
  | start k req => exact view_start h ha
  | handle k => exact view_handle h
  | clear =>
    simp only [step] at h
    split at h
    · next heviction =>
      obtain rfl := Option.some.inj h
      exact .inl (Item.ext rfl rfl rfl (by simp [view, removal, heviction]))
    · cases h
  | rename g => exact view_rename h ha
  | list =>
    simp only [step] at h
    split at h
    · next heviction =>
      obtain rfl := Option.some.inj h
      exact .inl (Item.ext rfl rfl rfl (by simp [view, removal, heviction, AList.mem_keys]))
    · cases h
  | evict => exact view_evict h

/-- In a run in which no two parties are at work on a file at once, the sub
caches mirror the main cache whenever no one is at work. -/
theorem mirrored_when_alone {es : List Label} (hq : Quiet s) (hm : Mirrors g_sublist s)
    (ha : EachStep (step g_sublist) Alone s es) :
    Always (step g_sublist) (fun t ↦ Quiet t → Mirrors g_sublist t) s es := by
  have hidle : ∀ t : State, Quiet t → ∀ f, (view t f).Idle := fun t ht f ↦
    ⟨fun k ↦ by simp [view, ht.1 k], by simp [view, removal, ht.2]⟩
  have hgood : Always (step g_sublist) (fun t ↦ ∀ f, Good g_sublist (view t f)) s es := by
    refine always_of_eachStep ?_ (fun f ↦ ?_) ha
    · intro t e u ht hte htu f
      rcases step_view htu hte f with he | hmove
      · exact he ▸ ht f
      · exact good_move (ht f) hmove
    · exact .idle (hidle s hq f) fun addr haddr ↦ hm addr haddr f
  apply hgood.mono
  intro t ht htq addr haddr f
  exact copies_eq (ht f) (hidle t htq f) addr haddr

def inStep : State where
  replicas := ⟨.ofList "afp" [("1.afp", "x")], fun _ ↦ .ofList "afp" [("1.afp", "x")]⟩
  org := .ofList "org" []
  handlers _ := none
  eviction := .idle

def replaced : FingerValue := ⟨"1.afp".toList, "y".toList, 1⟩

theorem mirrored_when_alone_oneSub :
    Always (step ["a".toList]) (fun t ↦ Quiet t → Mirrors ["a".toList] t) inStep
      [.start 0 replaced, .handle 0, .handle 0, .handle 0] := by
  refine mirrored_when_alone ⟨fun _ ↦ rfl, rfl⟩ (fun _ _ _ ↦ rfl) fun _ _ ↦ ⟨?_, ?_⟩
  · exact ⟨fun _ ↦ rfl, rfl⟩
  · exact fun _ _ ↦ ⟨trivial, fun _ _ ↦ ⟨trivial, fun _ _ ↦ ⟨trivial, trivial⟩⟩⟩

theorem mirror_broken : Quiet inStep ∧ Mirrors ["a".toList] inStep ∧
    ¬ Always (step ["a".toList]) (fun t ↦ Quiet t → Mirrors ["a".toList] t) inStep
      [.clear, .rename replaced.file, .list, .evict, .start 0 replaced, .handle 0, .handle 0,
        .handle 0, .evict, .evict, .evict] := by
  refine ⟨⟨fun _ ↦ rfl, rfl⟩, fun _ _ _ ↦ rfl, ?_⟩
  intro h
  have hmirrors := Always.exec h (t := _) rfl ⟨fun k ↦ by cases k <;> rfl, rfl⟩
  cases (show none = some _ from hmirrors "a".toList (by simp) replaced.file)

end FingerMove.Service.Mirrored
