import FingerMove.Library.Machine
import FingerMove.ProDeal.Stages

namespace FingerMove.Logmt.Rotation

open CText Directory ProDeal Machine

def MAX_LOG_CUNT : ℕ := 50000

/-- The directory of the log and the variables of `mtlogthr`, with what the
rotations and the messages were: the archives in order, each with whether it
was the first of its run, and the messages taken, of all runs and of this one. -/
structure State where
  files : Dir FileName Text
  fp : Bool
  count : ℕ
  running : Bool
  archives : List (FileName × Bool)
  taken : List Text
  run : List Text

def init (files : Dir FileName Text) : State := ⟨files, false, 0, false, [], [], []⟩

inductive Label
  | start
  | message (fname : FileName) (buf : Text)
  | stop

def rotate (fname : FileName) (s : State) : State :=
  { s with
    files := (renameTo s.files serverLog fname).insert serverLog []
    fp := true
    archives := if serverLog ∈ s.files then s.archives ++ [(fname, s.run.isEmpty)] else s.archives }

def put (buf : Text) (s : State) : Option State := do
  guard s.fp
  let t ← s.files.lookup serverLog
  return { s with
    files := s.files.insert serverLog (t ++ cstr buf)
    count := if MAX_LOG_CUNT ≤ s.count + 1 then 0 else s.count + 1
    taken := s.taken ++ [cstr buf]
    run := s.run ++ [cstr buf] }

def step (s : State) : Label → Option State
  | .start => if s.running then none else
    some { s with running := true, fp := false, count := 0, run := [] }
  | .message fname buf => if s.running then
      put buf (if s.count = 0 then rotate fname s else s)
    else none
  | .stop => if s.running then some { s with running := false, fp := false } else none

def Fresh (s : State) : Label → Prop
  | .message fname _ => s.count = 0 → fname ∉ s.files
  | _ => True

def State.server (s : State) : Text := (s.files.lookup serverLog).getD []

def State.archived (s : State) : Text :=
  s.archives.flatMap fun a ↦ (s.files.lookup a.1).getD []

structure Base (before : Text) (s : State) : Prop where
  present : ∀ a ∈ s.archives, a.1 ∈ s.files ∧ a.1 ≠ serverLog
  text : s.archived ++ s.server = before ++ s.taken.flatten
  full : ∀ a ∈ s.archives, a.2 = false → ∃ ms, ms.length = MAX_LOG_CUNT ∧ ms <:+: s.taken ∧
    s.files.lookup a.1 = some ms.flatten
  recent : s.run <:+ s.taken
  bound : s.count < MAX_LOG_CUNT

/-- The open file holds the last `count` messages of this run. -/
structure Ready (before : Text) (s : State) : Prop extends Base before s where
  fp : s.fp = true
  held : ∃ ms, ms <:+ s.run ∧ ms.length = s.count ∧ s.files.lookup serverLog = some ms.flatten

/-- A counter of 0 stands for a full file behind the first message of a run. -/
structure Kept (before : Text) (s : State) : Prop extends Base before s where
  fresh : s.run = [] → s.count = 0
  fp : s.running = true → s.run ≠ [] → s.fp = true
  held : s.run ≠ [] → ∃ ms, ms <:+ s.run ∧
    ms.length = (if s.count = 0 then MAX_LOG_CUNT else s.count) ∧
    s.files.lookup serverLog = some ms.flatten

variable {before : Text} {s t : State}

theorem lookup_rotate {fname n : FileName} (hfresh : fname ∉ s.files) :
    (rotate fname s).files.lookup n = if n = serverLog then some [] else
      if n = fname then s.files.lookup serverLog else s.files.lookup n := by
  by_cases hn : n = serverLog
  · rw [if_pos hn, hn]
    exact AList.lookup_insert _
  · rw [if_neg hn]
    refine (AList.lookup_insert_ne hn).trans ?_
    rw [lookup_renameTo hfresh, if_neg hn]

theorem archived_congr {f g : Dir FileName Text} {l : List (FileName × Bool)}
    (h : ∀ a ∈ l, f.lookup a.1 = g.lookup a.1) :
    (l.flatMap fun a ↦ (f.lookup a.1).getD []) = l.flatMap fun a ↦ (g.lookup a.1).getD [] := by
  rw [List.flatMap_def, List.flatMap_def, List.map_congr_left fun a ha ↦ by rw [h a ha]]

theorem Kept.rotate (h : Kept before s) (hcount : s.count = 0) {fname : FileName}
    (hfresh : fname ∉ s.files) : Ready before (rotate fname s) := by
  have hold : ∀ a ∈ s.archives, (Rotation.rotate fname s).files.lookup a.1 =
      s.files.lookup a.1 := by
    intro a ha
    obtain ⟨hmem, hne⟩ := h.present a ha
    have hne' : a.1 ≠ fname := fun he ↦ hfresh (he ▸ hmem)
    rw [lookup_rotate hfresh, if_neg hne, if_neg hne']
  have hpresent : ∀ a ∈ s.archives, a.1 ∈ (Rotation.rotate fname s).files ∧ a.1 ≠ serverLog := by
    intro a ha
    obtain ⟨hmem, hne⟩ := h.present a ha
    refine ⟨?_, hne⟩
    rw [← AList.lookup_isSome, hold a ha]
    exact AList.lookup_isSome.mpr hmem
  have hfull : ∀ a ∈ s.archives, a.2 = false → ∃ ms, ms.length = MAX_LOG_CUNT ∧
      ms <:+: s.taken ∧ (Rotation.rotate fname s).files.lookup a.1 = some ms.flatten := by
    intro a ha hlater
    rw [hold a ha]
    exact h.full a ha hlater
  have hserver : (Rotation.rotate fname s).files.lookup serverLog = some [] := by
    rw [lookup_rotate hfresh, if_pos rfl]
  have hempty : (Rotation.rotate fname s).server = [] := by rw [State.server, hserver]; rfl
  have hheld : ∃ ms, ms <:+ s.run ∧ ms.length = s.count ∧
      (Rotation.rotate fname s).files.lookup serverLog = some ms.flatten :=
    ⟨[], List.nil_suffix, hcount.symm, hserver⟩
  by_cases hlog : serverLog ∈ s.files
  · obtain ⟨old, hlookup⟩ := Option.isSome_iff_exists.mp (AList.lookup_isSome.mpr hlog)
    have hname : fname ≠ serverLog := fun he ↦ hfresh (he ▸ hlog)
    have harchives : (Rotation.rotate fname s).archives =
        s.archives ++ [(fname, s.run.isEmpty)] := if_pos hlog
    have hfile : (Rotation.rotate fname s).files.lookup fname = some old := by
      rw [lookup_rotate hfresh, if_neg hname, if_pos rfl, hlookup]
    refine ⟨⟨?_, ?_, ?_, h.recent, h.bound⟩, rfl, hheld⟩
    · rw [harchives]
      refine List.forall_mem_append.mpr ⟨hpresent, List.forall_mem_singleton.mpr ⟨?_, hname⟩⟩
      rw [← AList.lookup_isSome, hfile]
      rfl
    · rw [hempty, List.append_nil, State.archived, harchives, List.flatMap_append,
        archived_congr hold, List.flatMap_singleton, hfile]
      have htext := h.text
      rw [State.server, hlookup] at htext
      exact htext
    · rw [harchives]
      refine List.forall_mem_append.mpr ⟨hfull, List.forall_mem_singleton.mpr ?_⟩
      intro hlater
      have hrun : s.run ≠ [] := by simpa using hlater
      obtain ⟨ms, hms, hlength, hfile'⟩ := h.held hrun
      rw [if_pos hcount] at hlength
      refine ⟨ms, hlength, (hms.trans h.recent).isInfix, ?_⟩
      rw [hfile, ← hlookup, hfile']
  · have harchives : (Rotation.rotate fname s).archives = s.archives := if_neg hlog
    refine ⟨⟨harchives ▸ hpresent, ?_, harchives ▸ hfull, h.recent, h.bound⟩, rfl, hheld⟩
    have htext := h.text
    rw [State.server, AList.lookup_eq_none.mpr hlog] at htext
    rw [hempty, State.archived, harchives, archived_congr hold]
    exact htext

theorem Kept.ready (h : Kept before s) (hcount : s.count ≠ 0) (hrun : s.running = true) :
    Ready before s := by
  have hne : s.run ≠ [] := fun he ↦ hcount (h.fresh he)
  obtain ⟨ms, hms, hlength, hfile⟩ := h.held hne
  rw [if_neg hcount] at hlength
  exact ⟨h.toBase, h.fp hrun hne, ms, hms, hlength, hfile⟩

theorem Ready.put (h : Ready before s) {buf : Text} (ht : put buf s = some t) :
    Kept before t := by
  obtain ⟨ms, hms, hlength, hfile⟩ := h.held
  simp only [Rotation.put, h.fp, guard, hfile] at ht
  obtain rfl := Option.some.inj ht
  have hserver : (s.files.insert serverLog (ms.flatten ++ cstr buf)).lookup serverLog =
      some (ms ++ [cstr buf]).flatten := by
    rw [AList.lookup_insert, List.flatten_append, List.flatten_singleton]
  have hold : ∀ a ∈ s.archives,
      (s.files.insert serverLog (ms.flatten ++ cstr buf)).lookup a.1 = s.files.lookup a.1 :=
    fun a ha ↦ AList.lookup_insert_ne (h.present a ha).2
  have hbound := h.bound
  refine ⟨⟨?_, ?_, ?_, ?_, ?_⟩, ?_, ?_, ?_⟩
  · intro a ha
    exact ⟨(AList.mem_insert _).mpr (.inr (h.present a ha).1), (h.present a ha).2⟩
  · have htext := h.text
    rw [State.server, hfile, Option.getD_some] at htext
    rw [State.archived, archived_congr hold, State.server, hserver, Option.getD_some,
      List.flatten_append, List.flatten_append, List.flatten_singleton, ← List.append_assoc,
      ← List.append_assoc, ← htext]
    rfl
  · intro a ha hlater
    obtain ⟨ms', hlength', hinfix, hfile'⟩ := h.full a ha hlater
    refine ⟨ms', hlength', hinfix.trans (List.prefix_append _ _).isInfix, ?_⟩
    rw [hold a ha, hfile']
  · obtain ⟨u, hu⟩ := h.recent
    exact ⟨u, by rw [← hu, List.append_assoc]⟩
  · simp only
    split
    · decide
    · omega
  · intro he
    simp at he
  · intro _ _
    rfl
  · intro _
    obtain ⟨u, hu⟩ := hms
    refine ⟨ms ++ [cstr buf], ⟨u, by rw [← hu, List.append_assoc]⟩, ?_, hserver⟩
    rw [List.length_append, List.length_singleton, hlength]
    simp only
    split <;> split <;> omega

theorem kept_step (e : Label) (h : Kept before s) (hfresh : Fresh s e) (ht : step s e = some t) :
    Kept before t := by
  cases e with
  | start =>
    simp only [step] at ht
    split at ht
    · cases ht
    · obtain rfl := Option.some.inj ht
      exact ⟨⟨h.present, h.text, h.full, List.nil_suffix, Nat.zero_lt_of_lt h.bound⟩,
        fun _ ↦ rfl, fun _ he ↦ absurd rfl he, fun he ↦ absurd rfl he⟩
  | message fname buf =>
    simp only [step] at ht
    split at ht
    · next hrun =>
      split at ht
      · next hcount => exact (h.rotate hcount (hfresh hcount)).put ht
      · next hcount => exact (h.ready hcount hrun).put ht
    · cases ht
  | stop =>
    simp only [step] at ht
    split at ht
    · obtain rfl := Option.some.inj ht
      have hstopped : ∀ {P : Prop}, false = true → P := fun he ↦ by cases he
      exact ⟨⟨h.present, h.text, h.full, h.recent, h.bound⟩, h.fresh, hstopped, h.held⟩
    · cases ht

def messages (es : List Label) : List Text :=
  es.filterMap fun | .message _ buf => some (cstr buf) | _ => none

theorem taken_put {buf : Text} (h : put buf s = some t) : t.taken = s.taken ++ [cstr buf] := by
  obtain ⟨_, -, h⟩ := Option.bind_eq_some_iff.mp h
  obtain ⟨_, -, h⟩ := Option.bind_eq_some_iff.mp h
  obtain rfl := Option.some.inj h
  rfl

theorem running_put {buf : Text} (h : put buf s = some t) : t.running = s.running := by
  obtain ⟨_, -, h⟩ := Option.bind_eq_some_iff.mp h
  obtain ⟨_, -, h⟩ := Option.bind_eq_some_iff.mp h
  obtain rfl := Option.some.inj h
  rfl

theorem running_message {fname : FileName} {buf : Text}
    (h : step s (.message fname buf) = some t) : t.running = true := by
  simp only [step] at h
  split at h
  · next hrun =>
    rw [running_put h]
    split
    · exact hrun
    · exact hrun
  · cases h

theorem message_enabled (h : Kept before s) (hrun : s.running = true) (fname : FileName)
    (buf : Text) : ∃ t, step s (.message fname buf) = some t := by
  have hput : ∀ u : State, u.fp = true → (u.files.lookup serverLog).isSome →
      ∃ t, put buf u = some t := by
    intro u hfp hlog
    obtain ⟨text, htext⟩ := Option.isSome_iff_exists.mp hlog
    simp [put, hfp, htext, guard]
  simp only [step, hrun, if_true]
  split
  · exact hput _ rfl (by simp [rotate])
  · next hcount =>
    obtain ⟨ms, -, -, hfile⟩ := (h.ready hcount hrun).held
    exact hput s (h.ready hcount hrun).fp (by rw [hfile]; rfl)

theorem taken_exec {es : List Label} (h : exec step s es = some t) :
    t.taken = s.taken ++ messages es := by
  induction es generalizing s with
  | nil =>
    obtain rfl := Option.some.inj h
    exact (List.append_nil _).symm
  | cons e es ih =>
    obtain ⟨u, hu, h⟩ := exec_cons h
    rw [ih h]
    cases e with
    | message fname buf =>
      simp only [step] at hu
      split at hu
      · have htaken : u.taken = s.taken ++ [cstr buf] := by
          split at hu
          · exact taken_put (s := rotate fname s) hu
          · exact taken_put hu
        rw [htaken, List.append_assoc]
        rfl
      · cases hu
    | start =>
      simp only [step] at hu
      split at hu
      · cases hu
      · obtain rfl := Option.some.inj hu
        rfl
    | stop =>
      simp only [step] at hu
      split at hu
      · obtain rfl := Option.some.inj hu
        rfl
      · cases hu

/-- The archives in order and the current file hold every message once and in
order, over all runs of the log thread. -/
theorem rotation_keeps_messages {files : Dir FileName Text} {es : List Label} {s : State}
    (hfresh : EachStep step Fresh (init files) es) (hrun : exec step (init files) es = some s) :
    s.archived ++ s.server = (files.lookup serverLog).getD [] ++ (messages es).flatten ∧
    (s.run ≠ [] → ∃ ms, ms <:+ s.run ∧ ms.length ≤ MAX_LOG_CUNT ∧ s.server = ms.flatten) ∧
    ∀ a ∈ s.archives, a.2 = false → ∃ ms, ms.length = MAX_LOG_CUNT ∧ ms <:+: messages es ∧
      s.files.lookup a.1 = some ms.flatten := by
  have hinit : Kept ((files.lookup serverLog).getD []) (init files) := by
    have hbound : 0 < MAX_LOG_CUNT := by decide
    refine ⟨⟨?_, ?_, ?_, List.suffix_refl _, hbound⟩, fun _ ↦ rfl, fun he ↦ ?_, fun he ↦ ?_⟩
    · simp [init]
    · simp [init, State.archived, State.server]
    · simp [init]
    · cases he
    · exact absurd rfl he
  have hkept : Kept ((files.lookup serverLog).getD []) s :=
    (always_of_eachStep (fun _ e _ hs hg ht ↦ kept_step e hs hg ht) hinit hfresh).exec hrun
  have htaken : s.taken = messages es := taken_exec hrun
  have hbound := hkept.bound
  refine ⟨htaken ▸ hkept.text, ?_, htaken ▸ hkept.full⟩
  intro hne
  obtain ⟨ms, hms, hlength, hfile⟩ := hkept.held hne
  refine ⟨ms, hms, ?_, by rw [State.server, hfile, Option.getD_some]⟩
  rw [hlength]
  split <;> omega

def oldLog : Dir FileName Text := (Folder.ofList "runlog" [("server.log", "a\n")]).files

theorem rotation_keeps_messages_restart : ∃ s,
    exec step (init oldLog) [.start, .message (.ofC "1.log".toList) "b\n".toList, .stop, .start,
      .message (.ofC "2.log".toList) "c\n".toList] = some s ∧
    s.archived ++ s.server = "a\nb\nc\n".toList := by
  obtain ⟨s, hs⟩ : ∃ s, exec step (init oldLog) [.start,
    .message (.ofC "1.log".toList) "b\n".toList, .stop, .start,
    .message (.ofC "2.log".toList) "c\n".toList] = some s := ⟨_, rfl⟩
  refine ⟨s, hs, ?_⟩
  have hfresh : EachStep step Fresh (init oldLog) [.start,
      .message (.ofC "1.log".toList) "b\n".toList, .stop, .start,
      .message (.ofC "2.log".toList) "c\n".toList] :=
    .cons rfl trivial <| .cons rfl (fun _ ↦ by decide) <| .cons rfl trivial <|
      .cons rfl trivial <| .cons rfl (fun _ ↦ by decide) trivial
  exact (rotation_keeps_messages hfresh hs).1

end FingerMove.Logmt.Rotation
