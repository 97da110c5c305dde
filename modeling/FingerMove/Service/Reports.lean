import FingerMove.Service.Evict
import FingerMove.Service.McServer

namespace FingerMove.Service.Reports

open CText Directory ProDeal Function

/-- `sprintf` into `outputbuf`, and what `logstring` then puts into the queue. -/
def report (line : Text) : Option Text := do
  let outputbuf ← sprintf MAX_LINE_LEN line
  sprintf MAX_LINE_LEN (cstr outputbuf ++ ['\n'])

def hostOf (addr : Text) : Text :=
  match find addr ':' 0 with
  | none => addr
  | some pos => substr addr 0 pos

def peerOf (url : Text) : Text :=
  match find url ':' 0 with
  | none => url
  | some pos1 =>
    match find url ':' (pos1 + 1) with
    | none => url.drop (pos1 + 1)
    | some pos2 => substr url (pos1 + 1) (pos2 - pos1 - 1)

/-- `"%s\t:\t\tmain\t\t==>\t\t%s.."`, where the arrow tells what was done. -/
def line (name arrow host result : Text) : Text :=
  cstr name ++ "\t:\t\tmain\t\t".toList ++ arrow ++ "\t\t".toList ++ cstr host ++ result

def success : Text := "\t\tSuccess!".toList

def error : Text := "\t\tError!".toList

theorem report_eq {t : Text} (ht : '\x00' ∉ t) :
    report t = if t.length + 1 < MAX_LINE_LEN then some (t ++ ['\n']) else none := by
  unfold report sprintf
  by_cases hlen : t.length < MAX_LINE_LEN
  · rw [if_pos hlen, Option.bind_eq_bind, Option.bind_some, cstr_eq_self ht, List.length_append,
      List.length_singleton]
  · rw [if_neg hlen, if_neg fun h ↦ hlen (Nat.lt_of_succ_lt h)]
    rfl

def msg (t : Text) : Text := t ++ ['\n']

theorem report_some {t m : Text} (ht : '\x00' ∉ t) (h : report t = some m) : m = msg t := by
  rw [report_eq ht, Option.ite_none_right_eq_some] at h
  exact (Option.some.inj h.2).symm

theorem line_noNul {name arrow host result : Text} (ha : '\x00' ∉ arrow) (hr : '\x00' ∉ result) :
    '\x00' ∉ line name arrow host result := by
  simp [line, ha, hr, not_mem_cstr]

theorem report_results {name arrow host : Text} (ha : '\x00' ∉ arrow)
    (h : (line name arrow host success).length + 1 < MAX_LINE_LEN) :
    report (line name arrow host success) = some (msg (line name arrow host success)) ∧
      report (line name arrow host error) = some (msg (line name arrow host error)) := by
  have hshort : (line name arrow host error).length + 1 < MAX_LINE_LEN := by
    refine lt_of_le_of_lt (Nat.succ_le_succ ?_) h
    simp only [line, List.length_append]
    exact Nat.add_le_add_left (by decide) _
  rw [report_eq (line_noNul ha (by decide)), if_pos h,
    report_eq (line_noNul ha (by decide)), if_pos hshort]
  exact ⟨rfl, rfl⟩

namespace McServer

/-- The texts that a call of `Afpmove` writes into its log besides the name: the
configured address of the sync server, whatever sub cache is meant, and its peer. -/
structure Sides where
  CLT_SYNC_ADDR : Text
  peer : Text

def added (c : Sides) (req : FingerValue) (result : Text) : Text :=
  line req.name "++>".toList (hostOf c.CLT_SYNC_ADDR) result

def stored (c : Sides) (req : FingerValue) (result : Text) : Text :=
  line req.name "<==".toList (peerOf c.peer) result

variable (c : Sides) (req request : FingerValue) (turns : ℕ → Turn)

def afpmoveLoop : ℕ → List Text → Replicas → Option ((Status × Replicas) × List Text)
  | _, [], s => some ((.ok, s), [])
  | i, addr :: subs, s => do
    let (status, s) ← Service.McServer.appAdd (turns i) request addr s
    if status ≠ .ok then return ((.cancelled, s), [← report (added c req error)])
    let m ← report (added c req success)
    let (status, s) ← Service.McServer.writeMain (turns i) req s
    if status ≠ .ok then return ((.cancelled, s), [m, ← report (stored c req error)])
    let n ← report (stored c req success)
    let (r, ms) ← afpmoveLoop (i + 1) subs s
    return (r, m :: n :: ms)

def afpmove (g_sublist : List Text) (s : Replicas) :
    Option ((Status × Replicas) × List Text) := do
  let data ← req.data
  afpmoveLoop c req { req with val := data } turns 0 g_sublist s

variable {c req request turns} {data : Text} {subs : List Text} {s s' : Replicas} {st : Status}
variable {i n k : ℕ} {m : Text} {ms : List Text}

theorem report_added {r : Text} (hr : '\x00' ∉ r) (h : report (added c req r) = some m) :
    m = msg (added c req r) := report_some (line_noNul (by decide) hr) h

theorem report_stored {r : Text} (hr : '\x00' ∉ r) (h : report (stored c req r) = some m) :
    m = msg (stored c req r) := report_some (line_noNul (by decide) hr) h

def complete (c : Sides) (req : FingerValue) (k : ℕ) : List Text :=
  (List.replicate k [msg (added c req success), msg (stored c req success)]).flatten

theorem complete_succ : complete c req (k + 1) =
    msg (added c req success) :: msg (stored c req success) :: complete c req k := by
  rw [complete, List.replicate_succ, List.flatten_cons]
  rfl

/-- What a call says that came past `k` of `n` sub caches: after their messages nothing
if there are no more of them, else the step of the next iteration that failed. -/
def Told (c : Sides) (req : FingerValue) (n k : ℕ) (st : Status) (ms : List Text) : Prop :=
  (st = .ok ∧ k = n ∧ ms = complete c req k) ∨
    (st = .cancelled ∧ k < n ∧ (ms = complete c req k ++ [msg (added c req error)] ∨
      ms = complete c req k ++ [msg (added c req success), msg (stored c req error)]))

theorem Told.cons (h : Told c req n k st ms) : Told c req (n + 1) (k + 1) st
    (msg (added c req success) :: msg (stored c req success) :: ms) := by
  unfold Told
  rw [complete_succ]
  obtain ⟨rfl, rfl, rfl⟩ | ⟨rfl, hk, rfl | rfl⟩ := h
  · exact .inl ⟨rfl, rfl, rfl⟩
  · exact .inr ⟨rfl, Nat.succ_lt_succ hk, .inl rfl⟩
  · exact .inr ⟨rfl, Nat.succ_lt_succ hk, .inr rfl⟩

theorem added_ne_stored (r r' : Text) : msg (added c req r) ≠ msg (stored c req r') := by
  intro he
  have hline : line _ _ _ _ = line _ _ _ _ := List.append_cancel_right he
  simp only [line, List.append_assoc] at hline
  have harrow := List.append_cancel_left (List.append_cancel_left hline)
  exact absurd (List.cons.inj harrow).1 (by decide)

theorem error_ne_success : msg (stored c req error) ≠ msg (stored c req success) := by
  intro he
  have hline : line _ _ _ _ = line _ _ _ _ := List.append_cancel_right he
  exact absurd (List.append_cancel_left hline) (by decide)

theorem Told.count (h : Told c req n k st ms) : ms.count (msg (stored c req success)) = k := by
  have hadded : ∀ r (l : List Text), (msg (added c req r) :: l).count
      (msg (stored c req success)) = l.count (msg (stored c req success)) :=
    fun r _ ↦ List.count_cons_of_ne (added_ne_stored r success)
  have hcomplete : ∀ j, (complete c req j).count (msg (stored c req success)) = j := by
    intro j
    induction j with
    | zero => rfl
    | succ j ih => rw [complete_succ, hadded, List.count_cons_self, ih]
  obtain ⟨-, -, rfl⟩ | ⟨-, -, rfl | rfl⟩ := h
  · exact hcomplete k
  · rw [List.count_append, hcomplete, hadded, List.count_nil, Nat.add_zero]
  · rw [List.count_append, hcomplete, hadded, List.count_cons_of_ne error_ne_success,
      List.count_nil, Nat.add_zero]

theorem loop_reported (hreq : req.data = some data) (hrequest : request.data = some data)
    (hfile : request.file = req.file)
    (h : afpmoveLoop c req request turns i subs s = some ((st, s'), ms)) :
    Service.McServer.afpmoveLoop req request turns i subs s = some (st, s') ∧
      ∃ k, Service.McServer.Reached req.file data subs s s' k ∧
        Told c req subs.length k st ms := by
  induction subs generalizing i s ms with
  | nil =>
    obtain ⟨hend, rfl⟩ := Prod.mk.inj (Option.some.inj h)
    obtain ⟨rfl, rfl⟩ := Prod.mk.inj hend
    exact ⟨rfl, 0, Service.McServer.reached_refl _ _ _ _, .inl ⟨rfl, rfl, rfl⟩⟩
  | cons addr subs ih =>
    obtain ⟨⟨st₁, s₁⟩, hadd, h⟩ := Option.bind_eq_some_iff.mp h
    have hcases := Service.McServer.appAdd_cases hrequest hadd
    rw [hfile] at hcases
    simp only [Service.McServer.afpmoveLoop, hadd, Option.bind_eq_bind, Option.bind_some]
    dsimp only at h
    split at h
    · next hfail =>
      -- the sub cache may have stored the file all the same
      obtain ⟨m, hm, h⟩ := Option.bind_eq_some_iff.mp h
      obtain ⟨hend, rfl⟩ := Prod.mk.inj (Option.some.inj h)
      obtain ⟨rfl, rfl⟩ := Prod.mk.inj hend
      obtain rfl := report_added (by decide) hm
      refine ⟨by rw [if_pos hfail]; rfl, 0, ?_, .inr ⟨rfl, Nat.succ_pos _, .inl rfl⟩⟩
      rcases hcases with ⟨-, rfl⟩ | rfl
      · exact Service.McServer.reached_refl _ _ _ _
      · exact Service.McServer.reached_add _ _ _ _
    · next hok =>
      rcases hcases with ⟨hne, -⟩ | rfl
      · exact absurd hne hok
      rw [if_neg hok]
      obtain ⟨m, hm, h⟩ := Option.bind_eq_some_iff.mp h
      obtain rfl := report_added (by decide) hm
      obtain ⟨⟨st₂, s₂⟩, hwrite, h⟩ := Option.bind_eq_some_iff.mp h
      simp only [hwrite, Option.bind_some]
      dsimp only at h
      split at h
      · next hfail =>
        obtain ⟨n, hn, h⟩ := Option.bind_eq_some_iff.mp h
        obtain ⟨hend, rfl⟩ := Prod.mk.inj (Option.some.inj h)
        obtain ⟨rfl, rfl⟩ := Prod.mk.inj hend
        obtain rfl := report_stored (by decide) hn
        refine ⟨by rw [if_pos hfail]; rfl, 0, ?_, .inr ⟨rfl, Nat.succ_pos _, .inr rfl⟩⟩
        rcases Service.McServer.writeMain_cases hreq hwrite with ⟨-, rfl⟩ | ⟨rfl, -⟩
        · exact Service.McServer.reached_add _ _ _ _
        · simp at hfail
      · next hok₂ =>
        rcases Service.McServer.writeMain_cases hreq hwrite with ⟨rfl, -⟩ | ⟨-, rfl⟩
        · simp at hok₂
        rw [if_neg hok₂]
        obtain ⟨n, hn, h⟩ := Option.bind_eq_some_iff.mp h
        obtain rfl := report_stored (by decide) hn
        obtain ⟨⟨r, ms'⟩, hrest, h⟩ := Option.bind_eq_some_iff.mp h
        obtain ⟨rfl, rfl⟩ := Prod.mk.inj (Option.some.inj h)
        obtain ⟨hplain, k, hreached, htold⟩ := ih hrest
        exact ⟨hplain, k + 1, hreached.cons, htold.cons⟩

/-- What a call of `Afpmove` says tells how far it came: as many sub caches as it reports
the fingerprint stored for have it, and so has the main cache if there is one; the call
ends with a report of what failed exactly if it is cancelled. -/
theorem call_reported {g_sublist : List Text}
    (h : afpmove c req turns g_sublist s = some ((st, s'), ms)) :
    Service.McServer.afpmove g_sublist turns req s = some (st, s') ∧
      ∃ data, req.data = some data ∧
        Service.McServer.Reached req.file data g_sublist s s'
          (ms.count (msg (stored c req success))) ∧
        Told c req g_sublist.length (ms.count (msg (stored c req success))) st ms := by
  obtain ⟨data, hdata, hloop⟩ := Option.bind_eq_some_iff.mp h
  obtain ⟨hplain, k, hreached, htold⟩ := loop_reported hdata (data_request hdata) rfl hloop
  rw [Service.McServer.afpmove, hdata, htold.count]
  exact ⟨hplain, data, rfl, hreached, htold⟩

theorem call_reported_secondLost : ∃ s' ms,
    afpmove ⟨"sub:50052".toList, "ipv4:10.0.0.2:4711".toList⟩ Service.McServer.newFinger
      Service.McServer.secondLost ["a".toList, "b".toList] Service.McServer.noFiles =
        some ((.cancelled, s'), ms) ∧ ms.length = 3 ∧
      Service.McServer.afpmove ["a".toList, "b".toList] Service.McServer.secondLost
        Service.McServer.newFinger Service.McServer.noFiles = some (.cancelled, s') := by
  obtain ⟨s', ms, h, hlength⟩ : ∃ s' ms,
    afpmove ⟨"sub:50052".toList, "ipv4:10.0.0.2:4711".toList⟩ Service.McServer.newFinger
      Service.McServer.secondLost ["a".toList, "b".toList] Service.McServer.noFiles =
        some ((.cancelled, s'), ms) ∧ ms.length = 3 := ⟨_, _, rfl, rfl⟩
  exact ⟨s', ms, h, hlength, (call_reported h).1⟩

theorem afpmove_forget {g_sublist : List Text}
    (hadded : (added c req success).length + 1 < MAX_LINE_LEN)
    (hstored : (stored c req success).length + 1 < MAX_LINE_LEN) :
    (afpmove c req turns g_sublist s).map Prod.fst =
      Service.McServer.afpmove g_sublist turns req s := by
  obtain ⟨ha, ha'⟩ := report_results (by decide) hadded
  obtain ⟨hs, hs'⟩ := report_results (by decide) hstored
  have hloop : ∀ request i subs s, (afpmoveLoop c req request turns i subs s).map Prod.fst =
      Service.McServer.afpmoveLoop req request turns i subs s := by
    intro request i subs
    induction subs generalizing i with
    | nil => exact fun s ↦ rfl
    | cons addr subs ih =>
      intro s
      simp only [afpmoveLoop, Service.McServer.afpmoveLoop, ← ih, added, stored, ha, ha', hs, hs',
        Option.map_eq_bind, Option.bind_eq_bind, Option.bind_some, Option.bind_assoc]
      refine congrArg _ (funext fun x ↦ ?_)
      split
      · rfl
      · simp only [Option.bind_assoc]
        refine congrArg _ (funext fun y ↦ ?_)
        split
        · rfl
        · simp only [Option.bind_assoc]
          rfl
  simp only [afpmove, Service.McServer.afpmove, ← hloop, Option.map_eq_bind, Option.bind_eq_bind,
    Option.bind_assoc]

end McServer

namespace McMoveClient

open Evict

/-- `strtok(hostaddr, ":")`: the name it returns, and what it leaves in the buffer. -/
def cutHost (hostaddr : Text) : Option (Text × Text) := do
  let (hostname, _) ← strtok ':' hostaddr
  return (hostname, hostaddr.takeWhile (· = ':') ++ hostname)

def appDels (dels : ℕ → Delivery) (name : Text) :
    ℕ → List Text → (Text → Folder) → Option ((Text → Folder) × List Text)
  | _, [], sub => some (sub, [])
  | i, addr :: subs, sub => do
    let (status, d) ← (dels i).call (ScServer.delafps name) (sub addr)
    -- the format of the second message has no tabs behind the host
    let m ← report (line name "-->".toList (hostOf addr)
      (if status = .ok then success else "Error!".toList))
    let (sub, ms) ← appDels dels name (i + 1) subs (update sub addr d)
    return (sub, m :: ms)

variable (g_sublist : List Text) (parcels : FileName → Parcel) (org : Folder)

def moveFile (x : Parcel) (f : FileName) (hostaddr : Text) (p : Progress) :
    Option ((Text × Progress) × List Text) := do
  let some req ← readFinger x.opened org f | do
    let m ← report ("open file : ".toList ++ (cstr org.path ++ '/' :: f.text) ++ " Error".toList)
    return ((hostaddr, p), [m])
  let (status, group) ← x.send.call (GroupServer.afpmove x.stored req) p.group
  let (hostname, hostaddr) ← cutHost hostaddr
  let m ← report (line f.text "==>".toList hostname (if status = .ok then success else error))
  let (sub, ms) ← appDels x.dels f.text 0 g_sublist p.sub
  return ((hostaddr, ⟨group, sub, if status = .ok then f :: p.acks else p.acks⟩), m :: ms)

def moveFiles : List FileName → Text → Progress → Option ((Text × Progress) × List Text)
  | [], hostaddr, p => some ((hostaddr, p), [])
  | f :: fs, hostaddr, p => do
    let ((hostaddr, p), ms) ← moveFile g_sublist org (parcels f) f hostaddr p
    let (r, ns) ← moveFiles fs hostaddr p
    return (r, ms ++ ns)

def afpMove (listed : Bool) (hostaddr : Text) (p : Progress) :
    Option ((ℤ × Progress) × List Text) := do
  if !listed then
    let m ← report ("open dir : ".toList ++ cstr org.path ++ " Error!".toList)
    return ((-1, p), [m])
  let ((_, p), ms) ← moveFiles g_sublist parcels org org.files.keys hostaddr p
  return ((0, p), ms)

section Lines

variable {t u v w name host host' arrow arrow' result result' : Text} {f g : FileName}

theorem behind_colon (hu : ':' ∉ u) : (t ++ ':' :: u).reverse.takeWhile (· ≠ ':') = u.reverse := by
  have hall : ∀ c ∈ u.reverse, decide (c ≠ ':') = true := by
    intro c hc
    simpa using fun he : c = ':' ↦ hu (he ▸ List.mem_reverse.mp hc)
  rw [List.reverse_append, List.reverse_cons, List.append_assoc,
    List.takeWhile_append_of_pos hall]
  simp

theorem hostOf_noColon (addr : Text) : ':' ∉ hostOf addr := by
  unfold hostOf
  split
  · next hnone =>
    intro hmem
    simp [find, hmem] at hnone
  · next pos hpos =>
    intro hmem
    have hsub := substr_find hpos
    rw [Nat.sub_zero] at hsub
    rw [hsub] at hmem
    simpa using List.mem_takeWhile_imp hmem

theorem line_behind (ha : ':' ∉ arrow) (hh : ':' ∉ host) (hr : ':' ∉ result) :
    (line name arrow host result).reverse.takeWhile (· ≠ ':') =
      ("\t\tmain\t\t".toList ++ (arrow ++ ("\t\t".toList ++ (cstr host ++ result)))).reverse := by
  have hcut : ':' ∉ cstr host := fun hmem ↦ hh ((cstr_isPrefix host).subset hmem)
  have hline : line name arrow host result = (cstr name ++ ['\t']) ++ ':' ::
      ("\t\tmain\t\t".toList ++ (arrow ++ ("\t\t".toList ++ (cstr host ++ result)))) := by
    simp [line]
  rw [hline, behind_colon]
  simp [ha, hcut, hr]

theorem line_end (ha : ':' ∉ arrow) (hh : ':' ∉ host) (hr : ':' ∉ result) (ha' : ':' ∉ arrow')
    (hh' : ':' ∉ host') (hr' : ':' ∉ result')
    (h : line t arrow host result = line u arrow' host' result') :
    arrow ++ ("\t\t".toList ++ (cstr host ++ result)) =
      arrow' ++ ("\t\t".toList ++ (cstr host' ++ result')) := by
  have hbehind : (line t arrow host result).reverse.takeWhile (· ≠ ':') = _ :=
    line_behind ha hh hr
  rw [h, line_behind ha' hh' hr'] at hbehind
  exact (List.append_cancel_left (List.reverse_injective hbehind)).symm

end Lines

def sent (host : Text) (f : FileName) : Text := msg (line f.text "==>".toList host success)

section Sent

variable {t host host' result : Text} {f g : FileName}

theorem sent_injective : Injective (sent host) := by
  intro f g h
  simp only [sent, msg, line, List.append_assoc, List.append_cancel_right_eq] at h
  rw [FileName.ext_iff, ← cstr_eq_self f.noNul, ← cstr_eq_self g.noNul]
  exact h

theorem failed_ne_sent (hh : ':' ∉ host) : msg (line t "==>".toList host error) ≠ sent host f := by
  intro he
  have hend := line_end (by decide) hh (by decide) (by decide) hh (by decide)
    (List.append_cancel_right he)
  have hresult := List.append_cancel_left (List.append_cancel_left (List.append_cancel_left hend))
  exact absurd hresult (by decide)

theorem deleted_ne_sent (hh' : ':' ∉ host') (hr : ':' ∉ result) (hh : ':' ∉ host) :
    msg (line t "-->".toList host' result) ≠ sent host f := by
  intro he
  have hend := line_end (by decide) hh' hr (by decide) hh (by decide) (List.append_cancel_right he)
  exact absurd (List.cons.inj hend).1 (by decide)

theorem unopened_ne_sent : msg (t ++ " Error".toList) ≠ sent host f := by
  intro he
  have hline : t ++ " Error".toList = line _ _ _ success := List.append_cancel_right he
  rw [line, show " Error".toList = " Erro".toList ++ ['r'] from rfl,
    show success = "\t\tSuccess".toList ++ ['!'] from rfl, ← List.append_assoc,
    ← List.append_assoc] at hline
  exact absurd (List.append_inj_right' hline rfl) (by decide)

theorem unlisted_ne_sent : msg (t ++ " Error!".toList) ≠ sent host f := by
  intro he
  have hline : t ++ " Error!".toList = line _ _ _ success := List.append_cancel_right he
  rw [line, show " Error!".toList = " Err".toList ++ "or!".toList from rfl,
    show success = "\t\tSucce".toList ++ "ss!".toList from rfl, ← List.append_assoc,
    ← List.append_assoc] at hline
  exact absurd (List.append_inj_right' hline rfl) (by decide)

end Sent

instance (x : Parcel) : Decidable (Delivered x) := inferInstanceAs (Decidable (_ ∧ _ ∧ _))

section Transfer

variable {g_sublist subs : List Text} {parcels : FileName → Parcel} {org : Folder} {x : Parcel}
variable {f : FileName} {fs : List FileName} {p p' : Progress} {hostaddr buf host rest : Text}
variable {ms : List Text}

theorem cutHost_again (h : strtok ':' hostaddr = some (host, rest)) :
    cutHost hostaddr = some (host, hostaddr.takeWhile (· = ':') ++ host) := by
  rw [cutHost, h]
  rfl

theorem appDels_reported {dels : ℕ → Delivery} {name : Text} {i : ℕ} {sub sub' : Text → Folder}
    (h : appDels dels name i subs sub = some (sub', ms)) :
    Service.McMoveClient.appDels dels name i subs sub = some sub' ∧
      ∀ m ∈ ms, ∃ host result, ':' ∉ host ∧ ':' ∉ result ∧
        m = msg (line name "-->".toList host result) := by
  induction subs generalizing i sub ms with
  | nil =>
    obtain ⟨rfl, rfl⟩ := Prod.mk.inj (Option.some.inj h)
    exact ⟨rfl, fun m hm ↦ absurd hm List.not_mem_nil⟩
  | cons addr subs ih =>
    obtain ⟨⟨st, d⟩, hcall, h⟩ := Option.bind_eq_some_iff.mp h
    obtain ⟨m, hm, h⟩ := Option.bind_eq_some_iff.mp h
    obtain ⟨⟨sub₁, ms₁⟩, hrest, h⟩ := Option.bind_eq_some_iff.mp h
    obtain ⟨rfl, rfl⟩ := Prod.mk.inj (Option.some.inj h)
    obtain ⟨hplain, hms⟩ := ih hrest
    refine ⟨?_, ?_⟩
    · rw [Service.McMoveClient.appDels, hcall]
      exact hplain
    · have hcolon : ':' ∉ (if st = .ok then success else "Error!".toList) := by split <;> decide
      have hnul : '\x00' ∉ (if st = .ok then success else "Error!".toList) := by split <;> decide
      exact List.forall_mem_cons.mpr ⟨⟨hostOf addr, _, hostOf_noColon addr, hcolon,
        report_some (line_noNul (by decide) hnul) hm⟩, hms⟩

theorem moveFile_reported (hhost : strtok ':' hostaddr = some (host, rest)) (hf : f ∈ org.files)
    (h : moveFile g_sublist org x f hostaddr p = some ((buf, p'), ms)) :
    Evict.moveFile g_sublist org x f p = some p' ∧ (∃ rest, strtok ':' buf = some (host, rest)) ∧
      ∀ g, ms.count (sent host g) = if g = f ∧ Delivered x then 1 else 0 := by
  have hcolon := (strtok_name hhost).2
  obtain ⟨r, hread, h⟩ := Option.bind_eq_some_iff.mp h
  cases r with
  | none =>
    obtain ⟨m, hm, h⟩ := Option.bind_eq_some_iff.mp h
    obtain ⟨hend, rfl⟩ := Prod.mk.inj (Option.some.inj h)
    obtain ⟨rfl, rfl⟩ := Prod.mk.inj hend
    have hclosed : x.opened ≠ true := by simp [readFinger_none hf hread]
    refine ⟨by rw [Evict.moveFile, hread]; rfl, ⟨rest, hhost⟩, fun g ↦ ?_⟩
    obtain rfl := report_some (by simp [not_mem_cstr, f.noNul]) hm
    rw [List.count_cons_of_ne unopened_ne_sent, if_neg fun hg ↦ hclosed hg.2.1, List.count_nil]
  | some req =>
    obtain ⟨⟨st, group⟩, hsend, h⟩ := Option.bind_eq_some_iff.mp h
    obtain ⟨⟨hostname, hostaddr'⟩, hcut, h⟩ := Option.bind_eq_some_iff.mp h
    obtain ⟨m, hm, h⟩ := Option.bind_eq_some_iff.mp h
    obtain ⟨⟨sub, ns⟩, hdels, h⟩ := Option.bind_eq_some_iff.mp h
    obtain ⟨hend, rfl⟩ := Prod.mk.inj (Option.some.inj h)
    obtain ⟨rfl, rfl⟩ := Prod.mk.inj hend
    obtain ⟨rfl, rfl⟩ := Prod.mk.inj (Option.some.inj ((cutHost_again hhost).symm.trans hcut))
    obtain ⟨hplain, hns⟩ := appDels_reported hdels
    have hnone : ∀ g, ns.count (sent host g) = 0 := by
      intro g
      refine List.count_eq_zero_of_not_mem fun hmem ↦ ?_
      obtain ⟨host', result, hh', hr, he⟩ := hns _ hmem
      exact deleted_ne_sent hh' hr hcolon he.symm
    have hdelivered : Delivered x ↔ st = .ok := by
      rw [afpmove_status hsend, Delivered, and_iff_right (readFinger_some hread).1]
    refine ⟨?_, ⟨[], strtok_again hhost⟩, fun g ↦ ?_⟩
    · simp only [Evict.moveFile, hread, hsend, hplain, Option.bind_eq_bind, Option.bind_some]
      rfl
    · by_cases hst : st = .ok
      · rw [if_pos hst] at hm
        obtain rfl := report_some (line_noNul (by decide) (by decide)) hm
        change (sent host f :: ns).count (sent host g) = _
        rcases eq_or_ne g f with rfl | hne
        · rw [List.count_cons_self, hnone, if_pos ⟨rfl, hdelivered.mpr hst⟩]
        · rw [List.count_cons_of_ne (sent_injective.ne hne.symm), hnone, if_neg fun hg ↦ hne hg.1]
      · rw [if_neg hst] at hm
        obtain rfl := report_some (line_noNul (by decide) (by decide)) hm
        rw [List.count_cons_of_ne (failed_ne_sent hcolon), hnone,
          if_neg fun hg ↦ hst (hdelivered.mp hg.2)]

theorem moveFiles_reported (hhost : strtok ':' hostaddr = some (host, rest))
    (hfs : ∀ f ∈ fs, f ∈ org.files) (hnodup : fs.Nodup)
    (h : moveFiles g_sublist parcels org fs hostaddr p = some ((buf, p'), ms)) :
    Evict.moveFiles g_sublist parcels org fs p = some p' ∧
      ∀ g, ms.count (sent host g) = if g ∈ fs ∧ Delivered (parcels g) then 1 else 0 := by
  induction fs generalizing hostaddr rest p ms with
  | nil =>
    obtain ⟨hend, rfl⟩ := Prod.mk.inj (Option.some.inj h)
    obtain ⟨-, rfl⟩ := Prod.mk.inj hend
    exact ⟨rfl, fun g ↦ by simp⟩
  | cons f fs ih =>
    obtain ⟨hf, hfs⟩ := List.forall_mem_cons.mp hfs
    obtain ⟨hnot, hnodup⟩ := List.nodup_cons.mp hnodup
    obtain ⟨⟨⟨buf₁, p₁⟩, ms₁⟩, hfirst, h⟩ := Option.bind_eq_some_iff.mp h
    obtain ⟨⟨⟨buf₂, p₂⟩, ms₂⟩, hrest, h⟩ := Option.bind_eq_some_iff.mp h
    obtain ⟨hend, rfl⟩ := Prod.mk.inj (Option.some.inj h)
    obtain ⟨rfl, rfl⟩ := Prod.mk.inj hend
    obtain ⟨hplain, ⟨rest₁, hhost₁⟩, hcount⟩ := moveFile_reported hhost hf hfirst
    obtain ⟨hplains, hcounts⟩ := ih hhost₁ hfs hnodup hrest
    refine ⟨?_, fun g ↦ ?_⟩
    · rw [Evict.moveFiles, List.foldlM_cons, hplain]
      exact hplains
    · rw [List.count_append, hcount, hcounts]
      by_cases hg : g = f
      · subst hg
        simp [hnot]
      · simp [hg]

/-- The log of a transfer says once of every file that the group has taken and answered
OK for that it was sent, and of no other; the messages change nothing else. -/
theorem transfer_reported {listed : Bool} {r : ℤ}
    (hhost : strtok ':' hostaddr = some (host, rest))
    (h : afpMove g_sublist parcels org listed hostaddr p = some ((r, p'), ms)) :
    Evict.afpMove g_sublist parcels org listed p = some (r, p') ∧
      ∀ f, ms.count (sent host f) =
        if listed = true ∧ f ∈ org.files ∧ Delivered (parcels f) then 1 else 0 := by
  cases listed with
  | false =>
    obtain ⟨m, hm, h⟩ := Option.bind_eq_some_iff.mp h
    obtain ⟨hend, rfl⟩ := Prod.mk.inj (Option.some.inj h)
    obtain ⟨rfl, rfl⟩ := Prod.mk.inj hend
    obtain rfl := report_some (by simp [not_mem_cstr]) hm
    refine ⟨rfl, fun f ↦ ?_⟩
    rw [List.count_cons_of_ne unlisted_ne_sent]
    simp
  | true =>
    obtain ⟨⟨⟨buf, q⟩, ns⟩, hmove, h⟩ := Option.bind_eq_some_iff.mp h
    obtain ⟨hend, rfl⟩ := Prod.mk.inj (Option.some.inj h)
    obtain ⟨rfl, rfl⟩ := Prod.mk.inj hend
    obtain ⟨hplain, hcount⟩ := moveFiles_reported hhost (fun f hf ↦ AList.mem_keys.mpr hf)
      org.files.nodupKeys hmove
    refine ⟨Option.bind_eq_some_iff.mpr ⟨q, hplain, rfl⟩, fun f ↦ ?_⟩
    rw [hcount]
    simp [AList.mem_keys]

def secondUnanswered (f : FileName) : Parcel :=
  ⟨true, if f.text = "1.afp".toList then .answered else .noReply, true, fun _ ↦ .answered⟩

theorem transfer_reported_secondUnanswered : ∃ p' ms,
    afpMove ["sub1:50052".toList] secondUnanswered
        (.ofList "org" [("1.afp", "x"), ("2.afp", "y")]) true "group:50051".toList
        ⟨⟨.ofList "dst" [], []⟩, fun _ ↦ .ofList "afp" [], []⟩ = some ((0, p'), ms) ∧
      ms.length = 4 ∧ ms.count (sent "group".toList (FileName.ofC "1.afp".toList)) = 1 ∧
      ms.count (sent "group".toList (FileName.ofC "2.afp".toList)) = 0 := by
  obtain ⟨p', ms, h, hlength⟩ : ∃ p' ms,
    afpMove ["sub1:50052".toList] secondUnanswered
        (.ofList "org" [("1.afp", "x"), ("2.afp", "y")]) true "group:50051".toList
        ⟨⟨.ofList "dst" [], []⟩, fun _ ↦ .ofList "afp" [], []⟩ = some ((0, p'), ms) ∧
      ms.length = 4 := ⟨_, _, rfl, rfl⟩
  have hhost : strtok ':' "group:50051".toList = some ("group".toList, "50051".toList) := rfl
  obtain ⟨-, hcount⟩ := transfer_reported hhost h
  refine ⟨p', ms, h, hlength, (hcount _).trans (if_pos ?_), (hcount _).trans (if_neg ?_)⟩
  · exact ⟨rfl, by decide, rfl, rfl, rfl⟩
  · exact fun hsent ↦ absurd hsent.2.2.2.1 (by decide)

end Transfer

end McMoveClient

end FingerMove.Service.Reports
