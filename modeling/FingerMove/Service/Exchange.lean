import FingerMove.Library.Places
import FingerMove.Service.McServer
import FingerMove.Service.RunLoop

namespace FingerMove.Service.Exchange

open CText Directory Tally ProDeal Function Machine Places

/-- The configuration: the limits, the sub list of the main cache, and the group
that listens at an address for `Preconf` and for `Afpmove`. -/
structure Cluster (κ : Type) where
  sorter : Sorter (Text × ℕ)
  CACHE_LIMIT : ℕ
  GROUP_LIMIT : κ → ℕ
  g_sublist : List Text
  conf : Text → Option κ
  move : Text → Option κ

structure Group where
  host : Host
  threads : ℕ

/-- A call of `McServer::Afpmove` that has sent its request to the first `i` sub
caches and written DST_DIR as often, and maybe sent the next; `client` is the
group whose thread waits for the answer. -/
structure Call (κ : Type) where
  req : FingerValue
  data : Text
  i : ℕ
  added : Bool
  client : Option κ
  data_eq : req.data = some data

def Call.request {κ : Type} (c : Call κ) : FingerValue := { c.req with val := c.data }

/-- Where `runLoop` is: asleep, before a group of the list, behind an answer of
`Preconf`, before a file of ORG_DIR, or telling the sub caches to delete one. -/
inductive Pc
  | waiting
  | groups (thr : ℤ) (list : List (Text × Text)) (lineCount : ℤ)
  | answered (result : ℤ) (addr : Text) (thr : ℤ) (list : List (Text × Text)) (lineCount : ℤ)
  | moving (addr : Text) (todo : List FileName) (thr : ℤ) (list : List (Text × Text))
      (lineCount : ℤ)
  | deleting (f : FileName) (i : ℕ) (addr : Text) (todo : List FileName) (thr : ℤ)
      (list : List (Text × Text)) (lineCount : ℤ)

/-- The main cache, the sub caches by their address (AFP_DIR and DST_DIR), the
groups, and the calls of `McServer::Afpmove`. -/
structure State (κ : Type) where
  main : Host
  subAfp : Text → Folder
  subDst : Text → Folder
  group : κ → Group
  calls : ℕ → Option (Call κ)
  pc : Pc

/-- The steps of `runLoop`, of the transfer threads of the groups, and of the
calls that serve these. -/
inductive Label (κ : Type)
  | round (opened : Bool) (e : Round) (dat : Folder) (list : List (Text × Text))
  | ask (d : Delivery) (e : Round) (dat : Folder)
  | refill (mov : Opens) (listed : Bool)
  | send (opened : Bool) (d : Delivery) (stored : Bool)
  | delete (d : Delivery)
  | next
  | upload (g : κ) (opened : Bool) (f : FileName) (arrives : Option ℕ)
  | handle (k : ℕ) (t : Turn)
  | giveUp (k : ℕ)
  | leave (g : κ)

variable {κ : Type} [DecidableEq κ]

def State.release (s : State κ) (client : Option κ) : State κ :=
  match client with
  | none => s
  | some g => { s with
      group := update s.group g { s.group g with threads := (s.group g).threads + 1 } }

def State.finish (s : State κ) (k : ℕ) (c : Call κ) : State κ :=
  { s.release c.client with calls := update s.calls k none }

variable (C : Cluster κ)

/-- `preConf` to the next group of the list; the loop goes on to `movCntFile` only
with an answer that is OK. -/
def ask (d : Delivery) (e : Round) (dat : Folder) (conf addr : Text) (thr : ℤ)
    (list : List (Text × Text)) (lineCount : ℤ) (s : State κ) : Option (State κ) := do
  let failed : State κ := { s with pc := .groups thr list lineCount }
  let some g := C.conf conf | return failed
  if d = .lost then return failed
  let ((status, count), host) ←
    preconf C.sorter (C.GROUP_LIMIT g) e thr { (s.group g).host with dat }
  -- an OK answer has started a thread of `GrMoveClient`
  let threads := if status = .ok then (s.group g).threads + 1 else (s.group g).threads
  let group := update s.group g ⟨host, threads⟩
  if d = .answered ∧ status = .ok then
    return { s with group, pc := .answered count addr thr list lineCount }
  return { failed with group }

/-- `McMoveClient::afpMove` with one file, up to the answer of the group. -/
def send (opened : Bool) (d : Delivery) (stored : Bool) (addr : Text) (f : FileName)
    (s : State κ) : Option (Option (State κ)) := do
  let some req ← readFinger opened s.main.org f | return none
  let some g := C.move addr | return some s
  let (_, dst) ← d.call (GMServer.afpmove stored req) (s.group g).host.dst
  let host := { (s.group g).host with dst }
  return some { s with group := update s.group g { s.group g with host } }

def handle (k : ℕ) (t : Turn) (c : Call κ) (s : State κ) : Option (State κ) := do
  let r : Replicas := ⟨s.main.dst, s.subDst⟩
  if c.added then
    let (status, r) ← McServer.writeMain t c.req r
    let s := { s with main := { s.main with dst := r.main } }
    if status ≠ .ok then return s.finish k c
    let calls := update s.calls k (some { c with i := c.i + 1, added := false })
    return { s with calls }
  let some addr := C.g_sublist[c.i]? | return s.finish k c
  let (status, r) ← McServer.appAdd t c.request addr r
  let s := { s with subDst := r.sub }
  if status ≠ .ok then return s.finish k c
  return { s with calls := update s.calls k (some { c with added := true }) }

/-- A thread of `g` reads a file of ORG_DIR and sends it; without `arrives` the
request is lost. -/
def upload (g : κ) (opened : Bool) (f : FileName) (arrives : Option ℕ) (s : State κ) :
    Option (State κ) := do
  guard (0 < (s.group g).threads ∧ f ∈ (s.group g).host.org.files)
  let some req ← readFinger opened (s.group g).host.org f | return s
  let some k := arrives | return s
  guard (s.calls k).isNone
  match hdata : req.data with
  | none => none
  | some data => return { s with
      group := update s.group g { s.group g with threads := (s.group g).threads - 1 }
      calls := update s.calls k (some ⟨req, data, 0, false, some g, hdata⟩) }

def step (s : State κ) : Label κ → Option (State κ)
  | .round opened e dat list => match s.pc with
    | .waiting => do
      if !opened then return s
      let (thr, main) ← RunLoop.prepare C.sorter C.CACHE_LIMIT e dat s.main
      if thr = -1 then return { s with main }
      return { s with main, pc := .groups thr list 0 }
    | _ => none
  | .ask d e dat => match s.pc with
    | .groups thr ((conf, addr) :: list) lineCount =>
      ask C d e dat conf addr thr list lineCount s
    | _ => none
  | .refill mov listed => match s.pc with
    | .answered result addr thr list lineCount => do
      let (_, afp, org) ← movCntFile mov s.main.afp s.main.org s.main.wrk lineCount result
      let s := { s with main := { s.main with afp, org } }
      if !listed then return { s with pc := .groups thr list (lineCount + result) }
      return { s with pc := .moving addr org.files.keys thr list (lineCount + result) }
    | _ => none
  | .send opened d stored => match s.pc with
    | .moving addr (f :: todo) thr list lineCount => do
      let some s ← send C opened d stored addr f s
        | return { s with pc := .moving addr todo thr list lineCount }
      return { s with pc := .deleting f 0 addr todo thr list lineCount }
    | _ => none
  | .delete d => match s.pc with
    | .deleting f i addr todo thr list lineCount => match C.g_sublist[i]? with
      | some sub => do
        let (_, afp) ← d.call (ScServer.delafps f.text) (s.subAfp sub)
        return { s with
          subAfp := update s.subAfp sub afp
          pc := .deleting f (i + 1) addr todo thr list lineCount }
      | none => some { s with pc := .moving addr todo thr list lineCount }
    | _ => none
  | .next => match s.pc with
    | .moving _ [] thr list lineCount => some { s with pc := .groups thr list lineCount }
    | .groups _ [] _ => some { s with pc := .waiting }
    | _ => none
  | .upload g opened f arrives => upload g opened f arrives s
  | .handle k t => (s.calls k).bind fun c ↦ handle C k t c s
  | .giveUp k => (s.calls k).map fun c ↦ { s.release c.client with
      calls := update s.calls k (some { c with client := none }) }
  | .leave g => do
    guard (0 < (s.group g).threads)
    let threads := (s.group g).threads - 1
    return { s with group := update s.group g { s.group g with threads } }

inductive Place (κ : Type)
  | mainAfp
  | mainOrg
  | mainDst
  | groupAfp (g : κ)
  | groupOrg (g : κ)
  | groupDst (g : κ)
  | subAfp (addr : Text)
  | subDst (addr : Text)
  | call (k : ℕ)
  deriving DecidableEq

def State.held (s : State κ) : Place κ → Set (FileName × Text)
  | .mainAfp => files s.main.afp.files
  | .mainOrg => files s.main.org.files
  | .mainDst => files s.main.dst.files
  | .groupAfp g => files (s.group g).host.afp.files
  | .groupOrg g => files (s.group g).host.org.files
  | .groupDst g => files (s.group g).host.dst.files
  | .subAfp addr => files (s.subAfp addr).files
  | .subDst addr => files (s.subDst addr).files
  | .call k => {x | ∃ c, s.calls k = some c ∧ x = (c.req.file, c.data)}

/-- The places that no step deletes files from. -/
def durable (κ : Type) : Set (Place κ) :=
  {p | match p with
    | .subAfp _ | .call _ => False
    | _ => True}

/-- The directories of the main cache and of the groups; a sub cache holds copies. -/
def stores (κ : Type) : Set (Place κ) :=
  {p | match p with
    | .subAfp _ | .subDst _ | .call _ => False
    | _ => True}

/-- The directory that a step empties and then refills from another. -/
def refills (s : State κ) : Label κ → Option (Place κ × Place κ)
  | .refill mov _ => if mov.call 0 then some (.mainAfp, .mainOrg) else none
  | .ask d e dat => match s.pc with
    | .groups thr ((conf, _) :: _) _ => do
      let g ← C.conf conf
      guard (d ≠ .lost ∧ e.mov.call 0)
      let ((status, _), _) ←
        preconf C.sorter (C.GROUP_LIMIT g) e thr { (s.group g).host with dat }
      if status = .ok then some (.groupAfp g, .groupOrg g) else none
    | _ => none
  | _ => none

variable {C} {s t : State κ}

section Hosts

variable {σ : Sorter (Text × ℕ)} {LIMIT : ℕ} {e : Round} {h h' : Host}

theorem prepare_dst {dat : Folder} {thr : ℤ}
    (hp : RunLoop.prepare σ LIMIT e dat h = some (thr, h')) : h'.dst = h.dst := by
  simp only [RunLoop.prepare, Option.bind_eq_bind, Option.bind_eq_some_iff, Option.pure_def,
    Option.some.injEq, Prod.mk.injEq] at hp
  obtain ⟨g, hg, _, _, _, rfl⟩ := hp
  exact (gather_keeps hg).2.2

theorem preconf_files {num n : ℤ} {st : Status}
    (hp : preconf σ LIMIT e num h = some ((st, n), h')) : h'.dst = h.dst ∧
      ((¬ (st = .ok ∧ e.mov.call 0 = true) ∧ h'.afp = h.afp ∧ h'.org = h.org) ∨
        ((st = .ok ∧ e.mov.call 0 = true) ∧
          files h'.afp.files ∪ files h'.org.files = files h.afp.files)) := by
  have hdst : h'.dst = h.dst := by
    simp only [preconf, Option.bind_eq_bind, Option.bind_eq_some_iff] at hp
    obtain ⟨g, hg, _, _, hp⟩ := hp
    split at hp
    · obtain ⟨-, rfl⟩ := Prod.mk.inj (Option.some.inj hp)
      exact (gather_keeps hg).2.2
    · obtain ⟨_, -, hp⟩ := Option.bind_eq_some_iff.mp hp
      obtain ⟨-, rfl⟩ := Prod.mk.inj (Option.some.inj hp)
      exact (gather_keeps hg).2.2
  refine ⟨hdst, ?_⟩
  by_cases hst : st = .ok
  · subst hst
    obtain ⟨_, wrk, r, -, -, -, hmov⟩ := preconf_ok hp
    obtain ⟨hopen, hafp, horg⟩ | ⟨hopen, hfiles⟩ := movFiles_keeps hmov
    · exact .inl ⟨by simp [hopen], hafp, horg⟩
    · exact .inr ⟨⟨rfl, hopen⟩, hfiles⟩
  · obtain ⟨hafp, horg⟩ := preconf_keeps hp hst
    exact .inl ⟨fun hok ↦ hst hok.1, hafp, horg⟩

end Hosts

theorem ask_cases {d : Delivery} {e : Round} {dat : Folder} {conf addr : Text} {thr : ℤ}
    {list : List (Text × Text)} {lineCount : ℤ}
    (h : ask C d e dat conf addr thr list lineCount s = some t) :
    (t = { s with pc := .groups thr list lineCount } ∧ (d = .lost ∨ C.conf conf = none)) ∨
      d ≠ .lost ∧ ∃ g st count host, C.conf conf = some g ∧
        preconf C.sorter (C.GROUP_LIMIT g) e thr { (s.group g).host with dat } =
          some ((st, count), host) ∧ t = { s with
            group := (update s.group g
              ⟨host, if st = .ok then (s.group g).threads + 1 else (s.group g).threads⟩)
            pc := if d = .answered ∧ st = .ok then .answered count addr thr list lineCount
              else .groups thr list lineCount } := by
  unfold ask at h
  cases hconf : C.conf conf with
  | none =>
    rw [hconf] at h
    obtain rfl := Option.some.inj h
    exact .inl ⟨rfl, .inr rfl⟩
  | some g =>
    rw [hconf] at h
    simp only at h
    split at h
    · next hlost =>
      obtain rfl := Option.some.inj h
      exact .inl ⟨rfl, .inl hlost⟩
    · next hlost =>
      obtain ⟨⟨⟨st, count⟩, host⟩, hp, h⟩ := Option.bind_eq_some_iff.mp h
      refine .inr ⟨hlost, g, st, count, host, rfl, hp, ?_⟩
      simp only at h
      split at h
      · next hok =>
        obtain rfl := Option.some.inj h
        rw [if_pos hok]
      · next hnot =>
        obtain rfl := Option.some.inj h
        rw [if_neg hnot]

section Held

theorem files_write (d : Folder) (f : FileName) (v : Text) :
    files (d.write f v).files = put f v (files d.files) := by
  ext ⟨n, w⟩
  change (d.write f v).files.lookup n = some w ↔ _
  rcases eq_or_ne n f with rfl | hne
  · simp [put, lookup_write_self, eq_comm]
  · simp [put, lookup_write_ne hne, hne, files]

variable (s : State κ)

omit [DecidableEq κ] in
theorem held_pc (pc : Pc) : { s with pc }.held = s.held := by
  funext p
  cases p <;> rfl

omit [DecidableEq κ] in
theorem held_main {main : Host} (hafp : main.afp = s.main.afp) (horg : main.org = s.main.org)
    (hdst : main.dst = s.main.dst) : { s with main }.held = s.held := by
  funext p
  cases p <;> simp [State.held, hafp, horg, hdst]

theorem held_group {g : κ} {u : Group} (hafp : u.host.afp = (s.group g).host.afp)
    (horg : u.host.org = (s.group g).host.org) (hdst : u.host.dst = (s.group g).host.dst) :
    { s with group := update s.group g u }.held = s.held := by
  funext p
  cases p with
  | groupAfp i | groupOrg i | groupDst i =>
    rcases eq_or_ne i g with rfl | hi
    · simp [State.held, hafp, horg, hdst]
    · simp [State.held, hi]
  | mainAfp | mainOrg | mainDst | subAfp | subDst | call => rfl

theorem held_release (client : Option κ) : (s.release client).held = s.held := by
  cases client with
  | none => rfl
  | some g => exact held_group s rfl rfl rfl

theorem held_mainDst (dst : Folder) :
    { s with main := { s.main with dst } }.held =
      update s.held .mainDst (files dst.files) := by
  funext p
  cases p <;> rfl

theorem held_groupDst (g : κ) (dst : Folder) :
    { s with group :=
        (update s.group g { s.group g with host := { (s.group g).host with dst } }) }.held =
      update s.held (.groupDst g) (files dst.files) := by
  funext p
  cases p with
  | groupAfp i | groupOrg i | groupDst i =>
    rcases eq_or_ne i g with rfl | hi
    · simp [State.held]
    · simp [State.held, hi]
  | mainAfp | mainOrg | mainDst | subAfp | subDst | call => rfl

theorem held_subDst (addr : Text) (d : Folder) :
    { s with subDst := update s.subDst addr d }.held =
      update s.held (.subDst addr) (files d.files) := by
  funext p
  cases p with
  | subDst a =>
    rcases eq_or_ne a addr with rfl | ha
    · simp [State.held]
    · simp [State.held, ha]
  | mainAfp | mainOrg | mainDst | groupAfp | groupOrg | groupDst | subAfp | call => rfl

theorem held_subAfp (addr : Text) (d : Folder) :
    { s with subAfp := update s.subAfp addr d }.held =
      update s.held (.subAfp addr) (files d.files) := by
  funext p
  cases p with
  | subAfp a =>
    rcases eq_or_ne a addr with rfl | ha
    · simp [State.held]
    · simp [State.held, ha]
  | mainAfp | mainOrg | mainDst | groupAfp | groupOrg | groupDst | subDst | call => rfl

def requestOf (o : Option (Call κ)) : Set (FileName × Text) :=
  {x | ∃ c, o = some c ∧ x = (c.req.file, c.data)}

theorem held_calls (k : ℕ) (o : Option (Call κ)) :
    { s with calls := update s.calls k o }.held = update s.held (.call k) (requestOf o) := by
  funext p
  cases p with
  | call j =>
    rcases eq_or_ne j k with rfl | hj
    · simp [State.held, requestOf]
    · simp [State.held, hj]
  | mainAfp | mainOrg | mainDst | groupAfp | groupOrg | groupDst | subAfp | subDst => rfl

omit [DecidableEq κ] in
theorem requestOf_none : requestOf (none : Option (Call κ)) = ∅ := by
  ext x
  simp [requestOf]

theorem release_calls (client : Option κ) : (s.release client).calls = s.calls := by
  cases client <;> rfl

theorem held_finish (k : ℕ) (c : Call κ) :
    (s.finish k c).held = update s.held (.call k) ∅ := by
  have hcalls : s.finish k c = { s.release c.client with
      calls := update (s.release c.client).calls k none } := by
    rw [release_calls]
    rfl
  rw [hcalls, held_calls, held_release, requestOf_none]

end Held

theorem readFinger_file {opened : Bool} {org : Folder} {f : FileName} {req : FingerValue}
    (h : readFinger opened org f = some (some req)) :
    (f, req.val) ∈ files org.files ∧ req.file = f ∧ req.data = some req.val := by
  obtain ⟨-, val, hval, rfl⟩ := readFinger_some h
  exact ⟨hval, file_of_text f, data_of_len rfl⟩

theorem files_delafps {name : Text} {afp d : Folder} {st : Status} {m : Delivery}
    (h : m.call (ScServer.delafps name) afp = some (st, d)) :
    files d.files ⊆ files afp.files := by
  obtain ⟨-, rfl⟩ | ⟨st', hdel, -⟩ := call_cases h
  · exact subset_rfl
  · rintro ⟨n, v⟩ hn
    have hlookup := lookup_delafps hdel n
    rw [show d.files.lookup n = some v from hn] at hlookup
    split at hlookup
    · cases hlookup
    · exact hlookup.symm

theorem quiet_of_eq {x y : Place κ → Set (FileName × Text)} (h : y = x) :
    Quiet (durable κ) x y := by
  rw [h]
  exact .refl x

theorem quiet_store {p q : Place κ} {x : Place κ → Set (FileName × Text)} {dst d : Folder}
    {req : FingerValue} {data : Text} {m : Delivery} {stored : Bool} {st : Status}
    (hx : x p = files dst.files) (hq : (req.file, data) ∈ x q) (hdata : req.data = some data)
    (h : m.call (storeFinger stored req) dst = some (st, d)) :
    Quiet (durable κ) x (update x p (files d.files)) := by
  have hstay : Quiet (durable κ) x (update x p (files dst.files)) :=
    quiet_of_eq (by rw [← hx, update_eq_self])
  obtain ⟨-, rfl⟩ | ⟨st', hstore, -⟩ := call_cases h
  · exact hstay
  · obtain ⟨-, -, rfl⟩ | ⟨-, -, rfl⟩ := storeFinger_cases hdata hstore
    · exact hstay
    · rw [files_write, ← hx]
      exact .take p q req.file data hq (.refl _)

theorem quiet_send {opened stored : Bool} {d : Delivery} {addr : Text} {f : FileName}
    (h : send C opened d stored addr f s = some (some t)) :
    Quiet (durable κ) s.held t.held := by
  obtain ⟨_ | req, hreq, h⟩ := Option.bind_eq_some_iff.mp h
  · cases h
  · obtain ⟨hfile, hname, hdata⟩ := readFinger_file hreq
    simp only at h
    cases hmove : C.move addr with
    | none =>
      rw [hmove] at h
      obtain rfl := Option.some.inj (Option.some.inj h)
      exact .refl _
    | some g =>
      rw [hmove] at h
      obtain ⟨⟨st, dst⟩, hcall, h⟩ := Option.bind_eq_some_iff.mp h
      obtain rfl := Option.some.inj (Option.some.inj h)
      rw [held_groupDst]
      exact quiet_store (q := .mainOrg) rfl (hname ▸ hfile) hdata hcall

omit [DecidableEq κ] in
theorem requestOf_some (c : Call κ) : requestOf (some c) = {(c.req.file, c.data)} := by
  ext x
  simp [requestOf]

omit [DecidableEq κ] in
theorem held_call {k : ℕ} {o : Option (Call κ)} (hk : s.calls k = o) :
    s.held (.call k) = requestOf o := by
  rw [← hk]
  rfl

theorem upload_cases {g : κ} {opened : Bool} {f : FileName} {arrives : Option ℕ}
    (h : upload g opened f arrives s = some t) :
    (0 < (s.group g).threads ∧ f ∈ (s.group g).host.org.files) ∧
      (t = s ∨ ∃ (req : FingerValue) (k : ℕ) (hdata : req.data = some req.val),
        readFinger opened (s.group g).host.org f = some (some req) ∧ s.calls k = none ∧
        t = { s with
          group := update s.group g { s.group g with threads := (s.group g).threads - 1 }
          calls := update s.calls k (some ⟨req, req.val, 0, false, some g, hdata⟩) }) := by
  obtain ⟨_, hguard, h⟩ := Option.bind_eq_some_iff.mp h
  refine ⟨(Option.guard_eq_some' _).mp hguard, ?_⟩
  obtain ⟨_ | req, hreq, h⟩ := Option.bind_eq_some_iff.mp h
  · exact .inl (Option.some.inj h).symm
  · obtain ⟨-, -, hval⟩ := readFinger_file hreq
    cases arrives with
    | none => exact .inl (Option.some.inj h).symm
    | some k =>
      obtain ⟨_, hfree, h⟩ := Option.bind_eq_some_iff.mp h
      split at h
      · cases h
      · next data hdata =>
        obtain rfl : data = req.val := Option.some.inj (hdata.symm.trans hval)
        refine .inr ⟨req, k, hdata, hreq, ?_, (Option.some.inj h).symm⟩
        simpa using (Option.guard_eq_some' _).mp hfree

theorem quiet_upload {g : κ} {opened : Bool} {f : FileName} {arrives : Option ℕ}
    (h : upload g opened f arrives s = some t) : Quiet (durable κ) s.held t.held := by
  obtain ⟨-, rfl | ⟨req, k, hdata, hreq, hnone, rfl⟩⟩ := upload_cases h
  · exact .refl _
  · obtain ⟨hfile, hname, -⟩ := readFinger_file hreq
    -- the thread that waits for the answer changes no directory
    let s' : State κ := { s with
      group := (update s.group g { s.group g with threads := (s.group g).threads - 1 }) }
    have hs' : s'.held = s.held := held_group s rfl rfl rfl
    have hheld := held_calls s' k (some ⟨req, req.val, 0, false, some g, hdata⟩)
    have hput : requestOf (some (⟨req, req.val, 0, false, some g, hdata⟩ : Call κ)) =
        put f req.val (s.held (.call k)) := by
      rw [held_call hnone, requestOf_none, requestOf_some, hname]
      ext x
      simp [put]
    rw [hs', hput] at hheld
    exact (Quiet.take (.call k) (.groupOrg g) f req.val hfile (.refl _)).trans
      (quiet_of_eq hheld)

theorem quiet_finish (s : State κ) (k : ℕ) (c : Call κ) :
    Quiet (durable κ) s.held (s.finish k c).held := by
  rw [held_finish]
  exact .drop (.call k) ∅ id (Set.empty_subset _) (.refl _)

theorem held_goOn {k : ℕ} {c c' : Call κ} (hk : s.calls k = some c) (hreq : c'.req = c.req)
    (hdata : c'.data = c.data) :
    { s with calls := update s.calls k (some c') }.held = s.held := by
  rw [held_calls, requestOf_some, hreq, hdata, ← requestOf_some, ← held_call hk, update_eq_self]

/-- What a copy that has been made lets a call go on with. -/
inductive Advance (C : Cluster κ) (x : Place κ → Set (FileName × Text)) (c : Call κ) :
    Call κ → Prop
  | main : (c.req.file, c.data) ∈ x .mainDst → c.added = true →
      Advance C x c { c with i := c.i + 1, added := false }
  | sub (addr : Text) : (c.req.file, c.data) ∈ x (.subDst addr) →
      C.g_sublist[c.i]? = some addr → Advance C x c { c with added := true }

omit [DecidableEq κ] in
theorem Advance.request {x : Place κ → Set (FileName × Text)} {c c' : Call κ}
    (h : Advance C x c c') : c'.req = c.req ∧ c'.data = c.data := by
  cases h <;> exact ⟨rfl, rfl⟩

theorem handle_cases {k : ℕ} {u : Turn} {c : Call κ} (hk : s.calls k = some c)
    (h : handle C k u c s = some t) : ∃ v : State κ,
      v = { s with main := { s.main with dst := v.main.dst }, subDst := v.subDst } ∧
      Quiet (durable κ) s.held v.held ∧ (t = v.finish k c ∨
        ∃ c', Advance C v.held c c' ∧ t = { v with calls := update v.calls k (some c') }) := by
  have hmem : (c.req.file, c.data) ∈ s.held (.call k) := ⟨c, hk, rfl⟩
  unfold handle at h
  simp only at h
  split at h
  · next hadded =>
    obtain ⟨⟨st, r⟩, hwrite, h⟩ := Option.bind_eq_some_iff.mp h
    obtain ⟨rfl, rfl⟩ | ⟨rfl, rfl⟩ := McServer.writeMain_cases c.data_eq hwrite
    · obtain rfl := Option.some.inj h
      exact ⟨s, rfl, .refl _, .inl rfl⟩
    · obtain rfl := Option.some.inj h
      let dst := s.main.dst.write c.req.file c.data
      let v : State κ := { s with main := { s.main with dst } }
      have hv : v.held = update s.held .mainDst (put c.req.file c.data (s.held .mainDst)) := by
        rw [held_mainDst s dst, files_write]
        rfl
      refine ⟨v, rfl, ?_, .inr ⟨{ c with i := c.i + 1, added := false }, .main ?_ hadded, rfl⟩⟩
      · rw [hv]
        exact .take .mainDst (.call k) c.req.file c.data hmem (.refl _)
      · rw [hv, update_self]
        exact .inl rfl
  · split at h
    · next addr haddr =>
      obtain ⟨⟨st, r⟩, hadd, h⟩ := Option.bind_eq_some_iff.mp h
      obtain ⟨hfail, rfl⟩ | rfl := McServer.appAdd_cases (data_request c.data_eq) hadd
      · rw [if_pos hfail] at h
        obtain rfl := Option.some.inj h
        exact ⟨s, rfl, .refl _, .inl rfl⟩
      · let d := (s.subDst addr).write c.req.file c.data
        let v : State κ := { s with subDst := (update s.subDst addr d) }
        have hv : v.held =
            update s.held (.subDst addr) (put c.req.file c.data (s.held (.subDst addr))) := by
          rw [held_subDst s addr d, files_write]
          rfl
        have hquiet : Quiet (durable κ) s.held v.held := by
          rw [hv]
          exact .take (.subDst addr) (.call k) c.req.file c.data hmem (.refl _)
        refine ⟨v, rfl, hquiet, ?_⟩
        split at h
        · obtain rfl := Option.some.inj h
          exact .inl rfl
        · obtain rfl := Option.some.inj h
          refine .inr ⟨{ c with added := true }, .sub addr ?_ haddr, rfl⟩
          rw [hv, update_self]
          exact .inl rfl
    · obtain rfl := Option.some.inj h
      exact ⟨s, rfl, .refl _, .inl rfl⟩

theorem quiet_handle {k : ℕ} {u : Turn} {c : Call κ} (hk : s.calls k = some c)
    (h : handle C k u c s = some t) : Quiet (durable κ) s.held t.held := by
  obtain ⟨v, hsame, hv, rfl | ⟨c', hc', rfl⟩⟩ := handle_cases hk h
  · exact hv.trans (quiet_finish v k c)
  · have hcalls : v.calls = s.calls := by rw [hsame]
    rw [held_goOn (hcalls ▸ hk) hc'.request.1 hc'.request.2]
    exact hv

section Steps

theorem held_round {opened : Bool} {e : Round} {dat : Folder} {list : List (Text × Text)}
    (h : step C s (.round opened e dat list) = some t) : t.held = s.held := by
  simp only [step] at h
  split at h
  · split at h
    · obtain rfl := Option.some.inj h
      rfl
    · obtain ⟨⟨thr, main⟩, hp, h⟩ := Option.bind_eq_some_iff.mp h
      obtain ⟨hafp, horg⟩ := RunLoop.prepare_keeps hp
      have hmain := held_main s hafp horg (prepare_dst hp)
      split at h
      · obtain rfl := Option.some.inj h
        exact hmain
      · obtain rfl := Option.some.inj h
        exact (held_pc { s with main } _).trans hmain
  · cases h

theorem step_ask {d : Delivery} {e : Round} {dat : Folder} (h : step C s (.ask d e dat) = some t) :
    (refills C s (.ask d e dat) = none ∧ t.held = s.held) ∨
      ∃ g, refills C s (.ask d e dat) = some (.groupAfp g, .groupOrg g) ∧
        Refill (.groupAfp g) (.groupOrg g) s.held t.held := by
  simp only [step] at h
  split at h
  · next thr conf addr list lineCount hpc =>
    obtain ⟨rfl, hfail⟩ | ⟨hd, g, st, count, host, hconf, hp, rfl⟩ := ask_cases h
    · refine .inl ⟨?_, held_pc s _⟩
      rcases hfail with rfl | hconf
      · simp [refills, hpc]
      · simp [refills, hpc, hconf]
    · obtain ⟨hdst, ⟨hst, hafp, horg⟩ | ⟨⟨rfl, hopen⟩, hfiles⟩⟩ := preconf_files hp
      · refine .inl ⟨?_, ?_⟩
        · by_cases hok : st = .ok
          · have hopen : e.mov.call 0 = false := by simpa [hok] using hst
            simp [refills, hpc, hconf, hopen]
          · simp [refills, hpc, hconf, hp, hok]
        · exact (held_pc { s with group := (update s.group g ⟨host, _⟩) } _).trans
            (held_group s hafp horg hdst)
      · refine .inr ⟨g, ?_, ?_⟩
        · simp [refills, hpc, hconf, hd, hopen, hp]
        · refine ⟨by simp, ?_, ?_⟩
          · simpa [State.held] using hfiles
          · intro p hpa hpb
            cases p with
            | groupAfp i | groupOrg i =>
              have hi : i ≠ g := by simp_all
              simp [State.held, hi]
            | groupDst i =>
              rcases eq_or_ne i g with rfl | hi
              · simp [State.held, hdst]
              · simp [State.held, hi]
            | mainAfp | mainOrg | mainDst | subAfp | subDst | call => rfl
  · cases h

theorem step_refill {mov : Opens} {listed : Bool} (h : step C s (.refill mov listed) = some t) :
    (mov.call 0 = false ∧ t.held = s.held) ∨
      (mov.call 0 = true ∧ Refill .mainAfp .mainOrg s.held t.held) := by
  simp only [step] at h
  split at h
  · obtain ⟨⟨r, afp, org⟩, hmov, h⟩ := Option.bind_eq_some_iff.mp h
    have ht : t.held = { s with main := { s.main with afp, org } }.held := by
      split at h <;> obtain rfl := Option.some.inj h <;>
        exact held_pc { s with main := { s.main with afp, org } } _
    obtain ⟨hopen, rfl, rfl⟩ | ⟨hopen, hfiles⟩ := movFiles_keeps hmov
    · exact .inl ⟨hopen, ht⟩
    · refine .inr ⟨hopen, by simp, ?_, ?_⟩
      · rw [ht]
        exact hfiles
      · intro p hpa hpb
        rw [ht]
        cases p with
        | mainAfp => exact absurd rfl hpa
        | mainOrg => exact absurd rfl hpb
        | mainDst | groupAfp | groupOrg | groupDst | subAfp | subDst | call => rfl
  · cases h

theorem quiet_delete {d : Delivery} (h : step C s (.delete d) = some t) :
    Quiet (durable κ) s.held t.held := by
  simp only [step] at h
  split at h
  · split at h
    · next sub _ =>
      obtain ⟨⟨st, afp⟩, hcall, h⟩ := Option.bind_eq_some_iff.mp h
      obtain rfl := Option.some.inj h
      rw [held_pc { s with subAfp := (update s.subAfp sub afp) }, held_subAfp]
      exact .drop (.subAfp sub) (files afp.files) id (files_delafps hcall) (.refl _)
    · obtain rfl := Option.some.inj h
      exact quiet_of_eq (held_pc s _)
  · cases h

theorem quiet_step_send {opened stored : Bool} {d : Delivery}
    (h : step C s (.send opened d stored) = some t) : Quiet (durable κ) s.held t.held := by
  simp only [step] at h
  split at h
  · obtain ⟨_ | v, hsend, h⟩ := Option.bind_eq_some_iff.mp h
    · obtain rfl := Option.some.inj h
      exact quiet_of_eq (held_pc s _)
    · obtain rfl := Option.some.inj h
      exact (quiet_send hsend).trans (quiet_of_eq (held_pc v _))
  · cases h

theorem held_next (h : step C s .next = some t) : t.held = s.held := by
  simp only [step] at h
  split at h
  · obtain rfl := Option.some.inj h
    exact held_pc s _
  · obtain rfl := Option.some.inj h
    exact held_pc s _
  · cases h

theorem held_giveUp {k : ℕ} (h : step C s (.giveUp k) = some t) : t.held = s.held := by
  obtain ⟨c, hk, rfl⟩ := Option.map_eq_some_iff.mp h
  have hcalls := release_calls s c.client
  calc _ = (s.release c.client).held := by
        rw [← hcalls]
        exact held_goOn (c := c) (by rw [hcalls]; exact hk) rfl rfl
    _ = s.held := held_release s c.client

theorem held_leave {g : κ} (h : step C s (.leave g) = some t) : t.held = s.held := by
  obtain ⟨_, -, h⟩ := Option.bind_eq_some_iff.mp h
  obtain rfl := Option.some.inj h
  exact held_group s rfl rfl rfl

theorem quiet_step {e : Label κ} (h : step C s e = some t) (hr : refills C s e = none) :
    Quiet (durable κ) s.held t.held := by
  cases e with
  | round => exact quiet_of_eq (held_round h)
  | ask =>
    obtain ⟨-, heq⟩ | ⟨g, hsome, -⟩ := step_ask h
    · exact quiet_of_eq heq
    · rw [hr] at hsome
      cases hsome
  | refill =>
    obtain ⟨-, heq⟩ | ⟨hopen, -⟩ := step_refill h
    · exact quiet_of_eq heq
    · simp [refills, hopen] at hr
  | send => exact quiet_step_send h
  | delete => exact quiet_delete h
  | next => exact quiet_of_eq (held_next h)
  | upload => exact quiet_upload h
  | handle =>
    obtain ⟨c, hk, h⟩ := Option.bind_eq_some_iff.mp h
    exact quiet_handle hk h
  | giveUp => exact quiet_of_eq (held_giveUp h)
  | leave => exact quiet_of_eq (held_leave h)

theorem refill_step {e : Label κ} {a b : Place κ} (h : step C s e = some t)
    (hr : refills C s e = some (a, b)) :
    ((a = .mainAfp ∧ b = .mainOrg) ∨ ∃ g, a = .groupAfp g ∧ b = .groupOrg g) ∧
      Refill a b s.held t.held := by
  cases e with
  | ask =>
    obtain ⟨hnone, -⟩ | ⟨g, hsome, hrefill⟩ := step_ask h
    · rw [hr] at hnone
      cases hnone
    · obtain ⟨rfl, rfl⟩ := Prod.mk.inj (Option.some.inj (hr.symm.trans hsome))
      exact ⟨.inr ⟨g, rfl, rfl⟩, hrefill⟩
  | refill =>
    obtain ⟨hopen, -⟩ | ⟨hopen, hrefill⟩ := step_refill h
    · simp [refills, hopen] at hr
    · obtain ⟨rfl, rfl⟩ : Place.mainAfp = a ∧ Place.mainOrg = b := by
        simpa [refills, hopen] using hr
      exact ⟨.inl ⟨rfl, rfl⟩, hrefill⟩
  | round | send | delete | next | upload | handle | giveUp | leave => cases hr

end Steps

/-- The steps of `runLoop` other than `preConf`. -/
def Label.Loop : Label κ → Prop
  | .round _ _ _ _ | .refill _ _ | .send _ _ _ | .delete _ | .next => True
  | _ => False

theorem loop_frame {e : Label κ} (he : e.Loop) (h : step C s e = some t) :
    t.calls = s.calls ∧ t.subDst = s.subDst ∧ t.main.dst = s.main.dst ∧ ∀ g,
      t.group g = { s.group g with
        host := { (s.group g).host with dst := (t.group g).host.dst } } := by
  cases e with
  | ask | upload | handle | giveUp | leave => exact he.elim
  | round opened e dat list =>
    simp only [step] at h
    split at h
    · split at h
      · obtain rfl := Option.some.inj h
        exact ⟨rfl, rfl, rfl, fun _ ↦ rfl⟩
      · obtain ⟨⟨thr, main⟩, hp, h⟩ := Option.bind_eq_some_iff.mp h
        have hdst := prepare_dst hp
        split at h <;>
        · obtain rfl := Option.some.inj h
          exact ⟨rfl, rfl, hdst, fun _ ↦ rfl⟩
    · cases h
  | refill mov listed =>
    simp only [step] at h
    split at h
    · obtain ⟨_, -, h⟩ := Option.bind_eq_some_iff.mp h
      split at h <;>
      · obtain rfl := Option.some.inj h
        exact ⟨rfl, rfl, rfl, fun _ ↦ rfl⟩
    · cases h
  | send opened d stored =>
    simp only [step] at h
    split at h
    · next addr f todo thr list lineCount hpc =>
      obtain ⟨_ | v, hsend, h⟩ := Option.bind_eq_some_iff.mp h
      · obtain rfl := Option.some.inj h
        exact ⟨rfl, rfl, rfl, fun _ ↦ rfl⟩
      · obtain rfl := Option.some.inj h
        obtain ⟨_ | req, -, hsend⟩ := Option.bind_eq_some_iff.mp hsend
        · cases hsend
        · cases hmove : C.move addr with
          | none =>
            rw [hmove] at hsend
            obtain rfl := Option.some.inj (Option.some.inj hsend)
            exact ⟨rfl, rfl, rfl, fun _ ↦ rfl⟩
          | some g =>
            rw [hmove] at hsend
            obtain ⟨_, -, hsend⟩ := Option.bind_eq_some_iff.mp hsend
            obtain rfl := Option.some.inj (Option.some.inj hsend)
            refine ⟨rfl, rfl, rfl, fun i ↦ ?_⟩
            rcases eq_or_ne i g with rfl | hi
            · simp only [update_self]
            · simp only [update_of_ne hi]
    · cases h
  | delete d =>
    simp only [step] at h
    split at h
    · split at h
      · obtain ⟨_, -, h⟩ := Option.bind_eq_some_iff.mp h
        obtain rfl := Option.some.inj h
        exact ⟨rfl, rfl, rfl, fun _ ↦ rfl⟩
      · obtain rfl := Option.some.inj h
        exact ⟨rfl, rfl, rfl, fun _ ↦ rfl⟩
    · cases h
  | next =>
    simp only [step] at h
    split at h
    · obtain rfl := Option.some.inj h
      exact ⟨rfl, rfl, rfl, fun _ ↦ rfl⟩
    · obtain rfl := Option.some.inj h
      exact ⟨rfl, rfl, rfl, fun _ ↦ rfl⟩
    · cases h

theorem stores_durable (κ : Type) : stores κ ⊆ durable κ := by
  intro p hp
  cases p with
  | subAfp | call => exact hp
  | mainAfp | mainOrg | mainDst | groupAfp | groupOrg | groupDst | subDst => trivial

def system (C : Cluster κ) : System (step C) (Place κ) FileName Text where
  stores := stores κ
  held := State.held
  refills := refills C
  quiet _ _ _ h hr := (quiet_step h hr).mono (stores_durable κ)
  refill s e t a b h hr := by
    obtain ⟨⟨rfl, rfl⟩ | ⟨g, rfl, rfl⟩, hrefill⟩ := refill_step h hr
    · exact ⟨trivial, trivial, hrefill⟩
    · exact ⟨trivial, trivial, hrefill⟩

end FingerMove.Service.Exchange
