import Mathlib.Logic.Function.Basic
import FingerMove.Service.Host

namespace FingerMove.Service

open CText Directory ProDeal Function

/-- The message of a fingerprint; nothing ties its `len` to its `val`. -/
structure FingerValue where
  name : Text
  val : Text
  len : ℤ

namespace FingerValue

def file (req : FingerValue) : FileName := .ofC req.name

/-- The `len` bytes at `val().data()`; there are no more than `val` has. -/
def data (req : FingerValue) : Option Text :=
  if 0 ≤ req.len ∧ req.len ≤ req.val.length then some (req.val.take req.len.toNat) else none

end FingerValue

def storeFinger (opened : Bool) (req : FingerValue) (dst : Folder) : Option (Status × Folder) := do
  if !(← dst.fopenW opened req.file) then return (.cancelled, dst)
  let data ← req.data
  return (.ok, dst.write req.file data)

def GMServer.afpmove := storeFinger

def ScServer.addafps := storeFinger

/-- `ScServer::Delafps`, on the sub cache's AFP_DIR, for a name that a directory can list. -/
def ScServer.delafps (name : Text) (afp : Folder) : Option (Status × Folder) := do
  let f := FileName.ofC name
  guard (afp.fits f)
  if f ∈ afp.files then return (.ok, { afp with files := afp.files.erase f })
  return (.cancelled, afp)

inductive Delivery
  | lost
  | noReply
  | answered
  deriving DecidableEq

/-- An RPC as its caller sees it, and the state it leaves at the server. -/
def Delivery.call {τ : Type*} (d : Delivery) (handler : τ → Option (Status × τ)) (s : τ) :
    Option (Status × τ) :=
  match d with
  | .lost => some (.unavailable, s)
  | .noReply => (handler s).map fun r ↦ (.unavailable, r.2)
  | .answered => handler s

/-- The copies that the main cache keeps in step: its own DST_DIR and that of
the sub cache at each address. -/
structure Replicas where
  main : Folder
  sub : Text → Folder

/-- What an iteration of the loop of `McServer::Afpmove` meets: how its RPC
ends, and whether the sub cache and the main cache can open the file. -/
structure Turn where
  add : Delivery
  stored : Bool
  opened : Bool

def Turn.good : Turn := ⟨.answered, true, true⟩

namespace McServer

def appAdd (t : Turn) (request : FingerValue) (addr : Text) (s : Replicas) :
    Option (Status × Replicas) := do
  let (status, d) ← t.add.call (ScServer.addafps t.stored request) (s.sub addr)
  return (status, { s with sub := update s.sub addr d })

def writeMain (t : Turn) (req : FingerValue) (s : Replicas) : Option (Status × Replicas) := do
  let (status, d) ← storeFinger t.opened req s.main
  return (status, { s with main := d })

def afpmoveLoop (req request : FingerValue) (turns : ℕ → Turn) :
    ℕ → List Text → Replicas → Option (Status × Replicas)
  | _, [], s => some (.ok, s)
  | i, addr :: subs, s => do
    let (status, s) ← appAdd (turns i) request addr s
    if status ≠ .ok then return (.cancelled, s)
    -- DST_DIR is written in every iteration, and only there
    let (status, s) ← writeMain (turns i) req s
    if status ≠ .ok then return (.cancelled, s)
    afpmoveLoop req request turns (i + 1) subs s

def afpmove (g_sublist : List Text) (turns : ℕ → Turn) (req : FingerValue) (s : Replicas) :
    Option (Status × Replicas) := do
  let data ← req.data
  afpmoveLoop req { req with val := data } turns 0 g_sublist s

end McServer

theorem data_of_len {req : FingerValue} (h : req.len = req.val.length) :
    req.data = some req.val := by
  rw [FingerValue.data, if_pos (by omega), h, Int.toNat_natCast, List.take_length]

theorem storeFinger_cases {opened : Bool} {req : FingerValue} {data : Text} {dst d : Folder}
    {st : Status} (hdata : req.data = some data) (h : storeFinger opened req dst = some (st, d)) :
    (opened = false ∧ st = .cancelled ∧ d = dst) ∨
      (opened = true ∧ st = .ok ∧ d = dst.write req.file data) := by
  obtain ⟨_, hopen, h⟩ := Option.bind_eq_some_iff.mp h
  rw [fopenW_eq_some hopen] at h
  split at h
  · next hclosed =>
    obtain ⟨rfl, rfl⟩ := Prod.mk.inj (Option.some.inj h)
    exact .inl ⟨by simpa using hclosed, rfl, rfl⟩
  · next hopened =>
    rw [hdata] at h
    obtain ⟨rfl, rfl⟩ := Prod.mk.inj (Option.some.inj h)
    exact .inr ⟨by simpa using hopened, rfl, rfl⟩

theorem storeFinger_opened {req : FingerValue} {data : Text} {dst d : Folder} {st : Status}
    (hdata : req.data = some data) (h : storeFinger true req dst = some (st, d)) :
    st = .ok ∧ d = dst.write req.file data := by
  obtain ⟨hopen, -⟩ | ⟨-, h⟩ := storeFinger_cases hdata h
  · cases hopen
  · exact h

theorem lookup_delafps {name : Text} {afp d : Folder} {st : Status}
    (h : ScServer.delafps name afp = some (st, d)) (g : FileName) :
    d.files.lookup g = if g = FileName.ofC name then none else afp.files.lookup g := by
  simp only [ScServer.delafps, Option.bind_eq_bind, Option.bind_eq_some_iff] at h
  obtain ⟨_, _, h⟩ := h
  split at h
  · obtain ⟨rfl, rfl⟩ := Prod.mk.inj (Option.some.inj h)
    split
    · next hg => rw [hg, AList.lookup_erase]
    · next hg => rw [AList.lookup_erase_ne hg]
  · next hmem =>
    obtain ⟨rfl, rfl⟩ := Prod.mk.inj (Option.some.inj h)
    split
    · next hg => rw [hg, AList.lookup_eq_none.mpr hmem]
    · rfl

theorem call_cases {τ : Type*} {d : Delivery} {handler : τ → Option (Status × τ)} {s s' : τ}
    {st : Status} (h : d.call handler s = some (st, s')) :
    (st = .unavailable ∧ s' = s) ∨ ∃ st', handler s = some (st', s') ∧ (st = .ok → st' = .ok) := by
  cases d with
  | lost =>
    obtain ⟨rfl, rfl⟩ := Prod.mk.inj (Option.some.inj h)
    exact .inl ⟨rfl, rfl⟩
  | noReply =>
    obtain ⟨⟨st', t⟩, ht, he⟩ := Option.map_eq_some_iff.mp h
    obtain ⟨rfl, rfl⟩ := Prod.mk.inj he
    exact .inr ⟨st', ht, by simp⟩
  | answered => exact .inr ⟨st, h, id⟩

end FingerMove.Service
