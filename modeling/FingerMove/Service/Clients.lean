import FingerMove.Service.Servers

namespace FingerMove.Service

open CText Directory ProDeal Function

def readFinger (opened : Bool) (org : Folder) (f : FileName) : Option (Option FingerValue) := do
  let some val ← org.fopenR opened f | return none
  guard (val.length < 2 ^ 31)
  return some ⟨f.text, val, val.length⟩

/-- A group server: its DST_DIR and the fingerprints it has answered OK for. -/
structure GroupServer where
  dst : Folder
  acked : List (FileName × Text)

def GroupServer.afpmove (stored : Bool) (req : FingerValue) (g : GroupServer) :
    Option (Status × GroupServer) := do
  let (status, dst) ← GMServer.afpmove stored req g.dst
  return (status, ⟨dst, if status = .ok then (req.file, req.val) :: g.acked else g.acked⟩)

/-- What `McMoveClient::afpMove` meets with one file: whether it can open it,
the RPC to the group, and the RPCs to the sub caches. -/
structure Parcel where
  opened : Bool
  send : Delivery
  stored : Bool
  dels : ℕ → Delivery

/-- What `GrMoveClient::afpMove` meets with one file: whether it can open it, the
RPC to the main cache, and what that one meets. -/
structure Upload where
  opened : Bool
  send : Delivery
  turns : ℕ → Turn

namespace GrMoveClient

def afpMoveFile (g_sublist : List Text) (x : Upload) (org : Folder) (f : FileName)
    (s : Replicas) : Option Replicas := do
  let some req ← readFinger x.opened org f | return s
  let (_, s) ← x.send.call (McServer.afpmove g_sublist x.turns req) s
  return s

def afpMove (g_sublist : List Text) (uploads : FileName → Upload) (org : Folder)
    (listed : Bool) (s : Replicas) : Option (ℤ × Replicas) := do
  if !listed then return (-1, s)
  let s ← org.files.keys.foldlM (fun s f ↦ afpMoveFile g_sublist (uploads f) org f s) s
  return (0, s)

end GrMoveClient

namespace McMoveClient

/-- `appDel` to each sub cache; how it ends is only logged. -/
def appDels (dels : ℕ → Delivery) (name : Text) :
    ℕ → List Text → (Text → Folder) → Option (Text → Folder)
  | _, [], sub => some sub
  | i, addr :: subs, sub => do
    let (_, d) ← (dels i).call (ScServer.delafps name) (sub addr)
    appDels dels name (i + 1) subs (update sub addr d)

def afpMoveFile (g_sublist : List Text) (x : Parcel) (org : Folder) (f : FileName)
    (s : GroupServer × (Text → Folder)) : Option (GroupServer × (Text → Folder)) := do
  let some req ← readFinger x.opened org f | return s
  let (_, g) ← x.send.call (GroupServer.afpmove x.stored req) s.1
  let sub ← appDels x.dels f.text 0 g_sublist s.2
  return (g, sub)

end McMoveClient

theorem readFinger_of_lookup {org : Folder} {f : FileName} {data : Text} (horg : org.fits f = true)
    (hf : org.files.lookup f = some data) (hsize : data.length < 2 ^ 31) :
    readFinger true org f = some (some ⟨f.text, data, data.length⟩) := by
  have hopen : org.fopenR true f = some (some data) := by simp [Folder.fopenR, horg, hf]
  exact Option.bind_eq_some_iff.mpr ⟨some data, hopen,
    Option.bind_eq_some_iff.mpr ⟨(), if_pos hsize, rfl⟩⟩

theorem readFinger_some {opened : Bool} {org : Folder} {f : FileName} {req : FingerValue}
    (h : readFinger opened org f = some (some req)) :
    opened = true ∧ ∃ data, org.files.lookup f = some data ∧ req = ⟨f.text, data, data.length⟩ := by
  obtain ⟨_ | data, hopen, h⟩ := Option.bind_eq_some_iff.mp h
  · cases h
  · obtain ⟨_, -, h⟩ := Option.bind_eq_some_iff.mp h
    obtain ⟨hopened, hdata⟩ := fopenR_some hopen
    exact ⟨hopened, data, hdata, (Option.some.inj (Option.some.inj h)).symm⟩

theorem readFinger_none {opened : Bool} {org : Folder} {f : FileName} (hf : f ∈ org.files)
    (h : readFinger opened org f = some none) : opened = false := by
  obtain ⟨_ | data, hopen, h⟩ := Option.bind_eq_some_iff.mp h
  · rw [← Bool.not_eq_true]
    exact fun hopened ↦ AList.lookup_eq_none.mp (fopenR_none hopen hopened) hf
  · obtain ⟨_, -, h⟩ := Option.bind_eq_some_iff.mp h
    cases h

theorem acked_afpmove {stored : Bool} {req : FingerValue} {g g' : GroupServer} {st : Status}
    (h : g.afpmove stored req = some (st, g')) : g.acked ⊆ g'.acked := by
  simp only [GroupServer.afpmove, Option.bind_eq_bind, Option.bind_eq_some_iff, Option.pure_def,
    Option.some.injEq, Prod.mk.injEq] at h
  obtain ⟨_, _, _, rfl⟩ := h
  change g.acked ⊆ ite _ _ _
  split
  · exact List.subset_cons_self _ _
  · exact List.Subset.refl _

end FingerMove.Service
