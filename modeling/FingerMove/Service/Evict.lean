import FingerMove.Service.Clients

namespace FingerMove.Service.Evict

open CText Directory ProDeal Function

/-- The two ends of `McMoveClient::afpMove`, and the files whose `Afpmove` has
returned OK to it. -/
structure Progress where
  group : GroupServer
  sub : Text → Folder
  acks : List FileName

variable (g_sublist : List Text) (parcels : FileName → Parcel) (org : Folder)

def moveFile (x : Parcel) (f : FileName) (p : Progress) : Option Progress := do
  let some req ← readFinger x.opened org f | return p
  let (status, group) ← x.send.call (GroupServer.afpmove x.stored req) p.group
  let sub ← McMoveClient.appDels x.dels f.text 0 g_sublist p.sub
  return ⟨group, sub, if status = .ok then f :: p.acks else p.acks⟩

def moveFiles (fs : List FileName) (p : Progress) : Option Progress :=
  fs.foldlM (fun p f ↦ moveFile g_sublist org (parcels f) f p) p

def afpMove (listed : Bool) (p : Progress) : Option (ℤ × Progress) := do
  if !listed then return (-1, p)
  let p ← moveFiles g_sublist parcels org org.files.keys p
  return (0, p)

/-- The state inside `afpMove` after `k` files, the RPC for the next one to the
group and `i` of those to the sub caches. -/
def visited (listed : Bool) (k i : ℕ) (p : Progress) : Option Progress := do
  if !listed then return p
  let p ← moveFiles g_sublist parcels org (org.files.keys.take k) p
  match org.files.keys[k]? with
  | none => return p
  | some f => moveFile (g_sublist.take i) org (parcels f) f p

/-- The RPC to the group returns OK: it is answered, and the group can open the
file. -/
def Delivered (x : Parcel) : Prop := x.opened = true ∧ x.send = .answered ∧ x.stored = true

def Drops (subs : List Text) (x : Parcel) (addr : Text) : Prop :=
  x.opened = true ∧ ∃ j, subs[j]? = some addr ∧ x.dels j ≠ .lost

variable {g_sublist parcels org} {subs : List Text} {x : Parcel} {f g : FileName} {p p' : Progress}
variable {addr : Text}

theorem afpMoveFile_eq (x : Parcel) (f : FileName) (p : Progress) :
    McMoveClient.afpMoveFile g_sublist x org f (p.group, p.sub) =
      (moveFile g_sublist org x f p).map fun p ↦ (p.group, p.sub) := by
  unfold McMoveClient.afpMoveFile moveFile
  rcases readFinger x.opened org f with _ | _ | req
  · rfl
  · rfl
  · simp only [Option.map_eq_bind, Option.bind_eq_bind, Option.bind_some, Option.bind_assoc]
    rfl

theorem mem_call_delafps {d : Delivery} {afp afp' : Folder} {st : Status}
    (h : d.call (ScServer.delafps f.text) afp = some (st, afp')) :
    g ∈ afp'.files ↔ g ∈ afp.files ∧ (g = f → d = .lost) := by
  have hrun : ∀ {st afp'}, ScServer.delafps f.text afp = some (st, afp') →
      (g ∈ afp'.files ↔ g ∈ afp.files ∧ g ≠ f) := by
    intro st afp' h
    rw [← AList.lookup_isSome, lookup_delafps h, file_of_text]
    by_cases hg : g = f
    · simp [hg]
    · simp [hg, AList.lookup_isSome]
  cases d with
  | lost =>
    obtain ⟨-, rfl⟩ := Prod.mk.inj (Option.some.inj h)
    simp
  | noReply =>
    obtain ⟨⟨st', d⟩, hd, he⟩ := Option.map_eq_some_iff.mp h
    obtain ⟨-, rfl⟩ := Prod.mk.inj he
    simp [hrun hd]
  | answered => simp [hrun h]

theorem mem_appDels {dels : ℕ → Delivery} {i : ℕ} {sub sub' : Text → Folder}
    (h : McMoveClient.appDels dels f.text i subs sub = some sub') :
    g ∈ (sub' addr).files ↔
      g ∈ (sub addr).files ∧ (g = f → ∀ j, subs[j]? = some addr → dels (i + j) = .lost) := by
  induction subs generalizing i sub with
  | nil =>
    obtain rfl := Option.some.inj h
    simp
  | cons a subs ih =>
    obtain ⟨⟨st, d⟩, hcall, h⟩ := Option.bind_eq_some_iff.mp h
    have hsplit : (∀ j, (a :: subs)[j]? = some addr → dels (i + j) = .lost) ↔
        (a = addr → dels i = .lost) ∧ ∀ j, subs[j]? = some addr → dels (i + 1 + j) = .lost := by
      rw [← Nat.and_forall_add_one]
      simp only [List.getElem?_cons_zero, List.getElem?_cons_succ, Option.some.injEq,
        Nat.add_zero, Nat.add_assoc, Nat.add_comm 1]
    rw [ih h, hsplit]
    by_cases ha : addr = a
    · subst ha
      rw [update_self, mem_call_delafps hcall]
      tauto
    · rw [update_of_ne ha]
      have ha' : a ≠ addr := Ne.symm ha
      tauto

theorem afpmove_status {stored : Bool} {req : FingerValue} {d : Delivery} {grp grp' : GroupServer}
    {st : Status} (h : d.call (GroupServer.afpmove stored req) grp = some (st, grp')) :
    st = .ok ↔ d = .answered ∧ stored = true := by
  cases d with
  | lost =>
    obtain ⟨rfl, -⟩ := Prod.mk.inj (Option.some.inj h)
    simp
  | noReply =>
    obtain ⟨_, -, he⟩ := Option.map_eq_some_iff.mp h
    obtain ⟨rfl, -⟩ := Prod.mk.inj he
    simp
  | answered =>
    obtain ⟨⟨st', dst⟩, hstore, h⟩ := Option.bind_eq_some_iff.mp h
    obtain ⟨rfl, -⟩ := Prod.mk.inj (Option.some.inj h)
    obtain ⟨b, hb, hrun⟩ := Option.bind_eq_some_iff.mp hstore
    rw [fopenW_eq_some hb] at hrun
    cases stored with
    | false =>
      obtain ⟨rfl, -⟩ := Prod.mk.inj (Option.some.inj hrun)
      simp
    | true =>
      obtain ⟨_, -, hdone⟩ := Option.bind_eq_some_iff.mp hrun
      obtain ⟨rfl, -⟩ := Prod.mk.inj (Option.some.inj hdone)
      simp

theorem moveFile_effect (hf : f ∈ org.files) (h : moveFile subs org x f p = some p') :
    (∀ addr g, g ∈ (p'.sub addr).files ↔
      g ∈ (p.sub addr).files ∧ ¬ (g = f ∧ Drops subs x addr)) ∧
    ∀ g, g ∈ p'.acks ↔ g ∈ p.acks ∨ (g = f ∧ Delivered x) := by
  obtain ⟨r, hread, h⟩ := Option.bind_eq_some_iff.mp h
  obtain ⟨opened, hopen, hread⟩ := Option.bind_eq_some_iff.mp hread
  cases opened with
  | none =>
    obtain rfl := Option.some.inj hread
    obtain rfl := Option.some.inj h
    have hclosed : x.opened ≠ true := by
      intro hopened
      exact AList.lookup_eq_none.mp (fopenR_none hopen hopened) hf
    simp [Drops, Delivered, hclosed]
  | some val =>
    obtain ⟨_, -, hread⟩ := Option.bind_eq_some_iff.mp hread
    obtain rfl := Option.some.inj hread
    obtain ⟨⟨st, grp⟩, hsend, h⟩ := Option.bind_eq_some_iff.mp h
    obtain ⟨sub, hdel, h⟩ := Option.bind_eq_some_iff.mp h
    obtain rfl := Option.some.inj h
    have hopened := (fopenR_some hopen).1
    constructor
    · intro addr g
      rw [mem_appDels hdel]
      simp [Drops, hopened]
    · intro g
      by_cases hst : st = .ok
      · simp [Delivered, hopened, (afpmove_status hsend).mp hst, hst, or_comm]
      · simp [Delivered, hopened, ← afpmove_status hsend, hst]

theorem moveFiles_effect {fs : List FileName} (hfs : ∀ f ∈ fs, f ∈ org.files)
    (h : moveFiles subs parcels org fs p = some p') :
    (∀ addr g, g ∈ (p'.sub addr).files ↔
      g ∈ (p.sub addr).files ∧ ¬ (g ∈ fs ∧ Drops subs (parcels g) addr)) ∧
    ∀ g, g ∈ p'.acks ↔ g ∈ p.acks ∨ (g ∈ fs ∧ Delivered (parcels g)) := by
  induction fs generalizing p with
  | nil =>
    obtain rfl := Option.some.inj h
    simp
  | cons f fs ih =>
    obtain ⟨hf, hfs⟩ := List.forall_mem_cons.mp hfs
    obtain ⟨q, hq, h⟩ := Option.bind_eq_some_iff.mp h
    obtain ⟨hsub, hacks⟩ := moveFile_effect hf hq
    obtain ⟨hsub', hacks'⟩ := ih hfs h
    constructor
    · intro addr g
      rw [hsub', hsub]
      by_cases hg : g = f
      · subst hg
        simp
        tauto
      · simp [hg]
    · intro g
      rw [hacks', hacks]
      by_cases hg : g = f
      · subst hg
        simp
        tauto
      · simp [hg]

theorem Drops.of_take {i : ℕ} (h : Drops (subs.take i) x addr) : Drops subs x addr := by
  obtain ⟨hopened, j, hj, hdel⟩ := h
  rw [List.getElem?_take] at hj
  split at hj
  · exact ⟨hopened, j, hj, hdel⟩
  · cases hj

theorem visited_effect {listed : Bool} {k i : ℕ}
    (h : visited g_sublist parcels org listed k i p = some p') :
    (∀ addr g, g ∉ (p'.sub addr).files → g ∈ (p.sub addr).files → listed = true ∧
      g ∈ org.files.keys.take (k + 1) ∧ Drops g_sublist (parcels g) addr) ∧
    ∀ g ∈ org.files.keys.take (k + 1), listed = true → Delivered (parcels g) → g ∈ p'.acks := by
  cases listed with
  | false =>
    obtain rfl := Option.some.inj h
    exact ⟨fun _ _ hout hin ↦ absurd hin hout, fun _ _ hlisted ↦ by cases hlisted⟩
  | true =>
    obtain ⟨q, hq, h⟩ := Option.bind_eq_some_iff.mp h
    obtain ⟨hsub, hacks⟩ := moveFiles_effect (fun f hf ↦ List.mem_of_mem_take hf) hq
    rw [List.take_add_one]
    cases hk : org.files.keys[k]? with
    | none =>
      simp only [hk] at h
      obtain rfl := Option.some.inj h
      simp only [Option.toList_none, List.append_nil, true_and, forall_const]
      constructor
      · intro addr g hout hin
        rw [hsub] at hout
        tauto
      · intro g hg hdelivered
        exact (hacks g).mpr (.inr ⟨hg, hdelivered⟩)
    | some f =>
      simp only [hk] at h
      have hf : f ∈ org.files := AList.mem_keys.mpr (List.mem_of_getElem? hk)
      obtain ⟨hsub', hacks'⟩ := moveFile_effect hf h
      simp only [Option.toList_some, List.mem_append, List.mem_singleton, true_and, forall_const]
      constructor
      · intro addr g hout hin
        rw [hsub', hsub] at hout
        by_cases hg : g = f
        · subst hg
          have hdrops : Drops (g_sublist.take i) (parcels g) addr →
              Drops g_sublist (parcels g) addr := Drops.of_take
          tauto
        · tauto
      · intro g hg hdelivered
        rw [hacks', hacks]
        by_cases hgf : g = f
        · subst hgf
          exact .inr ⟨rfl, hdelivered⟩
        · exact .inl (.inr ⟨hg.resolve_right hgf, hdelivered⟩)

/-- What `afpMove` deletes on the sub caches is at every moment a part of what
the group has acknowledged, exactly when no RPC that deletes a fingerprint the
group did not acknowledge reaches a sub cache that has it. -/
theorem evicts_only_acked_iff {listed : Bool} {group : GroupServer} {sub : Text → Folder}
    {r : ℤ × Progress} (h : afpMove g_sublist parcels org listed ⟨group, sub, []⟩ = some r) :
    (∀ k i p, visited g_sublist parcels org listed k i ⟨group, sub, []⟩ = some p →
      ∀ addr f, f ∈ (sub addr).files → f ∉ (p.sub addr).files → f ∈ p.acks) ↔
    (listed = true → ∀ f ∈ org.files.keys, (parcels f).opened = true →
      ((parcels f).send = .answered ∧ (parcels f).stored = true) ∨
        ∀ i addr, g_sublist[i]? = some addr → f ∈ (sub addr).files →
          (parcels f).dels i = .lost) := by
  constructor
  · rintro hall rfl f hf hopened
    by_contra hcon
    push Not at hcon
    obtain ⟨hfailed, i, addr, hi, hin, hdel⟩ := hcon
    obtain ⟨p, hp, -⟩ := Option.bind_eq_some_iff.mp h
    obtain ⟨hsub, hacks⟩ := moveFiles_effect (fun f hf ↦ AList.mem_keys.mpr hf) hp
    have hlast : visited g_sublist parcels org true org.files.keys.length 0 ⟨group, sub, []⟩ =
        some p := by
      simp [visited, hp]
    have hout : f ∉ (p.sub addr).files := by
      rw [hsub]
      exact fun hcon ↦ hcon.2 ⟨hf, hopened, i, hi, hdel⟩
    obtain hnil | ⟨-, hdelivered⟩ := (hacks f).mp (hall _ _ p hlast addr f hin hout)
    · cases hnil
    · exact hfailed hdelivered.2.1 hdelivered.2.2
  · intro hcond k i p hp addr f hin hout
    obtain ⟨hdeleted, hacked⟩ := visited_effect hp
    obtain ⟨hlisted, hf, hopened, j, hj, hdel⟩ := hdeleted addr f hout hin
    obtain hdelivered | hlost := hcond hlisted f (List.mem_of_mem_take hf) hopened
    · exact hacked f hf hlisted ⟨hopened, hdelivered⟩
    · exact absurd (hlost j addr hj hin) hdel

def outbox : Folder := .ofList "org" [("1.afp", "x")]

def oneCopy : Progress where
  group := ⟨.ofList "dst" [], []⟩
  sub _ := .ofList "afp" [("1.afp", "x")]
  acks := []

def failedSend (_ : FileName) : Parcel := ⟨true, .lost, true, fun _ ↦ .answered⟩

theorem evicts_only_acked_iff_oneSub :
    (∀ k i p, visited ["sub1".toList] failedSend outbox true k i oneCopy = some p →
      ∀ addr f, f ∈ (oneCopy.sub addr).files → f ∉ (p.sub addr).files → f ∈ p.acks) ↔
    (true = true → ∀ f ∈ outbox.files.keys, (failedSend f).opened = true →
      ((failedSend f).send = .answered ∧ (failedSend f).stored = true) ∨
        ∀ i addr, ["sub1".toList][i]? = some addr → f ∈ (oneCopy.sub addr).files →
          (failedSend f).dels i = .lost) :=
  evicts_only_acked_iff (r := (0, _)) rfl

theorem evicts_unacked : ∃ p,
    afpMove ["sub1".toList] failedSend outbox true oneCopy = some (0, p) ∧
      visited ["sub1".toList] failedSend outbox true 1 0 oneCopy = some p ∧
      .ofC "1.afp".toList ∈ (oneCopy.sub "sub1".toList).files ∧
      .ofC "1.afp".toList ∉ (p.sub "sub1".toList).files ∧ p.acks = [] :=
  ⟨_, rfl, rfl, by decide, by decide, rfl⟩

end FingerMove.Service.Evict
