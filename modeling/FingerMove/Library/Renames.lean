import FingerMove.Library.FileTree
import Mathlib.Data.Finset.Card
import Mathlib.Data.Fintype.Card

namespace FingerMove.FileTree

open Directory Function

variable {δ ν τ σ : Type} [DecidableEq ν]

/-- The entries that `f` keeps, as it turns them. -/
def filterMap (f : τ → Option σ) (d : Dir ν τ) : Dir ν σ where
  entries := d.entries.filterMap fun x ↦ (f x.2).map fun y ↦ ⟨x.1, y⟩
  nodupKeys := by
    refine List.Nodup.sublist ?_ d.nodupKeys
    induction d.entries with
    | nil => exact .slnil
    | cons x l ih =>
      cases hf : f x.2 with
      | none => simpa [List.keys, hf] using ih.cons x.1
      | some y => simpa [List.keys, hf] using ih.cons_cons x.1

theorem lookup_filterMap (f : τ → Option σ) (d : Dir ν τ) (n : ν) :
    (filterMap f d).lookup n = (d.lookup n).bind f := by
  obtain ⟨l, hl⟩ := d
  rw [AList.lookup, AList.lookup, filterMap]
  dsimp only
  induction l with
  | nil => rfl
  | cons x l ih =>
    obtain ⟨hx, hl⟩ := List.nodupKeys_cons.mp hl
    rcases eq_or_ne n x.1 with rfl | hn
    · rw [List.dlookup_cons_eq]
      cases hf : f x.2 with
      | none =>
        rw [List.filterMap_cons_none (by rw [hf]; rfl), ih hl, List.dlookup_eq_none.mpr hx]
        exact hf.symm
      | some y =>
        rw [List.filterMap_cons_some (by rw [hf]; rfl), List.dlookup_cons_eq]
        exact hf.symm
    · rw [List.dlookup_cons_ne _ _ hn, ← ih hl]
      cases hf : f x.2 with
      | none => rw [List.filterMap_cons_none (by rw [hf]; rfl)]
      | some y =>
        rw [List.filterMap_cons_some (by rw [hf]; rfl)]
        exact List.dlookup_cons_ne _ (⟨x.1, y⟩ : Sigma fun _ : ν ↦ σ) hn

def Node.text : Node δ τ → Option τ
  | .file x => some x
  | .dir _ => none

/-- A path as a call gets it: where it starts, its components, and whether it ends with a slash. -/
structure Path (δ ν : Type) where
  start : δ
  comps : List (Component ν)
  slash : Bool

namespace Tree

def folder (t : Tree δ ν τ) (d : δ) : Dir ν τ := filterMap Node.text (t.entries d)

theorem lookup_folder (t : Tree δ ν τ) (d : δ) (n : ν) :
    (t.folder d).lookup n = t.fileAt (d, n) := by
  rw [folder, lookup_filterMap, fileAt, node]
  cases (t.entries d).lookup n with
  | none => rfl
  | some x => cases x <;> rfl

theorem mem_folder (t : Tree δ ν τ) (d : δ) (n : ν) :
    n ∈ t.folder d ↔ (t.fileAt (d, n)).isSome := by
  rw [← lookup_folder, AList.lookup_isSome]

def names (t : Tree δ ν τ) (o : δ) : Finset ν := (t.folder o).keys.toFinset

theorem mem_names {t : Tree δ ν τ} {o : δ} {n : ν} :
    n ∈ t.names o ↔ (t.fileAt (o, n)).isSome := by
  rw [names, List.mem_toFinset, ← AList.mem_keys, mem_folder]

theorem card_names (t : Tree δ ν τ) (o : δ) :
    (t.names o).card = (t.folder o).keys.length :=
  List.toFinset_card_of_nodup (AList.keys_nodup _)

theorem names_congr {t t' : Tree δ ν τ} {o : δ} (h : ∀ r, t'.fileAt r = t.fileAt r) :
    t'.names o = t.names o := by
  ext n
  rw [mem_names, mem_names, h]

def lead (t : Tree δ ν τ) (a : Path δ ν) : Option (δ × ν) := t.entry a.start a.comps

section Steps

variable [DecidableEq δ]

/-- What `remove` leaves of a directory when it is called for each of its entries. -/
def clear (t : Tree δ ν τ) (d : δ) : Tree δ ν τ :=
  { t with entries := update t.entries d (filterMap (fun
      | .dir e => if (t.entries e).keys = [] then none else some (.dir e)
      | .file _ => none) (t.entries d)) }

def setFiles (t : Tree δ ν τ) (d : δ) (F : Dir ν τ) : Tree δ ν τ :=
  { t with entries := update t.entries d (filterMap (fun
      | .dir e => some (.dir e)
      | .file _ => none) (t.entries d) ∪ filterMap (fun x ↦ some (.file x)) F) }

def graft (t : Tree δ ν τ) (p q : δ × ν) (e : δ) : Tree δ ν τ where
  parent := update t.parent e q.1
  entries := update (t.erase p).entries q.1 (((t.erase p).entries q.1).insert q.2 (.dir e))

variable [Fintype δ]

def below (t : Tree δ ν τ) (e x : δ) : Bool :=
  (List.range (Fintype.card δ)).any fun k ↦ t.parent^[k] x = e

/-- `rename(old, new)`; one that fails changes nothing. A file replaces a file, a directory
an empty one, and no directory goes below itself. -/
def rename (t : Tree δ ν τ) (old new : Path δ ν) : Tree δ ν τ :=
  match t.lead old, t.lead new with
  | some p, some q =>
    if p = q then t
    else match t.node p, t.node q with
      | some (.file _), some (.dir _) => t
      | some (.file x), _ => if old.slash || new.slash then t else (t.erase p).write q x
      | some (.dir _), some (.file _) => t
      | some (.dir e), some (.dir f) =>
        if t.below e q.1 || (t.entries f).keys ≠ [] then t else t.graft p q e
      | some (.dir e), none => if t.below e q.1 then t else t.graft p q e
      | none, _ => t
  | _, _ => t

def renameAll (t : Tree δ ν τ) (ms : List (Path δ ν × Path δ ν)) : Tree δ ν τ :=
  ms.foldl (fun t m ↦ t.rename m.1 m.2) t

variable {t : Tree δ ν τ} {old new : Path δ ν}

omit [Fintype δ] in
theorem node_clear (t : Tree δ ν τ) (d : δ) (p : δ × ν) : (t.clear d).node p =
    if p.1 = d then (t.node p).bind fun
      | .dir e => if (t.entries e).keys = [] then none else some (.dir e)
      | .file _ => none
    else t.node p := by
  obtain ⟨e, n⟩ := p
  rcases eq_or_ne e d with rfl | he
  · simp only [node, clear, update_self, lookup_filterMap, if_true]
  · simp only [node, clear, update_of_ne he, he, if_false]

omit [Fintype δ] in
theorem fileAt_clear (t : Tree δ ν τ) (d : δ) (p : δ × ν) : (t.clear d).fileAt p =
    if p.1 = d then none else t.fileAt p := by
  rw [fileAt, node_clear]
  split_ifs with hp
  · cases t.node p with
    | none => rfl
    | some x =>
      cases x with
      | dir e =>
        rw [Option.bind_some]
        dsimp only
        split_ifs <;> rfl
      | file x => rfl
  · rfl

omit [Fintype δ] in
theorem node_setFiles (t : Tree δ ν τ) (d : δ) (F : Dir ν τ) (p : δ × ν) :
    (t.setFiles d F).node p =
      if p.1 = d then
        match t.node p with
        | some (.dir e) => some (.dir e)
        | _ => (F.lookup p.2).map .file
      else t.node p := by
  obtain ⟨e, n⟩ := p
  rcases eq_or_ne e d with rfl | he
  · have hfile : (filterMap (fun x ↦ some (Node.file (δ := δ) x)) F).lookup n =
        (F.lookup n).map .file := by
      rw [lookup_filterMap, Option.map_eq_bind]
      rfl
    simp only [node, setFiles, update_self, if_true]
    cases hnode : (t.entries e).lookup n with
    | none =>
      rw [AList.lookup_union_right, hfile]
      rw [← AList.lookup_isSome, lookup_filterMap, hnode]
      simp
    | some x =>
      cases x with
      | dir f =>
        rw [AList.lookup_union_left, lookup_filterMap, hnode]
        · rfl
        · rw [← AList.lookup_isSome, lookup_filterMap, hnode]
          rfl
      | file x =>
        rw [AList.lookup_union_right, hfile]
        rw [← AList.lookup_isSome, lookup_filterMap, hnode]
        simp
  · simp only [node, setFiles, update_of_ne he, he, if_false]

omit [Fintype δ] in
theorem fileAt_setFiles {d : δ} {n : ν} (h : ∀ e, t.node (d, n) ≠ some (.dir e)) (F : Dir ν τ) :
    (t.setFiles d F).fileAt (d, n) = F.lookup n := by
  have hnode : (t.setFiles d F).node (d, n) = (F.lookup n).map .file := by
    rw [node_setFiles, if_pos rfl]
    split
    · next e he => exact absurd he (h e)
    · rfl
  rw [fileAt, hnode]
  cases F.lookup n <;> rfl

omit [Fintype δ] in
theorem fileAt_setFiles_of_ne {d : δ} {p : δ × ν} (h : p.1 ≠ d) (F : Dir ν τ) :
    (t.setFiles d F).fileAt p = t.fileAt p := by
  rw [fileAt, node_setFiles, if_neg h, fileAt]

omit [Fintype δ] in
theorem node_graft (t : Tree δ ν τ) (p q r : δ × ν) (e : δ) :
    (t.graft p q e).node r = if r = q then some (.dir e) else if r = p then none else t.node r := by
  rw [← node_erase]
  obtain ⟨a, x⟩ := q
  obtain ⟨b, y⟩ := r
  rcases eq_or_ne b a with rfl | hb
  · rcases eq_or_ne y x with rfl | hy
    · simp [node, graft]
    · simp [node, graft, hy]
  · simp [node, graft, hb]

/-- `rename` moves the file `x` from the entry `p` to the entry `q`. -/
structure Moves (t : Tree δ ν τ) (m : Path δ ν × Path δ ν) (p q : δ × ν) (x : τ) : Prop where
  source : t.lead m.1 = some p
  target : t.lead m.2 = some q
  ne : p ≠ q
  file : t.node p = some (.file x)
  free : ∀ e, t.node q ≠ some (.dir e)
  slashes : m.1.slash = false ∧ m.2.slash = false

structure MovesDir (t : Tree δ ν τ) (m : Path δ ν × Path δ ν) (p q : δ × ν) (e : δ) : Prop where
  source : t.lead m.1 = some p
  target : t.lead m.2 = some q
  ne : p ≠ q
  dir : t.node p = some (.dir e)
  free : ∀ x, t.node q ≠ some (.file x)
  empty : ∀ f, t.node q = some (.dir f) → (t.entries f).keys = []
  outside : t.below e q.1 = false

theorem rename_cases (t : Tree δ ν τ) (m : Path δ ν × Path δ ν) :
    t.rename m.1 m.2 = t ∨ (∃ p q x, t.Moves m p q x) ∨
      ∃ p q e, t.MovesDir m p q e ∧ t.rename m.1 m.2 = t.graft p q e := by
  unfold rename
  split
  · next p q hp hq =>
    split
    · exact .inl rfl
    · next hne =>
      split
      · exact .inl rfl
      · next x hx hdir =>
        split
        · exact .inl rfl
        · next hslash =>
          rw [Bool.or_eq_true, not_or, Bool.not_eq_true, Bool.not_eq_true] at hslash
          exact .inr (.inl ⟨p, q, x, hp, hq, hne, hx, fun e he ↦ hdir _ he, hslash⟩)
      · exact .inl rfl
      · next e f he hf =>
        split
        · exact .inl rfl
        · next hmay =>
          simp only [Bool.or_eq_true, decide_eq_true_eq, not_or, not_not, Bool.not_eq_true] at hmay
          refine .inr (.inr ⟨p, q, e, ⟨hp, hq, hne, he, by simp [hf], ?_, hmay.1⟩, rfl⟩)
          intro f' hf'
          obtain rfl := Node.dir.inj (Option.some.inj (hf.symm.trans hf'))
          exact hmay.2
      · next e he hq' =>
        split
        · exact .inl rfl
        · next hmay =>
          rw [Bool.not_eq_true] at hmay
          exact .inr (.inr ⟨p, q, e, ⟨hp, hq, hne, he, by simp [hq'], by simp [hq'], hmay⟩, rfl⟩)
      · exact .inl rfl
  · exact .inl rfl

theorem Moves.rename_eq {m : Path δ ν × Path δ ν} {p q : δ × ν} {x : τ} (h : t.Moves m p q x) :
    t.rename m.1 m.2 = (t.erase p).write q x := by
  obtain ⟨hp, hq, hne, hx, hfree, hold, hnew⟩ := h
  cases hnode : t.node q with
  | none => simp [rename, hp, hq, hne, hx, hnode, hold, hnew]
  | some n =>
    cases n with
    | dir e => exact absurd hnode (hfree e)
    | file y => simp [rename, hp, hq, hne, hx, hnode, hold, hnew]

theorem MovesDir.fileAt {m : Path δ ν × Path δ ν} {p q : δ × ν} {e : δ}
    (h : t.MovesDir m p q e) (r : δ × ν) : (t.graft p q e).fileAt r = t.fileAt r := by
  have hnone : t.fileAt q = none := Option.eq_none_iff_forall_ne_some.mpr fun x hx ↦
    h.free x (fileAt_eq_some_iff.mp hx)
  rw [Tree.fileAt, node_graft]
  split_ifs with hrq hrp
  · rw [hrq, hnone]
  · rw [hrp, Tree.fileAt, h.dir]
  · rfl

theorem rename_files (t : Tree δ ν τ) (m : Path δ ν × Path δ ν) :
    (∃ p q x, t.Moves m p q x) ∨ ∀ r, (t.rename m.1 m.2).fileAt r = t.fileAt r := by
  rcases rename_cases t m with hsame | hmoves | ⟨p, q, e, hdir, hgraft⟩
  · exact .inr fun r ↦ by rw [hsame]
  · exact .inl hmoves
  · exact .inr fun r ↦ hgraft ▸ hdir.fileAt r

section Files

variable {m : Path δ ν × Path δ ν} {p q : δ × ν} {x : τ} {o : δ}

theorem Moves.fileAt (h : t.Moves m p q x) (r : δ × ν) : (t.rename m.1 m.2).fileAt r =
    if r = q then some x else if r = p then none else t.fileAt r := by
  rw [h.rename_eq, fileAt_write, fileAt_erase]

theorem Moves.dir (h : t.Moves m p q x) (r : δ × ν) (e : δ) :
    (t.rename m.1 m.2).node r = some (.dir e) ↔ t.node r = some (.dir e) := by
  rw [h.rename_eq, node_write, node_erase]
  split_ifs with hq hp
  · refine iff_of_false ?_ (hq ▸ h.free e)
    simp
  · rw [hp, h.file]
    simp
  · rfl

theorem Moves.walk (h : t.Moves m p q x) (d : δ) (cs : List (Component ν)) :
    (t.rename m.1 m.2).walk d cs = t.walk d cs := by
  refine walk_congr ?_ h.dir
  rw [h.rename_eq]
  rfl

theorem Moves.lead (h : t.Moves m p q x) (a : Path δ ν) :
    (t.rename m.1 m.2).lead a = t.lead a := by
  rw [Tree.lead, Tree.lead, entry, entry]
  split
  · rw [h.walk]
  · rfl

theorem Moves.names_subset (h : t.Moves m p q x) :
    (t.rename m.1 m.2).names o ⊆ insert q.2 (t.names o) := by
  intro n hn
  rw [mem_names, h.fileAt] at hn
  rw [Finset.mem_insert, mem_names]
  split_ifs at hn with hq hp
  · exact .inl (Prod.mk.inj hq).2
  · cases hn
  · exact .inr hn

theorem card_rename_le (t : Tree δ ν τ) (m : Path δ ν × Path δ ν) (o : δ) :
    ((t.rename m.1 m.2).names o).card ≤ (t.names o).card + 1 := by
  rcases rename_files t m with ⟨p, q, x, h⟩ | hsame
  · exact (Finset.card_le_card h.names_subset).trans (Finset.card_insert_le _ _)
  · rw [names_congr hsame]
    exact Nat.le_succ _

theorem card_renameAll_le (t : Tree δ ν τ) (ms : List (Path δ ν × Path δ ν)) (o : δ) :
    ((t.renameAll ms).names o).card ≤ (t.names o).card + ms.length := by
  induction ms generalizing t with
  | nil => exact le_rfl
  | cons m ms ih =>
    have hstep := card_rename_le t m o
    have hrest := ih (t.rename m.1 m.2)
    rw [List.length_cons]
    change ((renameAll (t.rename m.1 m.2) ms).names o).card ≤ _
    omega

theorem moves_of_card (h : ((t.rename m.1 m.2).names o).card = (t.names o).card + 1) :
    ∃ p n x, t.Moves m p (o, n) x ∧ p.1 ≠ o ∧ n ∉ t.names o := by
  rcases rename_files t m with ⟨p, ⟨d, n⟩, x, hm⟩ | hsame
  · have hnew : n ∉ t.names o := by
      intro hn
      have hle := Finset.card_le_card (hm.names_subset (o := o))
      rw [Finset.insert_eq_of_mem hn] at hle
      omega
    have hsub : (t.rename m.1 m.2).names o = insert n (t.names o) := by
      refine Finset.eq_of_subset_of_card_le hm.names_subset ?_
      rw [Finset.card_insert_of_notMem hnew, h]
    have hin : n ∈ (t.rename m.1 m.2).names o := hsub ▸ Finset.mem_insert_self _ _
    have hd : d = o := by
      rw [mem_names, hm.fileAt] at hin
      rw [mem_names] at hnew
      split_ifs at hin with heq hp
      · exact (Prod.mk.inj heq).1.symm
      · cases hin
      · exact absurd hin hnew
    subst hd
    refine ⟨p, n, x, hm, ?_, hnew⟩
    rintro rfl
    have hgone : p.2 ∈ (t.rename m.1 m.2).names p.1 := by
      rw [hsub, Finset.mem_insert, mem_names]
      exact .inr (Option.isSome_iff_exists.mpr ⟨x, fileAt_eq_some_iff.mpr hm.file⟩)
    rw [mem_names, hm.fileAt, if_neg hm.ne, if_pos rfl] at hgone
    cases hgone
  · rw [names_congr hsame] at h
    omega

structure Brings (t : Tree δ ν τ) (o : δ) (m : Path δ ν × Path δ ν) (p : δ × ν) : Prop where
  source : t.lead m.1 = some p
  target : t.lead m.2 = some (o, p.2)
  outside : p.1 ≠ o
  file : (t.fileAt p).isSome
  free : ∀ e, t.node (o, p.2) ≠ some (.dir e)
  slashes : m.1.slash = false ∧ m.2.slash = false

omit [DecidableEq δ] [Fintype δ] in
theorem Brings.moves (h : t.Brings o m p) : ∃ x, t.Moves m p (o, p.2) x := by
  obtain ⟨x, hx⟩ := Option.isSome_iff_exists.mp h.file
  exact ⟨x, h.source, h.target, fun he ↦ h.outside (by rw [he]), fileAt_eq_some_iff.mp hx,
    h.free, h.slashes⟩

def lastName (m : Path δ ν × Path δ ν) : Option (Component ν) := m.2.comps.getLast?

def SameName (m : Path δ ν × Path δ ν) : Prop := m.1.comps.getLast? = lastName m

omit [DecidableEq δ] [Fintype δ] in
theorem last_of_lead {a : Path δ ν} (h : t.lead a = some p) :
    a.comps.getLast? = some (.name p.2) := by
  rw [lead, entry] at h
  split at h
  · next n hn =>
    obtain ⟨e, -, rfl⟩ := Option.map_eq_some_iff.mp h
    exact hn
  · cases h

omit [DecidableEq δ] [Fintype δ] in
theorem Moves.brings {n : ν} (h : t.Moves m p (o, n) x) (hm : SameName m) (hp : p.1 ≠ o) :
    t.Brings o m p := by
  have hlast := last_of_lead h.source
  rw [hm, lastName, last_of_lead h.target] at hlast
  obtain rfl : n = p.2 := Component.name.inj (Option.some.inj hlast)
  exact ⟨h.source, h.target, hp, by rw [fileAt_eq_some_iff.mpr h.file]; rfl, h.free, h.slashes⟩

theorem Brings.other_iff {m' : Path δ ν × Path δ ν} {p' : δ × ν} (h : t.Brings o m p)
    (hp : p'.2 ≠ p.2) : (t.rename m.1 m.2).Brings o m' p' ↔ t.Brings o m' p' := by
  obtain ⟨x, hx⟩ := h.moves
  have hfile : (t.rename m.1 m.2).fileAt p' = t.fileAt p' := by
    rw [hx.fileAt, if_neg, if_neg]
    · rintro rfl
      exact hp rfl
    · rintro rfl
      exact hp rfl
  constructor
  · intro h'
    obtain ⟨hs, ht, ho, hf, hd, hslash⟩ := h'
    rw [hx.lead] at hs ht
    exact ⟨hs, ht, ho, hfile ▸ hf, fun e he ↦ hd e ((hx.dir _ e).mpr he), hslash⟩
  · intro h'
    obtain ⟨hs, ht, ho, hf, hd, hslash⟩ := h'
    rw [← hx.lead] at hs ht
    exact ⟨hs, ht, ho, hfile.symm ▸ hf, fun e he ↦ hd e ((hx.dir _ e).mp he), hslash⟩

/-- The moves bring one file each, to names that differ. -/
def BringsAll (t : Tree δ ν τ) (o : δ) (ms : List (Path δ ν × Path δ ν)) : Prop :=
  (∀ m ∈ ms, ∃ p, t.Brings o m p) ∧ (ms.map lastName).Nodup

omit [DecidableEq δ] [Fintype δ] in
theorem Brings.lastName_eq (h : t.Brings o m p) : lastName m = some (.name p.2) := by
  rw [lastName, last_of_lead h.target]

omit [DecidableEq δ] [Fintype δ] in
theorem Brings.unique (h : t.Brings o m p) {p' : δ × ν} (h' : t.Brings o m p') : p' = p :=
  Option.some.inj (h'.source.symm.trans h.source)

omit [DecidableEq δ] [Fintype δ] in
theorem Brings.name_ne {t' : Tree δ ν τ} {m' : Path δ ν × Path δ ν} {p' : δ × ν}
    {ms : List (Path δ ν × Path δ ν)} (h : t.Brings o m p) (h' : t'.Brings o m' p')
    (hm : lastName m ∉ ms.map lastName) (hm' : m' ∈ ms) : p'.2 ≠ p.2 := by
  intro heq
  apply hm
  rw [h.lastName_eq, ← heq, ← h'.lastName_eq]
  exact List.mem_map_of_mem hm'

theorem bringsAll_cons_iff {ms : List (Path δ ν × Path δ ν)} : t.BringsAll o (m :: ms) ↔
    ∃ p, t.Brings o m p ∧ lastName m ∉ ms.map lastName ∧ (t.rename m.1 m.2).BringsAll o ms := by
  constructor
  · intro h
    obtain ⟨hall, hnodup⟩ := h
    obtain ⟨⟨p, hp⟩, hall⟩ := List.forall_mem_cons.mp hall
    obtain ⟨hm, hnodup⟩ := List.nodup_cons.mp hnodup
    refine ⟨p, hp, hm, ?_, hnodup⟩
    intro m' hm'
    obtain ⟨p', hp'⟩ := hall m' hm'
    exact ⟨p', (hp.other_iff (hp.name_ne hp' hm hm')).mpr hp'⟩
  · intro h
    obtain ⟨p, hp, hm, hall, hnodup⟩ := h
    refine ⟨List.forall_mem_cons.mpr ⟨⟨p, hp⟩, ?_⟩, List.nodup_cons.mpr ⟨hm, hnodup⟩⟩
    intro m' hm'
    obtain ⟨p', hp'⟩ := hall m' hm'
    exact ⟨p', (hp.other_iff (hp.name_ne hp' hm hm')).mp hp'⟩

theorem Brings.fileAt (h : t.Brings o m p) (r : δ × ν) : (t.rename m.1 m.2).fileAt r =
    if r = (o, p.2) then t.fileAt p else if r = p then none else t.fileAt r := by
  obtain ⟨x, hx⟩ := h.moves
  rw [hx.fileAt, fileAt_eq_some_iff.mpr hx.file]

theorem walk_renameAll {ms : List (Path δ ν × Path δ ν)} (h : t.BringsAll o ms) (d : δ)
    (cs : List (Component ν)) : (t.renameAll ms).walk d cs = t.walk d cs := by
  induction ms generalizing t with
  | nil => rfl
  | cons m ms ih =>
    obtain ⟨p, hp, -, hall⟩ := bringsAll_cons_iff.mp h
    obtain ⟨x, hx⟩ := hp.moves
    exact (ih hall).trans (hx.walk d cs)

theorem fileAt_renameAll_of_ne {ms : List (Path δ ν × Path δ ν)} (h : t.BringsAll o ms)
    {r : δ × ν} (hr : ∀ m ∈ ms, ∀ p, t.Brings o m p → r ≠ p ∧ r ≠ (o, p.2)) :
    (t.renameAll ms).fileAt r = t.fileAt r := by
  induction ms generalizing t with
  | nil => rfl
  | cons m ms ih =>
    obtain ⟨p, hp, hm, hall⟩ := bringsAll_cons_iff.mp h
    obtain ⟨hrp, hrms⟩ := List.forall_mem_cons.mp hr
    obtain ⟨hsource, htarget⟩ := hrp p hp
    have hrest : ∀ m' ∈ ms, ∀ p', (t.rename m.1 m.2).Brings o m' p' →
        r ≠ p' ∧ r ≠ (o, p'.2) := by
      intro m' hm' p' hp'
      exact hrms m' hm' p' ((hp.other_iff (hp.name_ne hp' hm hm')).mp hp')
    have hstep : (t.rename m.1 m.2).fileAt r = t.fileAt r := by
      rw [hp.fileAt, if_neg htarget, if_neg hsource]
    exact (ih hall hrest).trans hstep

theorem fileAt_renameAll {ms : List (Path δ ν × Path δ ν)} (h : t.BringsAll o ms) (hm : m ∈ ms)
    (hp : t.Brings o m p) :
    (t.renameAll ms).fileAt (o, p.2) = t.fileAt p ∧ (t.renameAll ms).fileAt p = none := by
  induction ms generalizing t with
  | nil => cases hm
  | cons m₀ ms ih =>
    obtain ⟨p₀, hp₀, hm₀, hall⟩ := bringsAll_cons_iff.mp h
    rcases List.mem_cons.mp hm with rfl | hms
    · obtain rfl := hp.unique hp₀
      have hrest : ∀ r : δ × ν, r = p₀ ∨ r = (o, p₀.2) → ∀ m' ∈ ms, ∀ p',
          (t.rename m.1 m.2).Brings o m' p' → r ≠ p' ∧ r ≠ (o, p'.2) := by
        intro r hr m' hm' p' hp'
        have hne := hp₀.name_ne hp' hm₀ hm'
        rcases hr with rfl | rfl
        · exact ⟨fun he ↦ hne (by rw [he]), fun he ↦ hne (by rw [he])⟩
        · exact ⟨fun he ↦ hne (by rw [← he]), fun he ↦ hne (Prod.mk.inj he).2.symm⟩
      constructor
      · have hlast := fileAt_renameAll_of_ne hall (hrest _ (.inr rfl))
        rw [hp₀.fileAt, if_pos rfl] at hlast
        exact hlast
      · have hlast := fileAt_renameAll_of_ne hall (hrest _ (.inl rfl))
        rw [hp₀.fileAt, if_neg, if_pos rfl] at hlast
        · exact hlast
        · exact fun he ↦ hp₀.outside (by rw [he])
    · have hne := hp₀.name_ne hp hm₀ hms
      have hkept : (t.rename m₀.1 m₀.2).fileAt p = t.fileAt p := by
        rw [hp₀.fileAt, if_neg, if_neg]
        · exact fun he ↦ hne (by rw [he])
        · exact fun he ↦ hne (by rw [he])
      rw [← hkept]
      exact ih hall hms ((hp₀.other_iff hne).mpr hp)

theorem Brings.names (h : t.Brings o m p) :
    (t.rename m.1 m.2).names o = insert p.2 (t.names o) := by
  ext n
  rw [mem_names, h.fileAt, Finset.mem_insert, mem_names]
  split_ifs with hn hp
  · exact iff_of_true h.file (.inl (Prod.mk.inj hn).2)
  · exact absurd (congrArg Prod.fst hp).symm h.outside
  · exact (or_iff_right fun he ↦ hn (by rw [he])).symm

theorem card_renameAll {ms : List (Path δ ν × Path δ ν)} (h : t.BringsAll o ms)
    (hfree : ∀ m ∈ ms, ∀ n ∈ t.names o, lastName m ≠ some (.name n)) :
    ((t.renameAll ms).names o).card = (t.names o).card + ms.length := by
  induction ms generalizing t with
  | nil => rfl
  | cons m ms ih =>
    obtain ⟨p, hp, hm, hall⟩ := bringsAll_cons_iff.mp h
    obtain ⟨hmfree, hmsfree⟩ := List.forall_mem_cons.mp hfree
    have hnew : p.2 ∉ t.names o := fun hn ↦ hmfree _ hn hp.lastName_eq
    have hrest : ∀ m' ∈ ms, ∀ n ∈ (t.rename m.1 m.2).names o,
        lastName m' ≠ some (.name n) := by
      intro m' hm' n hn
      rw [hp.names, Finset.mem_insert] at hn
      rcases hn with rfl | hn
      · intro he
        apply hm
        rw [hp.lastName_eq, ← he]
        exact List.mem_map_of_mem hm'
      · exact hmsfree m' hm' n hn
    have hcard := ih hall hrest
    rw [hp.names, Finset.card_insert_of_notMem hnew] at hcard
    rw [List.length_cons]
    change ((renameAll (t.rename m.1 m.2) ms).names o).card = _
    omega

theorem bringsAll_of_card {ms : List (Path δ ν × Path δ ν)} (hsame : ∀ m ∈ ms, SameName m)
    (h : ((t.renameAll ms).names o).card = (t.names o).card + ms.length) : t.BringsAll o ms ∧
      ∀ m ∈ ms, ∀ n ∈ t.names o, lastName m ≠ some (.name n) := by
  induction ms generalizing t with
  | nil => exact ⟨⟨by simp, List.nodup_nil⟩, by simp⟩
  | cons m ms ih =>
    obtain ⟨hm, hms⟩ := List.forall_mem_cons.mp hsame
    have hstep := card_rename_le t m o
    have hrest := card_renameAll_le (t.rename m.1 m.2) ms o
    rw [List.length_cons] at h
    change ((renameAll (t.rename m.1 m.2) ms).names o).card = _ at h
    obtain ⟨p, n, x, hmoves, hout, hnew⟩ := moves_of_card (t := t) (m := m) (o := o) (by omega)
    have hp := hmoves.brings hm hout
    have hn : n = p.2 := by
      have htarget := hp.target
      rw [hmoves.target] at htarget
      exact (Prod.mk.inj (Option.some.inj htarget)).2
    obtain ⟨hall, hfree⟩ := ih (t := t.rename m.1 m.2) hms (by omega)
    have hdiffers : lastName m ∉ ms.map lastName := by
      intro hmem
      obtain ⟨m', hm', he⟩ := List.mem_map.mp hmem
      refine hfree m' hm' p.2 ?_ (he.trans hp.lastName_eq)
      rw [hp.names]
      exact Finset.mem_insert_self _ _
    refine ⟨bringsAll_cons_iff.mpr ⟨p, hp, hdiffers, hall⟩, ?_⟩
    intro m' hm' k hk he
    rcases List.mem_cons.mp hm' with rfl | hm'
    · rw [hp.lastName_eq] at he
      obtain rfl := Component.name.inj (Option.some.inj he)
      exact hnew (hn ▸ hk)
    · refine hfree m' hm' k ?_ he
      rw [hp.names]
      exact Finset.mem_insert_of_mem hk

/-- An empty directory gets a file from `a` by each of the moves exactly when every one of
them leads from a file of `a` to the same name in the directory, and no two to one name. -/
theorem renameAll_fills_iff {ms : List (Path δ ν × Path δ ν)} (a : δ)
    (hsame : ∀ m ∈ ms, SameName m) (hempty : t.names o = ∅) :
    (((t.renameAll ms).names o).card = ms.length ∧
      ∀ n x, (t.renameAll ms).fileAt (o, n) = some x →
        t.fileAt (a, n) = some x ∧ (t.renameAll ms).fileAt (a, n) = none) ↔
    (∀ m ∈ ms, ∃ n, t.Brings o m (a, n)) ∧ (ms.map lastName).Nodup := by
  have hnone : ∀ n, t.fileAt (o, n) = none := by
    intro n
    have hn : n ∉ t.names o := by simp [hempty]
    rwa [mem_names, Bool.not_eq_true, Option.isSome_eq_false_iff, Option.isNone_iff_eq_none] at hn
  constructor
  · intro h
    obtain ⟨hcard, htaken⟩ := h
    obtain ⟨hall, -⟩ := bringsAll_of_card (t := t) (o := o) hsame (by simp [hcard, hempty])
    refine ⟨?_, hall.2⟩
    intro m hm
    obtain ⟨p, hp⟩ := hall.1 m hm
    obtain ⟨x, hx⟩ := Option.isSome_iff_exists.mp hp.file
    obtain ⟨hfrom, hgone⟩ := htaken p.2 x ((fileAt_renameAll hall hm hp).1.trans hx)
    refine ⟨p.2, ?_⟩
    by_contra hother
    -- the file of that name in `a` would be gone without being moved
    have hstays := fileAt_renameAll_of_ne hall (r := (a, p.2)) fun m' hm' p' hp' ↦ ?_
    · rw [hgone, hfrom] at hstays
      cases hstays
    · constructor
      · rintro rfl
        have hmm : m' = m := List.inj_on_of_nodup_map hall.2 hm' hm
          (hp'.lastName_eq.trans hp.lastName_eq.symm)
        subst hmm
        exact hother hp'
      · intro he
        rw [he, hnone] at hfrom
        cases hfrom
  · intro h
    obtain ⟨hbrings, hnodup⟩ := h
    have hall : t.BringsAll o ms := ⟨fun m hm ↦ (hbrings m hm).imp' _ fun _ h ↦ h, hnodup⟩
    have hcard := card_renameAll hall (by simp [hempty])
    refine ⟨by simpa [hempty] using hcard, ?_⟩
    intro n x hx
    by_contra hother
    have hstays := fileAt_renameAll_of_ne hall (r := (o, n)) fun m hm p hp ↦ ?_
    · rw [hx, hnone] at hstays
      cases hstays
    · refine ⟨fun he ↦ hp.outside (by rw [← he]), fun he ↦ ?_⟩
      obtain rfl := (Prod.mk.inj he).2
      obtain ⟨k, hk⟩ := hbrings m hm
      obtain rfl := hk.unique hp
      obtain ⟨hto, hfrom⟩ := fileAt_renameAll hall hm hk
      exact hother ⟨hto.symm.trans hx, hfrom⟩

end Files

section Walks

variable {p q : δ × ν} {e d o : δ} {cs : List (Component ν)}

def Follows (t : Tree δ ν τ) (P : δ → Component ν → Prop) : δ → List (Component ν) → Prop
  | _, [] => True
  | d, c :: cs => P d c ∧ ∀ e, t.enter d c = some e → t.Follows P e cs

omit [Fintype δ] [DecidableEq δ] in
theorem walk_of_follows {t' : Tree δ ν τ} {P : δ → Component ν → Prop}
    (henter : ∀ d c, P d c → t'.enter d c = t.enter d c) (h : t.Follows P d cs) :
    t'.walk d cs = t.walk d cs := by
  induction cs generalizing d with
  | nil => rfl
  | cons c cs ih =>
    obtain ⟨hc, hcs⟩ := h
    rw [walk, walk, List.foldlM_cons, List.foldlM_cons, henter d c hc]
    cases hnext : t.enter d c with
    | none => rfl
    | some d' => exact ih (hcs d' hnext)

omit [Fintype δ] in
theorem walk_setFiles (t : Tree δ ν τ) (o d : δ) (F : Dir ν τ) (cs : List (Component ν)) :
    (t.setFiles o F).walk d cs = t.walk d cs := by
  refine walk_congr rfl fun p e ↦ ?_
  rw [node_setFiles]
  split_ifs
  · split
    · next f hf => rw [hf]
    · next hfile => exact iff_of_false (by simp) (hfile e)
  · rfl

omit [Fintype δ] in
theorem walk_of_clear {e : δ} (h : (t.clear o).walk d cs = some e) : t.walk d cs = some e := by
  induction cs generalizing d with
  | nil => exact h
  | cons c cs ih =>
    rw [walk, List.foldlM_cons] at h ⊢
    obtain ⟨f, hf, h⟩ := Option.bind_eq_some_iff.mp h
    have hbefore : t.enter d c = some f := by
      cases c with
      | here | up => exact hf
      | name x =>
        simp only [enter, node_clear] at hf ⊢
        split_ifs at hf with hd
        · cases hnode : t.node (d, x) with
          | none =>
            rw [hnode] at hf
            cases hf
          | some n =>
            rw [hnode, Option.bind_some] at hf
            cases n with
            | file y => cases hf
            | dir g =>
              dsimp only at hf
              split_ifs at hf
              exact hf
        · exact hf
    exact Option.bind_eq_some_iff.mpr ⟨f, hbefore, ih h⟩

/-- The walk goes neither by one of the two entries nor up from the directory. -/
def Avoids (p q : δ × ν) (e d : δ) : Component ν → Prop
  | .here => True
  | .up => d ≠ e
  | .name x => (d, x) ≠ p ∧ (d, x) ≠ q

omit [Fintype δ] in
theorem walk_graft (h : t.Follows (Avoids p q e) d cs) :
    (t.graft p q e).walk d cs = t.walk d cs := by
  refine walk_of_follows (fun d c hc ↦ ?_) h
  cases c with
  | here => rfl
  | up => simp only [enter, graft, update_of_ne hc]
  | name x =>
    have hnode : (t.graft p q e).node (d, x) = t.node (d, x) := by
      rw [node_graft, if_neg hc.2, if_neg hc.1]
    simp only [enter, hnode]

/-- The walk goes by no empty directory that `o` lists. -/
def AvoidsEmpty (t : Tree δ ν τ) (o d : δ) : Component ν → Prop
  | .name x => d = o → ∀ e, t.node (o, x) = some (.dir e) → (t.entries e).keys ≠ []
  | _ => True

omit [Fintype δ] in
theorem walk_clear (h : t.Follows (t.AvoidsEmpty o) d cs) :
    (t.clear o).walk d cs = t.walk d cs := by
  refine walk_of_follows (fun d c hc ↦ ?_) h
  cases c with
  | here | up => rfl
  | name x =>
    simp only [enter, node_clear]
    split_ifs with hd
    · obtain rfl : d = o := hd
      cases hnode : t.node (d, x) with
      | none => rfl
      | some n =>
        cases n with
        | file y => rfl
        | dir e =>
          rw [Option.bind_some]
          dsimp only
          rw [if_neg (hc rfl e hnode)]
    · rfl

end Walks

end Steps

end Tree

end FingerMove.FileTree
