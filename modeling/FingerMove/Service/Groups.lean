import FingerMove.Service.Autoconf
import FingerMove.Service.Windows

namespace FingerMove.Service.Rounds

open CText Directory ProDeal Function

structure Asked where
  contacts : List (Text × Option Text)
  state : RunLoop.State
  lineCount : ℤ

def hostOnly (addr : Text) : Text :=
  addr.takeWhile (· = ':') ++ (addr.dropWhile (· = ':')).takeWhile (· ≠ ':')

variable (g_sublist : List Text) (turns : ℕ → Visit)

/-- An iteration; `turns` says what it meets, but the address is from the buffer. -/
def ask (conf_addr : Text) (move_addr : Option Text) (r : Asked) :
    Option (Option Text × Asked) := do
  let v := turns r.contacts.length
  let some _ := v.result |
    return (move_addr, { r with contacts := r.contacts ++ [(cstr conf_addr, none)] })
  let move_addr ← move_addr
  let (state, lineCount) ← visit g_sublist (r.state, r.lineCount) { v with addr := cstr move_addr }
  -- `afpMove` cuts the address for its log, at every file that it could open
  let cut := v.listed && state.host.org.files.keys.any fun f ↦ (v.parcels f).opened
  return (some (if cut then hostOnly move_addr else move_addr),
    ⟨r.contacts ++ [(cstr conf_addr, some (cstr move_addr))], state, lineCount⟩)

/-- `while (-1 != fscanf(fp, "%s%s", conf_addr, move_addr))` over the group list. -/
def askGroups (held : Option Text) (list : Text) (r : Asked) : Option (Option Text × Asked) :=
  forPairs MAX_LINE_LEN (ask g_sublist turns) list.length held list r

def askPair (r : Asked) (p : Text × Text) : Option Asked := do
  let v := turns r.contacts.length
  let (state, lineCount) ← visit g_sublist (r.state, r.lineCount) { v with addr := cstr p.2 }
  return ⟨r.contacts ++ [(cstr p.1, v.result.map fun _ ↦ cstr p.2)], state, lineCount⟩

section Groups

variable {g_sublist turns} {list : Text} {r r' : Asked}

theorem ask_some (p : Text × Text) (r : Asked) :
    (ask g_sublist turns p.1 (some p.2) r).map Prod.snd = askPair g_sublist turns r p := by
  unfold ask askPair
  generalize turns r.contacts.length = v
  obtain ⟨addr, result, mov, listed, parcels⟩ := v
  cases result with
  | none =>
    simp only [visit_failed]
    rfl
  | some n =>
    simp only [Option.bind_eq_bind, Option.bind_some]
    cases visit g_sublist (r.state, r.lineCount) ⟨cstr p.2, some n, mov, listed, parcels⟩ <;> rfl

theorem ask_counts (x : Text) (y : Option Text) (r : Asked) (v : Option Text) (r' : Asked)
    (h : ask g_sublist turns x y r = some (v, r')) :
    r'.contacts.length = r.contacts.length + 1 := by
  unfold ask at h
  cases hresult : (turns r.contacts.length).result with
  | none =>
    simp only [hresult] at h
    obtain ⟨-, rfl⟩ := Prod.mk.inj (Option.some.inj h)
    exact List.length_append
  | some n =>
    simp only [hresult] at h
    obtain ⟨_, -, h⟩ := Option.bind_eq_some_iff.mp h
    obtain ⟨_, -, h⟩ := Option.bind_eq_some_iff.mp h
    obtain ⟨-, rfl⟩ := Prod.mk.inj (Option.some.inj h)
    exact List.length_append

/-- The groups asked, against the pairs they were read from. -/
def Contacted (l : List (Text × Text)) (contacts : List (Text × Option Text)) : Prop :=
  List.Forall₂ (fun p c ↦ c.1 = cstr p.1 ∧ ∀ addr ∈ c.2, addr = cstr p.2) l contacts

theorem askPairs_contacts {l : List (Text × Text)}
    (h : l.foldlM (askPair g_sublist turns) r = some r') :
    ∃ contacts, r'.contacts = r.contacts ++ contacts ∧ Contacted l contacts := by
  induction l generalizing r with
  | nil =>
    obtain rfl := Option.some.inj h
    exact ⟨[], (List.append_nil _).symm, .nil⟩
  | cons p l ih =>
    obtain ⟨q, hq, h⟩ := Option.bind_eq_some_iff.mp h
    obtain ⟨_, -, hq⟩ := Option.bind_eq_some_iff.mp hq
    obtain rfl := Option.some.inj hq
    obtain ⟨contacts, hcontacts, hl⟩ := ih h
    refine ⟨_, hcontacts.trans (List.append_assoc _ _ _), .cons ⟨rfl, ?_⟩ hl⟩
    intro addr haddr
    obtain ⟨_, -, rfl⟩ := Option.map_eq_some_iff.mp haddr
    rfl

def noAnswer : Visit := ⟨[], none, allOpen, false, fun _ ↦ ⟨true, .lost, true, fun _ ↦ .lost⟩⟩

theorem askPairs_noAnswer (l : List (Text × Text)) (r : Asked) :
    ∃ r', l.foldlM (askPair g_sublist fun _ ↦ noAnswer) r = some r' := by
  induction l generalizing r with
  | nil => exact ⟨r, rfl⟩
  | cons p l ih =>
    obtain ⟨r', hr'⟩ := ih { r with contacts := r.contacts ++ [(cstr p.1, none)] }
    exact ⟨r', hr'⟩

theorem askGroups_iff (held : Option Text) (s : RunLoop.State)
    (hshort : ∀ x ∈ tokens list, x.length < MAX_LINE_LEN) :
    (∀ turns, (askGroups g_sublist turns held list ⟨[], s, 0⟩).map Prod.snd =
        (pairs (tokens list)).foldlM (askPair g_sublist turns) ⟨[], s, 0⟩ ∧
      ∀ held' r, askGroups g_sublist turns held list ⟨[], s, 0⟩ = some (held', r) →
        Contacted (pairs (tokens list)) r.contacts) ↔
    Even (tokens list).length := by
  constructor
  · intro hserved
    obtain ⟨hsame, -⟩ := hserved fun _ ↦ noAnswer
    obtain ⟨r, hr⟩ := @askPairs_noAnswer g_sublist (pairs (tokens list)) ⟨[], s, 0⟩
    obtain ⟨contacts, hcontacts, hl⟩ := askPairs_contacts hr
    rw [hr] at hsame
    obtain ⟨⟨held', r'⟩, hloop, hr'⟩ := Option.map_eq_some_iff.mp hsame
    obtain rfl : r' = r := hr'
    have hcount : r'.contacts.length = 0 + ((tokens list).length + 1) / 2 :=
      forPairs_count ask_counts hshort le_rfl hloop
    rw [hcontacts, List.nil_append, ← hl.length_eq, length_pairs] at hcount
    rw [Nat.even_iff]
    omega
  · intro heven turns
    have hloop : (askGroups g_sublist turns held list ⟨[], s, 0⟩).map Prod.snd = _ :=
      forPairs_even hshort heven le_rfl
    simp only [ask_some] at hloop
    refine ⟨hloop, ?_⟩
    intro held' r hr
    rw [hr] at hloop
    obtain ⟨contacts, hcontacts, hl⟩ := askPairs_contacts hloop.symm
    rwa [hcontacts]

/-- The loops act on the pairs of their file, in order and on nothing else,
exactly when the file has an even number of tokens. -/
theorem pairs_read_iff {conf : Text} (value : Option Text) (c : Config) (move_addr : Option Text)
    (s : RunLoop.State) (hconf : ∀ x ∈ tokens conf, x.length < Inspect.MAX_NAME_LEN)
    (hlist : ∀ x ∈ tokens list, x.length < MAX_LINE_LEN) :
    ((∃ value' c', Inspect.load value conf c =
          some (value', (pairs (tokens conf)).map fun p ↦ (p.1, some p.2), c') ∧
        ∀ tag, c'.field tag = (lastValue tag (pairs (tokens conf))).getD (c.field tag)) ↔
      Even (tokens conf).length) ∧
    ((∀ turns, (askGroups g_sublist turns move_addr list ⟨[], s, 0⟩).map Prod.snd =
          (pairs (tokens list)).foldlM (askPair g_sublist turns) ⟨[], s, 0⟩ ∧
        ∀ move_addr' r,
          askGroups g_sublist turns move_addr list ⟨[], s, 0⟩ = some (move_addr', r) →
            Contacted (pairs (tokens list)) r.contacts) ↔
      Even (tokens list).length) :=
  ⟨Inspect.load_iff value c hconf, askGroups_iff move_addr s hlist⟩

def evenConf : Text := "GROUP_LIMIT 5\nCACHE_LIMIT 20\n".toList

def evenList : Text := "c1:50051 m1:50052\n".toList

theorem pairs_read_iff_even : ∃ value c, Inspect.load none evenConf {} = some (value,
    [("GROUP_LIMIT".toList, some "5".toList), ("CACHE_LIMIT".toList, some "20".toList)], c) := by
  obtain ⟨hload, -⟩ := @pairs_read_iff [] evenList evenConf none {} none listedHost
    (by decide) (by decide)
  obtain ⟨value, c, h, -⟩ := hload.mpr (by decide)
  exact ⟨value, c, h⟩

def oddConf : Text := "GROUP_LIMIT 5\nCACHE_LIMIT\n".toList

def oddList : Text := "c1:50051 m1:50052\nc2:50051\n".toList

def answering : Visit :=
  ⟨[], some 1, allOpen, true, fun _ ↦ ⟨true, .answered, true, fun _ ↦ .answered⟩⟩

/-- A last token on its own acts with the value of the pair before it, which in
the group list is an address without its port. -/
theorem token_left_over :
    (Inspect.startInspect (some oddConf) {}).map Config.CACHE_LIMIT = some 5 ∧
    pairs (tokens oddConf) = [("GROUP_LIMIT".toList, "5".toList)] ∧
    (askGroups [] (fun _ ↦ answering) none oddList ⟨[], listedHost, 0⟩).map (·.2.contacts) =
      some [("c1:50051".toList, some "m1:50052".toList), ("c2:50051".toList, some "m1".toList)] ∧
    pairs (tokens oddList) = [("c1:50051".toList, "m1:50052".toList)] := by
  decide +kernel

end Groups

end FingerMove.Service.Rounds
