import FingerMove.Library.Scanf
import FingerMove.Service.Rounds

namespace FingerMove.Service

open CText Directory ProDeal Function

inductive Tag
  | SERVER_ADDR
  | CLIENT_ADDR
  | AFP_DIR
  | DAT_DIR
  | WRK_DIR
  | ORG_DIR
  | DST_DIR
  | LOG_DIR
  | SER_MOVE_ADDR
  | SER_CONF_ADDR
  | SER_SYNC_ADDR
  | CLT_MOVE_ADDR
  | CLT_CONF_ADDR
  | CLT_SYNC_ADDR
  | GROUP_LIMIT
  | CACHE_LIMIT
  | GROUP_LIST
  | SUB_LIST
  deriving DecidableEq

structure Config where
  SERVER_ADDR : Text := "0.0.0.0:50059".toList
  CLIENT_ADDR : Text := "localhost:50059".toList
  AFP_DIR : Text := []
  DAT_DIR : Text := []
  WRK_DIR : Text := []
  ORG_DIR : Text := []
  DST_DIR : Text := []
  LOG_DIR : Text := []
  SER_MOVE_ADDR : Text := []
  SER_CONF_ADDR : Text := []
  SER_SYNC_ADDR : Text := []
  CLT_MOVE_ADDR : Text := []
  CLT_CONF_ADDR : Text := []
  CLT_SYNC_ADDR : Text := []
  GROUP_LIMIT : ℕ := 100
  CACHE_LIMIT : ℕ := 1800
  GROUP_LIST : Text := "group_list".toList
  SUB_LIST : Text := "sub_list".toList

namespace Config

def m_ref : List (Text × Tag) :=
  [("SERVER_ADDR".toList, .SERVER_ADDR), ("CLIENT_ADDR".toList, .CLIENT_ADDR),
    ("AFP_DIR".toList, .AFP_DIR), ("DAT_DIR".toList, .DAT_DIR), ("WRK_DIR".toList, .WRK_DIR),
    ("ORG_DIR".toList, .ORG_DIR), ("DST_DIR".toList, .DST_DIR), ("LOG_DIR".toList, .LOG_DIR),
    ("SER_MOVE_ADDR".toList, .SER_MOVE_ADDR), ("SER_CONF_ADDR".toList, .SER_CONF_ADDR),
    ("SER_SYNC_ADDR".toList, .SER_SYNC_ADDR), ("CLT_MOVE_ADDR".toList, .CLT_MOVE_ADDR),
    ("CLT_CONF_ADDR".toList, .CLT_CONF_ADDR), ("CLT_SYNC_ADDR".toList, .CLT_SYNC_ADDR),
    ("GROUP_LIMIT".toList, .GROUP_LIMIT), ("CACHE_LIMIT".toList, .CACHE_LIMIT),
    ("GROUP_LIST".toList, .GROUP_LIST), ("SUB_LIST".toList, .SUB_LIST)]

def limit (val : Text) : ℕ := (atoi (cstr val) % 2 ^ 32).toNat

def assign (c : Config) (val : Text) : Tag → Config
  | .SERVER_ADDR => { c with SERVER_ADDR := cstr val }
  | .CLIENT_ADDR => { c with CLIENT_ADDR := cstr val }
  | .AFP_DIR => { c with AFP_DIR := cstr val }
  | .DAT_DIR => { c with DAT_DIR := cstr val }
  | .WRK_DIR => { c with WRK_DIR := cstr val }
  | .ORG_DIR => { c with ORG_DIR := cstr val }
  | .DST_DIR => { c with DST_DIR := cstr val }
  | .LOG_DIR => { c with LOG_DIR := cstr val }
  | .SER_MOVE_ADDR => { c with SER_MOVE_ADDR := cstr val }
  | .SER_CONF_ADDR => { c with SER_CONF_ADDR := cstr val }
  | .SER_SYNC_ADDR => { c with SER_SYNC_ADDR := cstr val }
  | .CLT_MOVE_ADDR => { c with CLT_MOVE_ADDR := cstr val }
  | .CLT_CONF_ADDR => { c with CLT_CONF_ADDR := cstr val }
  | .CLT_SYNC_ADDR => { c with CLT_SYNC_ADDR := cstr val }
  | .GROUP_LIMIT => { c with GROUP_LIMIT := limit val }
  | .CACHE_LIMIT => { c with CACHE_LIMIT := limit val }
  | .GROUP_LIST => { c with GROUP_LIST := cstr val }
  | .SUB_LIST => { c with SUB_LIST := cstr val }

def field (c : Config) : Tag → Text ⊕ ℕ
  | .SERVER_ADDR => .inl c.SERVER_ADDR
  | .CLIENT_ADDR => .inl c.CLIENT_ADDR
  | .AFP_DIR => .inl c.AFP_DIR
  | .DAT_DIR => .inl c.DAT_DIR
  | .WRK_DIR => .inl c.WRK_DIR
  | .ORG_DIR => .inl c.ORG_DIR
  | .DST_DIR => .inl c.DST_DIR
  | .LOG_DIR => .inl c.LOG_DIR
  | .SER_MOVE_ADDR => .inl c.SER_MOVE_ADDR
  | .SER_CONF_ADDR => .inl c.SER_CONF_ADDR
  | .SER_SYNC_ADDR => .inl c.SER_SYNC_ADDR
  | .CLT_MOVE_ADDR => .inl c.CLT_MOVE_ADDR
  | .CLT_CONF_ADDR => .inl c.CLT_CONF_ADDR
  | .CLT_SYNC_ADDR => .inl c.CLT_SYNC_ADDR
  | .GROUP_LIMIT => .inr c.GROUP_LIMIT
  | .CACHE_LIMIT => .inr c.CACHE_LIMIT
  | .GROUP_LIST => .inl c.GROUP_LIST
  | .SUB_LIST => .inl c.SUB_LIST

end Config

def Tag.value (tag : Tag) (val : Text) : Text ⊕ ℕ :=
  if tag = .GROUP_LIMIT ∨ tag = .CACHE_LIMIT then .inr (Config.limit val) else .inl (cstr val)

@[simp] theorem Config.field_assign (c : Config) (val : Text) (tag t : Tag) :
    (c.assign val tag).field t = if t = tag then tag.value val else c.field t := by
  cases tag <;> cases t <;> rfl

namespace Inspect

def MAX_NAME_LEN : ℕ := 256

/-- Undefined where a value is asked for that nothing has been read into. -/
def dispath (name : Text) (val : Option Text) (c : Config) : Option Config :=
  match Config.m_ref.lookup (cstr name) with
  | none => some c
  | some tag => do return c.assign (← val) tag

/-- The calls of `dispath`, and the configuration they lead to. -/
abbrev Load := List (Text × Option Text) × Config

def dispathPair (name : Text) (value : Option Text) (l : Load) : Option (Option Text × Load) := do
  return (value, l.1 ++ [(name, value)], ← dispath name value l.2)

/-- `while (-1 != fscanf(fp, "%s%s", name, value))` over the file. -/
def load (held : Option Text) (file : Text) (c : Config) : Option (Option Text × Load) :=
  forPairs MAX_NAME_LEN dispathPair file.length held file ([], c)

def startInspect (file : Option Text) (c : Config) : Option Config := do
  let some file := file | return c
  let (_, _, c) ← load none file c
  return c

/-- A round of `routing_fn`; the buffers are those of the round before. -/
def inspect (file : Option Text) (s : Option Text × Config) : Option (Option Text × Config) := do
  let some file := file | return s
  let (held, _, c) ← load s.1 file s.2
  return (held, c)

def routing_fn (files : List (Option Text)) (c : Config) : Option (Option Text × Config) :=
  files.foldlM (fun s file ↦ inspect file s) (none, c)

end Inspect

def lastValue (tag : Tag) (l : List (Text × Text)) : Option (Text ⊕ ℕ) :=
  (l.filter fun p ↦ Config.m_ref.lookup (cstr p.1) = some tag).getLast?.map fun p ↦ tag.value p.2

section Load

variable {file : Text}

theorem lastValue_cons (tag : Tag) (p : Text × Text) (l : List (Text × Text)) :
    lastValue tag (p :: l) = (lastValue tag l).or
      (if Config.m_ref.lookup (cstr p.1) = some tag then some (tag.value p.2) else none) := by
  unfold lastValue
  by_cases hkey : Config.m_ref.lookup (cstr p.1) = some tag
  · rw [List.filter_cons_of_pos (by simpa using hkey), if_pos hkey, List.getLast?_cons]
    cases (l.filter fun p ↦ Config.m_ref.lookup (cstr p.1) = some tag).getLast? <;> rfl
  · rw [List.filter_cons_of_neg (by simpa using hkey), if_neg hkey, Option.or_none]

theorem Inspect.dispath_some (name val : Text) (c : Config) :
    ∃ c', dispath name (some val) c = some c' ∧ ∀ tag, c'.field tag =
      if Config.m_ref.lookup (cstr name) = some tag then tag.value val else c.field tag := by
  unfold dispath
  cases hkey : Config.m_ref.lookup (cstr name) with
  | none => exact ⟨c, rfl, fun tag ↦ by simp⟩
  | some t =>
    refine ⟨c.assign val t, rfl, ?_⟩
    intro tag
    rw [Config.field_assign]
    rcases eq_or_ne tag t with rfl | hne
    · simp
    · simp [hne, Ne.symm hne]

theorem Inspect.dispathPairs (l : List (Text × Text)) (calls : List (Text × Option Text))
    (c : Config) : ∃ c', l.foldlM
        (fun s p ↦ (dispathPair p.1 (some p.2) s).map Prod.snd) (calls, c) =
          some (calls ++ l.map fun p ↦ (p.1, some p.2), c') ∧
      ∀ tag, c'.field tag = (lastValue tag l).getD (c.field tag) := by
  induction l generalizing calls c with
  | nil => exact ⟨c, by simp, fun tag ↦ rfl⟩
  | cons p l ih =>
    obtain ⟨d, hd, hfield⟩ := dispath_some p.1 p.2 c
    obtain ⟨c', hl, hlast⟩ := ih (calls ++ [(p.1, some p.2)]) d
    refine ⟨c', ?_, ?_⟩
    · have hstep : dispathPair p.1 (some p.2) (calls, c) =
          some (some p.2, calls ++ [(p.1, some p.2)], d) := by
        rw [dispathPair, hd]
        rfl
      rw [List.map_cons, List.append_cons, List.foldlM_cons, hstep]
      exact hl
    · intro tag
      rw [hlast, hfield, lastValue_cons]
      cases lastValue tag l with
      | some v => rfl
      | none =>
        rw [Option.none_or]
        split <;> rfl

theorem Inspect.load_iff (held : Option Text) (c : Config)
    (hshort : ∀ x ∈ tokens file, x.length < MAX_NAME_LEN) :
    (∃ held' c', load held file c =
        some (held', (pairs (tokens file)).map fun p ↦ (p.1, some p.2), c') ∧
      ∀ tag, c'.field tag = (lastValue tag (pairs (tokens file))).getD (c.field tag)) ↔
    Even (tokens file).length := by
  constructor
  · intro hpairs
    obtain ⟨held', c', hload, -⟩ := hpairs
    have hcall : ∀ x y (s : Load) v s', dispathPair x y s = some (v, s') →
        s'.1.length = s.1.length + 1 := by
      intro x y s v s' h
      obtain ⟨d, -, h⟩ := Option.bind_eq_some_iff.mp h
      obtain ⟨-, rfl⟩ := Prod.mk.inj (Option.some.inj h)
      exact List.length_append
    have hcount := forPairs_count hcall hshort le_rfl hload
    simp only [List.length_map, length_pairs, List.length_nil] at hcount
    rw [Nat.even_iff]
    omega
  · intro heven
    have hloop : (forPairs MAX_NAME_LEN dispathPair file.length held file ([], c)).map Prod.snd =
        _ := forPairs_even hshort heven le_rfl
    obtain ⟨c', hc', hfield⟩ := dispathPairs (pairs (tokens file)) [] c
    rw [hc'] at hloop
    obtain ⟨⟨held', s⟩, hs, rfl⟩ := Option.map_eq_some_iff.mp hloop
    exact ⟨held', c', hs, hfield⟩

theorem lastValue_append (tag : Tag) (l m : List (Text × Text)) :
    lastValue tag (l ++ m) = (lastValue tag m).or (lastValue tag l) := by
  unfold lastValue
  rw [List.filter_append, List.getLast?_append, Option.map_or]

/-- Over any number of rounds, where no file has a token left over, each field
ends with the last value that was given for it. -/
theorem Inspect.routing_fn_field {files : List (Option Text)}
    (h : ∀ file ∈ files, ∀ t ∈ file,
      (∀ x ∈ tokens t, x.length < MAX_NAME_LEN) ∧ Even (tokens t).length) (c : Config) :
    ∃ held c', routing_fn files c = some (held, c') ∧ ∀ tag, c'.field tag =
      (lastValue tag (files.flatMap fun file ↦ pairs (tokens (file.getD [])))).getD
        (c.field tag) := by
  unfold routing_fn
  generalize (none : Option Text) = held
  induction files generalizing held c with
  | nil => exact ⟨held, c, rfl, fun tag ↦ rfl⟩
  | cons file files ih =>
    obtain ⟨hfile, hfiles⟩ := List.forall_mem_cons.mp h
    obtain ⟨held', d, hround, hd⟩ : ∃ held' d, inspect file (held, c) = some (held', d) ∧
        ∀ tag, d.field tag = (lastValue tag (pairs (tokens (file.getD [])))).getD
          (c.field tag) := by
      cases file with
      | none => exact ⟨held, c, rfl, fun tag ↦ rfl⟩
      | some t =>
        obtain ⟨hshort, heven⟩ := hfile t rfl
        obtain ⟨held', d, hload, hd⟩ := (load_iff held c hshort).mpr heven
        refine ⟨held', d, ?_, hd⟩
        simp only [inspect, hload]
        rfl
    obtain ⟨held'', c', hrest, hc'⟩ := ih hfiles d held'
    refine ⟨held'', c', ?_, ?_⟩
    · rw [List.foldlM_cons, hround]
      exact hrest
    · intro tag
      rw [hc', hd, List.flatMap_cons, lastValue_append]
      cases lastValue tag (files.flatMap fun file ↦ pairs (tokens (file.getD []))) <;> rfl

theorem Inspect.routing_fn_field_twoFiles : ∃ held c',
    routing_fn [some "AFP_DIR a GROUP_LIMIT 5\n".toList, none, some "AFP_DIR b\n".toList] {} =
      some (held, c') ∧ c'.AFP_DIR = "b".toList ∧ c'.GROUP_LIMIT = 5 := by
  obtain ⟨held, c', hrun, hfield⟩ := @Inspect.routing_fn_field
    [some "AFP_DIR a GROUP_LIMIT 5\n".toList, none, some "AFP_DIR b\n".toList] (by decide) {}
  exact ⟨held, c', hrun, Sum.inl.inj ((hfield .AFP_DIR).trans rfl),
    Sum.inr.inj ((hfield .GROUP_LIMIT).trans rfl)⟩

end Load

end FingerMove.Service
