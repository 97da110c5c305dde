import FingerMove.Service.McServer

namespace FingerMove.Service

open CText ProDeal

/-- `buf[len-1] = 0`: whatever a read ends with is taken for its newline. -/
def strip (buf : Text) : Option Text := if cstr buf = [] then none else some (cstr buf).dropLast

def readSublist (file : Text) : Option (List Text) := (reads MAX_LINE_LEN file).mapM strip

def sublistFile (entries : List Text) (ended : Bool) : Text :=
  if ended then (entries.map (· ++ ['\n'])).flatten
  else (entries.map (· ++ ['\n'])).flatten.dropLast

structure IsEntry (e : Text) : Prop where
  filled : e ≠ []
  newline : '\n' ∉ e
  nul : '\x00' ∉ e
  short : e.length < 1023

section Entries

variable {e : Text} {entries : List Text}

theorem strip_of_noNul {t : Text} (h : '\x00' ∉ t) (hne : t ≠ []) : strip t = some t.dropLast := by
  rw [strip, cstr_eq_self h, if_neg hne]

theorem IsEntry.strip_line (h : IsEntry e) : strip (e ++ ['\n']) = some e := by
  rw [strip_of_noNul (by simp [h.nul]) (by simp), List.dropLast_concat]

theorem IsEntry.isLine (h : IsEntry e) : IsLine MAX_LINE_LEN (e ++ ['\n']) := by
  have hshort := h.short
  refine ⟨?_, e, h.newline, rfl⟩
  simp only [List.length_append, List.length_singleton, MAX_LINE_LEN]
  omega

theorem reads_entries (h : ∀ e ∈ entries, IsEntry e) :
    reads MAX_LINE_LEN (entries.map (· ++ ['\n'])).flatten = entries.map (· ++ ['\n']) :=
  reads_flatten (List.forall_mem_map.mpr fun e he ↦ (h e he).isLine)

theorem mapM_strip (h : ∀ e ∈ entries, IsEntry e) :
    (entries.map (· ++ ['\n'])).mapM strip = some entries := by
  induction entries with
  | nil => rfl
  | cons e entries ih =>
    obtain ⟨he, hes⟩ := List.forall_mem_cons.mp h
    rw [List.map_cons, List.mapM_cons, he.strip_line, ih hes]
    rfl

theorem complete_entries (entries : List Text) : Complete (entries.map (· ++ ['\n'])).flatten := by
  induction entries with
  | nil => exact complete_nil
  | cons e entries ih =>
    rw [List.map_cons, List.flatten_cons]
    refine Complete.append ?_ ih
    intro c hc
    simpa using hc.symm

theorem readSublist_ended (h : ∀ e ∈ entries, IsEntry e) :
    readSublist (sublistFile entries true) = some entries := by
  rw [readSublist, sublistFile, if_pos rfl, reads_entries h, mapM_strip h]

/-- Without the last newline the last entry loses its last character. -/
theorem readSublist_unended (h : ∀ e ∈ entries, IsEntry e) (he : IsEntry e) :
    readSublist (sublistFile (entries ++ [e]) false) = some (entries ++ [e.dropLast]) := by
  have hfile : sublistFile (entries ++ [e]) false = (entries.map (· ++ ['\n'])).flatten ++ e := by
    simp [sublistFile, List.dropLast_append_of_ne_nil]
  have hlast : reads MAX_LINE_LEN e = [e] :=
    reads_last he.filled he.newline (he.short.trans (by decide))
  rw [readSublist, hfile, reads_append (by decide) (complete_entries entries), reads_entries h,
    hlast, List.mapM_append, mapM_strip h, List.mapM_cons, strip_of_noNul he.nul he.filled]
  rfl

end Entries

/-- The list is read as it was written, and every fingerprint that is taken is on
every sub cache it names, exactly when the last line has its newline. -/
theorem sublist_read_iff {entries : List Text} (h : ∀ e ∈ entries, IsEntry e) (ended : Bool) :
    (readSublist (sublistFile entries ended) = some entries ∧
      ∀ g_sublist, readSublist (sublistFile entries ended) = some g_sublist →
        ∀ turns req s s', McServer.afpmove g_sublist turns req s = some (.ok, s') →
          ∃ data, req.data = some data ∧
            ∀ addr ∈ entries, (s'.sub addr).files.lookup req.file = some data) ↔
      ended = true ∨ entries = [] := by
  constructor
  · intro hread
    cases ended with
    | true => exact .inl rfl
    | false =>
      right
      by_contra hne
      obtain ⟨es, e, rfl⟩ := List.eq_nil_or_concat entries |>.resolve_left hne
      rw [List.concat_eq_append] at h hread
      have he : IsEntry e := h e (by simp)
      have hes : ∀ d ∈ es, IsEntry d := fun d hd ↦ h d (by simp [hd])
      rw [readSublist_unended hes he] at hread
      have hsame : e.dropLast = e := by simpa using hread.1
      have hlength := congrArg List.length hsame
      have hpos := List.length_pos_iff.mpr he.filled
      rw [List.length_dropLast] at hlength
      omega
  · intro hcond
    have hread : readSublist (sublistFile entries ended) = some entries := by
      rcases hcond with rfl | rfl
      · exact readSublist_ended h
      · cases ended <;> rfl
    refine ⟨hread, ?_⟩
    intro g_sublist hg turns req s s' hmove
    obtain rfl := Option.some.inj (hread.symm.trans hg)
    obtain ⟨data, hdata, ⟨-, hreached⟩ | ⟨hst, -⟩⟩ := McServer.afpmove_reached hmove
    · refine ⟨data, hdata, ?_⟩
      intro addr haddr
      exact hreached.sub_held addr (by rwa [List.take_length])
    · cases hst

def oneAddr : List Text := ["10.0.0.1:50050".toList]

theorem isEntry_oneAddr : ∀ e ∈ oneAddr, IsEntry e :=
  List.forall_mem_singleton.mpr ⟨by decide, by decide, by decide, by decide⟩

theorem sublist_read_iff_oneAddr :
    (readSublist (sublistFile oneAddr true) = some oneAddr ∧
      ∀ g_sublist, readSublist (sublistFile oneAddr true) = some g_sublist →
        ∀ turns req s s', McServer.afpmove g_sublist turns req s = some (.ok, s') →
          ∃ data, req.data = some data ∧
            ∀ addr ∈ oneAddr, (s'.sub addr).files.lookup req.file = some data) ↔
      true = true ∨ oneAddr = [] :=
  sublist_read_iff isEntry_oneAddr true

theorem sublist_address_cut :
    readSublist (sublistFile oneAddr false) = some ["10.0.0.1:5005".toList] := rfl

end FingerMove.Service
