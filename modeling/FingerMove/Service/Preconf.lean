import FingerMove.Service.Host

namespace FingerMove.Service

open CText Directory Tally ProDeal

def afpFile (id : Text) : FileName := .ofC (id ++ ".afp".toList)

theorem afpFile_text {id : Text} (h : '\x00' ∉ id) : (afpFile id).text = id ++ ".afp".toList :=
  cstr_eq_self (by simpa using h)

/-- The files of the songs on the first `limit` lines, up to the first tally
that does not exceed `cnt`. -/
def offered (limit : ℕ) (cnt : ℤ) (lines : List Text) : List FileName :=
  (((lines.take limit).filterMap splitLine).takeWhile fun x ↦ cnt < x.2).map fun x ↦ afpFile x.1

theorem dropLast_subset_of_isPrefix {t u : Text} (h : t <+: u) : t.dropLast ⊆ u.dropLast := by
  obtain ⟨v, rfl⟩ := h
  rcases eq_or_ne v [] with rfl | hv
  · rw [List.append_nil]
    exact List.Subset.refl _
  · rw [List.dropLast_append_of_ne_nil hv]
    intro c hc
    exact List.mem_append_left _ (List.dropLast_subset t hc)

theorem splitLine_free {line id : Text} {num : ℤ} (hl : '\n' ∉ line.dropLast)
    (h : splitLine line = some (id, num)) : '\n' ∉ id ∧ '\x00' ∉ id := by
  simp only [splitLine, Option.bind_eq_bind, Option.bind_eq_some_iff, Option.pure_def,
    Option.some.injEq, Prod.mk.injEq] at h
  obtain ⟨⟨u, r⟩, htoken, ⟨v, _⟩, hval, rfl, -⟩ := h
  have hr : r ≠ [] := by
    rintro rfl
    simp [strtok_nil] at hval
  obtain ⟨p, hp⟩ := strtok_split htoken hr
  constructor
  · intro hmem
    refine hl (dropLast_subset_of_isPrefix (cstr_isPrefix line) ?_)
    rw [hp, List.dropLast_append_of_ne_nil (List.cons_ne_nil _ _)]
    exact List.mem_append_left _ (List.mem_append_right _ hmem)
  · intro hmem
    refine not_mem_cstr line ?_
    rw [hp]
    exact List.mem_append_left _ (List.mem_append_right _ hmem)

theorem topLoop_offered {limit : ℕ} {cnt : ℤ} {lines out : List Text}
    (hl : ∀ line ∈ lines, '\n' ∉ line.dropLast) (h : topLoop limit cnt 0 lines = some out) :
    out = (offered limit cnt lines).map nameText ∧ ∀ line ∈ out, IsLine MAX_LINE_LEN line := by
  obtain ⟨hout, hfits⟩ := topLoop_eq h
  have hfree : ∀ x ∈ ((lines.take limit).filterMap splitLine).takeWhile fun x ↦ cnt < x.2,
      '\n' ∉ x.1 ∧ '\x00' ∉ x.1 := by
    intro x hx
    obtain ⟨line, hline, hsplit⟩ := List.mem_filterMap.mp ((List.takeWhile_prefix _).subset hx)
    exact splitLine_free (hl line (List.mem_of_mem_take hline)) hsplit
  have hnames : out = (offered limit cnt lines).map nameText := by
    rw [hout, offered, List.map_map, Nat.sub_zero]
    apply List.map_congr_left
    intro x hx
    rw [Function.comp_apply, nameText, afpFile_text (hfree x hx).2]
    simp
  refine ⟨hnames, ?_⟩
  intro line hline
  have hlen := hfits line hline
  rw [hnames] at hline
  obtain ⟨f, hf, rfl⟩ := List.mem_map.mp hline
  obtain ⟨x, hx, rfl⟩ := List.mem_map.mp hf
  apply nameText_isLine _ hlen
  rw [afpFile_text (hfree x hx).2]
  simpa using (hfree x hx).1

def filteredLines (wrk : Folder) : List Text :=
  reads MAX_LINE_LEN ((wrk.files.lookup fltLogsFile).getD [])

theorem topAfpFile_offered {o : Opens} {GROUP_LIMIT : ℕ} {wrk wrk' : Folder} {num n : ℤ}
    (h : topAfpFile o GROUP_LIMIT wrk wrk num = some (n, wrk')) (hn : n ≠ -1) :
    n = (offered GROUP_LIMIT num (filteredLines wrk)).length ∧ o.call 1 = true ∧
      ∃ t, wrk' = wrk.write topAfpsFile t ∧
        reads MAX_LINE_LEN t = (offered GROUP_LIMIT num (filteredLines wrk)).map nameText := by
  have hopened : o.call 1 = true := by
    obtain ⟨_ | logs, -, htop⟩ := Option.bind_eq_some_iff.mp h
    · exact absurd (Prod.mk.inj (Option.some.inj htop)).1.symm hn
    · obtain ⟨b, hb, htop⟩ := Option.bind_eq_some_iff.mp htop
      obtain rfl := fopenW_eq_some hb
      exact call_opened htop hn
  obtain ⟨logs, out, hlogs, hout, rfl, rfl⟩ := topAfpFile_ok h hn
  have hlines : filteredLines wrk = reads MAX_LINE_LEN logs := by
    rw [filteredLines, hlogs, Option.getD_some]
  obtain ⟨hnames, hisLine⟩ :=
    topLoop_offered (fun line hmem ↦ (reads_shape (by decide) hmem).2.2) hout
  rw [← hlines] at hnames
  refine ⟨by rw [hnames, List.length_map], hopened, _, rfl, ?_⟩
  rw [reads_flatten hisLine, hnames]

def groupHost (log : String) : Host where
  afp := .ofList "afp" [("5.afp", "x")]
  dat := .ofList "runlog" [("server.log", log)]
  wrk := .ofList "wrk" []
  org := .ofList "org" []
  dst := .ofList "dst" []
  log := .ofList "log" []

end FingerMove.Service
