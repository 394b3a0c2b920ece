import Yaf.Response.Wire

namespace Yaf
open Base Output

/-- The name of a header, whatever its case; none without a colon. -/
def headerKey (line : Bytes) : Option Bytes :=
  if line.contains colon then some ((line.takeWhile (· != colon)).map toLower) else none

section names
variable {server : Server} {name header line : Bytes}

theorem headerKey_of_mem (h : colon ∈ line) :
    headerKey line = some ((line.takeWhile (· != colon)).map toLower) := by
  rw [headerKey, if_pos (by simpa using h)]

theorem headerKey_cons {front rest : Bytes} (h : colon ∉ front) :
    headerKey (front ++ colon :: rest) = some (front.map toLower) := by
  rw [headerKey_of_mem (by simp), List.takeWhile_append_of_pos (bne_of_not_mem h)]
  simp

/-- `sapi_remove_header` takes the headers of the name, and no others. -/
theorem isNamed_iff (hn : colon ∉ name) (nulName : NUL ∉ name) (nulHeader : NUL ∉ header) :
    isNamed name header = true ↔ headerKey header = some (name.map toLower) := by
  rw [isNamed, strncasecmp, cstr_of_no_nul nulName, cstr_of_no_nul nulHeader, List.take_length,
    Bool.and_eq_true, beq_iff_eq, beq_iff_eq]
  constructor
  · intro h
    obtain ⟨hcolon, hfront⟩ := h
    obtain ⟨hlt, hc⟩ := List.getElem?_eq_some_iff.mp hcolon
    have hsplit : header = header.take name.length ++ colon :: header.drop (name.length + 1) := by
      rw [← hc, List.getElem_cons_drop, List.take_append_drop]
    have hno : colon ∉ header.take name.length := by
      intro hm
      have hlow : colon ∈ name.map toLower := by
        rw [← hfront]
        exact List.mem_map.mpr ⟨colon, hm, rfl⟩
      obtain ⟨c, hcm, hcc⟩ := List.mem_map.mp hlow
      exact hn ((toLower_eq_iff (by decide) c).mp hcc ▸ hcm)
    rw [hsplit, headerKey_cons hno, hfront]
  · intro h
    unfold headerKey at h
    split at h
    · rename_i hm
      have hmem : colon ∈ header := by simpa using hm
      obtain ⟨rest, hrest⟩ := takeWhile_split hmem
      have hfront := Option.some.inj h
      have hlen : (header.takeWhile (· != colon)).length = name.length := by
        have := congrArg List.length hfront
        rwa [List.length_map, List.length_map] at this
      refine ⟨?_, ?_⟩
      · rw [hrest, ← hlen, List.getElem?_append_right (Nat.le_refl _), Nat.sub_self]
        rfl
      · rw [hrest, ← hlen, List.take_left]
        exact hfront
    · cases h

/-- A header of this length passes every length of the engine that is not as wide as its own. -/
def LineFits (server : Server) (line : Bytes) : Prop :=
  line.length + server.defaultCharset.length < 2 ^ 31

theorem LineFits.short (h : LineFits server line) : line.length < 2 ^ 31 := by
  unfold LineFits at h
  omega

theorem LineFits.sublist {t : Bytes} (h : LineFits server t) (hl : line.Sublist t) :
    LineFits server line := by
  have := hl.length_le
  unfold LineFits at *
  omega

theorem length_applyDefaultCharset {charset mimetype newtype : Bytes}
    (h : sapiApplyDefaultCharset charset mimetype = some newtype) :
    newtype.length = mimetype.length + 9 + charset.length := by
  unfold sapiApplyDefaultCharset at h
  split at h
  · have hset : (lit ";charset=").length = 9 := rfl
    rw [← Option.some.inj h, List.length_append, List.length_append, hset]
  · cases h

theorem headerKey_kept (h : LineFits server line) :
    headerKey (keptHeader server line) = headerKey line := by
  unfold keptHeader
  split
  · rename_i hkind
    obtain ⟨hmem, hname⟩ := Bool.and_eq_true_iff.mp hkind
    simp only
    split
    · rfl
    · rename_i newtype hc
      have hfits : (lit "Content-type: " ++ newtype).length < 2 ^ 32 := by
        have hlen := length_applyDefaultCharset hc
        have hle : (((line.dropWhile (· != colon)).drop 1).dropWhile (· == blank)).length ≤
            line.length :=
          ((List.dropWhile_sublist _).trans ((List.drop_sublist 1 _).trans
            (List.dropWhile_sublist _))).length_le
        have htag : (lit "Content-type: ").length = 14 := rfl
        unfold LineFits at h
        rw [List.length_append]
        omega
      have htag : lit "Content-type: " ++ newtype =
          lit "Content-type" ++ colon :: (blank :: newtype) := rfl
      have hno : colon ∉ lit "Content-type" := by decide
      rw [uintPrefix_of_short hfits, htag, headerKey_cons hno,
        headerKey_of_mem (by simpa using hmem)]
      rw [equalsCi, beq_iff_eq] at hname
      rw [hname]
      decide
  · rfl

end names

section replace
variable {server : Server} {h : SapiHeaders} {line : Bytes} {code : Int}

/-- Adding a header in the place of others of its name. -/
theorem headers_headerAddOp (plain : h.Plain) (hl : PlainLine line) (hc : colon ∈ line)
    (short : (line.takeWhile (· != colon)).length < 2 ^ 31) :
    (h.headerAddOp true line).headers = replaceNamed headerKey h.headers line := by
  have hname : colon ∉ line.takeWhile (· != colon) := not_mem_takeWhile_bne colon line
  have hnul : NUL ∉ line.takeWhile (· != colon) := by
    intro hm
    exact (plainLine_iff.mp hl).2.2 ((List.takeWhile_sublist _).subset hm)
  have hif : (true && line.contains colon) = true := by simpa using hc
  unfold SapiHeaders.headerAddOp SapiHeaders.removeHeader replaceNamed
  simp only [hif, if_true, intPrefix_of_short short]
  congr 1
  apply List.filter_congr
  intro header hm
  have hnamed := isNamed_iff hname hnul (plainLine_iff.mp (plain.headers header hm)).2.2
  rw [headerKey_of_mem hc, Bool.eq_iff_iff, Bool.not_eq_true', ← Bool.not_eq_true, hnamed,
    decide_eq_true_iff]

@[simp] theorem headers_noteHeader : (noteHeader server line code h).headers = h.headers := by
  unfold noteHeader
  simp only
  split_ifs <;> simp

/-- The lines that are kept of those a response sends, as they are kept. -/
def storedLines (server : Server) (headers : Table Key Bytes) : List Bytes :=
  ((headers.map fun p => trimRight isSpace (Sending.headerLine p)).filter
    fun line => !isStatusLine line).map (keptHeader server)

/-- The server interface takes the line of this header. -/
def Takes (p : Key × Bytes) : Prop := PlainLine (trimRight isSpace (Sending.headerLine p))

theorem colon_mem_headerLine (p : Key × Bytes) : colon ∈ Sending.headerLine p := by
  have hglue : colon ∈ lit ": " := by decide
  unfold Sending.headerLine
  split <;> simp [hglue]

theorem name_kept_short (fits : LineFits server line) (hc : colon ∈ line) :
    ((keptHeader server line).takeWhile (· != colon)).length < 2 ^ 31 := by
  have hkey := headerKey_kept fits
  rw [headerKey_of_mem hc] at hkey
  unfold headerKey at hkey
  split at hkey
  · have hlen := congrArg List.length (Option.some.inj hkey)
    rw [List.length_map, List.length_map] at hlen
    rw [hlen]
    exact Nat.lt_of_le_of_lt (List.takeWhile_sublist _).length_le fits.short
  · cases hkey

theorem setHeaderLine_refused (replace : Bool) (fits : LineFits server line)
    (hl : ¬PlainLine (trimRight isSpace line)) :
    setHeaderLine server replace line code h = some (false, h) := by
  unfold setHeaderLine
  split
  · rfl
  · have hshort := (fits.sublist (trimRight_sublist isSpace line)).short
    have hbreaks : (trimRight isSpace line).any endsLine = true := by
      unfold PlainLine at hl
      simpa only [Bool.not_eq_false] using hl
    simp only
    rw [breaksLine_of_short (Nat.lt_trans hshort (by decide)), hbreaks]
    rfl

theorem setHeaderLine_taken (plain : h.Plain) (hs : PlainLine server.defaultCharset)
    (fits : LineFits server line) (hc : colon ∈ line) (hl : PlainLine (trimRight isSpace line)) :
    ∃ h', setHeaderLine server true line 0 h = some (true, h') ∧
      h'.headers =
        if isStatusLine (trimRight isSpace line) then h.headers
        else replaceNamed headerKey h.headers (keptHeader server (trimRight isSpace line)) := by
  have hfits : LineFits server (trimRight isSpace line) :=
    fits.sublist (trimRight_sublist isSpace line)
  have hne : ¬line.isEmpty = true := by
    intro he
    rw [List.isEmpty_iff.mp he] at hc
    cases hc
  have hcolon : colon ∈ trimRight isSpace line := mem_trimRight rfl hc
  have hbreaks : breaksLine (trimRight isSpace line) = some false := by
    rw [breaksLine_of_short (Nat.lt_trans hfits.short (by decide)), hl]
  unfold setHeaderLine
  rw [if_neg hne]
  simp only
  rw [hbreaks, Option.map_some, if_neg (by simp)]
  by_cases hstatus : isStatusLine (trimRight isSpace line) = true
  · rw [if_pos hstatus, if_pos hstatus]
    exact ⟨_, rfl, headers_updateResponseCode _⟩
  · have hkept : colon ∈ keptHeader server (trimRight isSpace line) := by
      have hk : headerKey (keptHeader server (trimRight isSpace line)) = _ := headerKey_kept hfits
      rw [headerKey_of_mem hcolon] at hk
      unfold headerKey at hk
      split at hk
      · rename_i hm
        simpa using hm
      · cases hk
    rw [if_neg hstatus, if_neg hstatus]
    refine ⟨_, rfl, ?_⟩
    rw [if_neg (by simp)]
    have hnote : (noteHeader server (trimRight isSpace line) 0 h).Plain := plain.note _ 0
    have hheaders :=
      headers_headerAddOp hnote (plainLine_kept hs hl) hkept (name_kept_short hfits hcolon)
    rw [headers_noteHeader] at hheaders
    exact hheaders

end replace

namespace Sending
variable {server : Server} {s s' : Sending} {headers : Table Key Bytes}

/-- The headers of these entries are kept: in the place of those of their names, of each name the
last one. -/
def Installs (server : Server) (s s' : Sending) (headers : Table Key Bytes) : Prop :=
  s'.sapi.headers =
    s.sapi.headers.filter
      (fun a => !hasNamed headerKey (headerKey a) (storedLines server headers)) ++
      lastOfEach headerKey (storedLines server headers)

theorem headerOp_unsent (unsent : s.block = none) (op : SapiHeaderOp) :
    s.headerOp server op =
      (sapiHeaderOp server s.sapi op).map fun r => (r.1, { s with sapi := r.2 }) := by
  unfold headerOp
  rw [unsent]

/-- The induction is on the entries; each line takes the place of those of its name. -/
theorem sendHeaders_fold (unsent : s.block = none) (plain : s.sapi.Plain)
    (hs : PlainLine server.defaultCharset) (fits : ∀ p ∈ headers, LineFits server (headerLine p))
    (taken : ∀ p ∈ headers, Takes p) (rest : Table Key Bytes) :
    ∃ s₁ : Sending, s.sendHeaders server (headers ++ rest) = s₁.sendHeaders server rest ∧
      s₁.block = none ∧ s₁.output = s.output ∧ s₁.body = s.body ∧
      s₁.sapi.headers =
        (storedLines server headers).foldl (replaceNamed headerKey) s.sapi.headers := by
  induction headers generalizing s with
  | nil => exact ⟨s, rfl, unsent, rfl, rfl, rfl⟩
  | cons p ps ih =>
    have htaken : Takes p := taken p List.mem_cons_self
    obtain ⟨h', hset, hheaders⟩ := setHeaderLine_taken plain hs (fits p List.mem_cons_self)
      (colon_mem_headerLine p) htaken
    have hop :
      s.headerOp server (.replace (headerLine p) 0) = some (true, { s with sapi := h' }) := by
      rw [headerOp_unsent unsent, sapiHeaderOp, hset]
      rfl
    obtain ⟨s₁, hsend, hblock, hout, hbody, hfold⟩ :=
      ih (s := { s with sapi := h' }) unsent (plain.setLine hs hset)
        (fun q hq => fits q (List.mem_cons_of_mem p hq))
        fun q hq => taken q (List.mem_cons_of_mem p hq)
    refine ⟨s₁, ?_, hblock, hout, hbody, ?_⟩
    · rw [List.cons_append, sendHeaders, hop]
      exact hsend
    · rw [hfold]
      change (storedLines server ps).foldl (replaceNamed headerKey) h'.headers = _
      rw [hheaders]
      by_cases hstatus : isStatusLine (trimRight isSpace (headerLine p)) = true
      · simp [storedLines, hstatus]
      · simp [storedLines, hstatus]

theorem foldl_writeSegment (body : ResponseBody) (o : Output) :
    body.foldl writeSegment o = o.write body.send := by
  induction body generalizing o with
  | nil => exact (write_nil o).symm
  | cons p ps ih =>
    rw [List.foldl_cons, ih, writeSegment, write_write]
    rfl

/-- Of some headers all are taken, or there is a first that is not. -/
theorem all_taken_or_first (headers : Table Key Bytes) :
    (∀ p ∈ headers, Takes p) ∨
      ∃ before p after, headers = before ++ p :: after ∧ (∀ q ∈ before, Takes q) ∧ ¬Takes p := by
  induction headers with
  | nil =>
    left
    intro p hp
    cases hp
  | cons p ps ih =>
    by_cases hp : Takes p
    · rcases ih with hall | ⟨before, q, after, hps, hbefore, hq⟩
      · left
        intro r hr
        rcases List.mem_cons.mp hr with rfl | hr
        · exact hp
        · exact hall r hr
      · right
        refine ⟨p :: before, q, after, by rw [hps, List.cons_append], ?_, hq⟩
        intro r hr
        rcases List.mem_cons.mp hr with rfl | hr
        · exact hp
        · exact hbefore r hr
    · right
      refine ⟨[], p, ps, rfl, ?_, hp⟩
      intro r hr
      cases hr

@[simp] theorem withCode_block : s.withCode.block = s.block := by
  unfold withCode
  split <;> rfl

@[simp] theorem withCode_output : s.withCode.output = s.output := by
  unfold withCode
  split <;> rfl

@[simp] theorem withCode_body : s.withCode.body = s.body := by
  unfold withCode
  split <;> rfl

@[simp] theorem withCode_headers : s.withCode.sapi.headers = s.sapi.headers := by
  unfold withCode
  split <;> rfl

@[simp] theorem settle_sapi : (s.settle server).sapi = s.sapi := rfl

@[simp] theorem settle_output : (s.settle server).output = leaving server s.output := rfl

/-- Where all lines are taken the headers are kept and the body is written. -/
theorem httpSend_taken (hs : server.Plain) (plain : s.withCode.sapi.Plain) (unsent : s.block = none)
    (fits : ∀ e ∈ s.response.header, LineFits server (headerLine e))
    (taken : ∀ e ∈ s.response.header, Takes e) :
    ∃ s', s.httpSend server = some (true, s') ∧ Installs server s s' s.response.header ∧
      s'.output = leaving server (s.output.write s.body.send) := by
  have hopen : s.withCode.block = none := by rw [withCode_block, unsent]
  obtain ⟨s₁, hsend, -, hout, hbody, hfold⟩ := sendHeaders_fold hopen plain hs.charset fits taken []
  rw [List.append_nil, sendHeaders] at hsend
  have hresult : s.httpSend server =
      some (true, { s₁ with output := s₁.body.foldl writeSegment s₁.output }.settle server) := by
    unfold httpSend
    rw [hsend]
    rfl
  refine ⟨_, hresult, ?_, ?_⟩
  · rw [Installs, settle_sapi, hfold, withCode_headers, foldl_replaceNamed]
  · rw [settle_output, hout, hbody, withCode_output, withCode_body, foldl_writeSegment]

/-- At the first line that is refused the response ends: what came before it is kept. -/
theorem httpSend_stops (hs : server.Plain) (plain : s.withCode.sapi.Plain) (unsent : s.block = none)
    (fits : ∀ e ∈ s.response.header, LineFits server (headerLine e))
    {before after : Table Key Bytes} {e : Key × Bytes}
    (split : s.response.header = before ++ e :: after) (taken : ∀ q ∈ before, Takes q)
    (refused : ¬Takes e) :
    ∃ s', s.httpSend server = some (false, s') ∧ Installs server s s' before ∧
      s'.output = s.output ∧ s'.block = none := by
  have hopen : s.withCode.block = none := by rw [withCode_block, unsent]
  rw [split] at fits
  obtain ⟨s₁, hsend, hblock, hout, -, hfold⟩ := sendHeaders_fold hopen plain hs.charset
    (fun q hq => fits q (List.mem_append_left _ hq)) taken (e :: after)
  have hrefused : s₁.headerOp server (.replace (headerLine e) 0) = some (false, s₁) := by
    rw [headerOp_unsent hblock, sapiHeaderOp,
      setHeaderLine_refused true (fits e (List.mem_append_right _ List.mem_cons_self)) refused]
    rfl
  rw [sendHeaders, hrefused, ← split] at hsend
  have hresult : s.httpSend server = some (false, s₁) := by
    unfold httpSend
    rw [hsend]
    rfl
  refine ⟨s₁, hresult, ?_, ?_, hblock⟩
  · rw [Installs, hfold, withCode_headers, foldl_replaceNamed]
  · rw [hout, withCode_output]

theorem sampleHeader_fits :
    LineFits sampleServer (headerLine (.name (lit "X-Page"), lit "none")) := by
  unfold LineFits
  decide

/-- What `getHeader` answers for a name is the one header of that name after `response`, if no other
stored name differs from it in case only. -/
theorem response_header_once {β : Type} {p : Client AnswerCall Zval β} {b : β} {n v : Bytes}
    (hs : server.Plain) (hrun : p.run (apply server) {} = .ok (b, s)) (unsent : s.block = none)
    (fits : ∀ e ∈ s.response.header, LineFits server (headerLine e))
    (ok : s.httpSend server = some (true, s')) (get : s.response.getHeader (some n) = .string v)
    (alone : ∀ e ∈ s.response.header, e ≠ (.name n, v) →
      headerKey (trimRight isSpace (headerLine e)) ≠
        headerKey (trimRight isSpace (headerLine (.name n, v))))
    (ordinary : isStatusLine (trimRight isSpace (headerLine (.name n, v))) = false) :
    s'.sapi.headers.filter
        (fun x => headerKey x = headerKey (trimRight isSpace (headerLine (.name n, v)))) =
      [keptHeader server (trimRight isSpace (headerLine (.name n, v)))] := by
  have hmem : (Key.name n, v) ∈ s.response.header := by
    unfold HttpResponse.getHeader at get
    cases hf : s.response.header.find? (.name n) with
    | none =>
      simp only [hf] at get
      cases get
    | some w =>
      simp only [hf] at get
      cases get
      exact Table.mem_of_find? hf
  have fitsTrim : ∀ e ∈ s.response.header, LineFits server (trimRight isSpace (headerLine e)) :=
    fun e he => (fits e he).sublist (trimRight_sublist isSpace _)
  have hfits := fitsTrim _ hmem
  generalize hline : trimRight isSpace (headerLine (.name n, v)) = line at *
  have hstored : keptHeader server line ∈ storedLines server s.response.header := by
    refine List.mem_map.mpr ⟨line, List.mem_filter.mpr ⟨?_, by rw [ordinary]; rfl⟩, rfl⟩
    exact List.mem_map.mpr ⟨(.name n, v), hmem, hline⟩
  have honly : ∀ x ∈ storedLines server s.response.header, headerKey x = headerKey line →
      x = keptHeader server line := by
    intro x hx hkey
    obtain ⟨l, hl, rfl⟩ := List.mem_map.mp hx
    obtain ⟨e, he, rfl⟩ := List.mem_map.mp (List.mem_of_mem_filter hl)
    rw [headerKey_kept (fitsTrim e he)] at hkey
    by_cases hen : e = (.name n, v)
    · rw [hen, hline]
    · exact absurd hkey (alone e he hen)
  have hnamed : hasNamed headerKey (headerKey line) (storedLines server s.response.header) = true :=
    (hasNamed_iff headerKey).mpr ⟨_, hstored, headerKey_kept hfits⟩
  have plain := (run_sound hs hrun).withCode.plain
  have hinstalls : Installs server s s' s.response.header := by
    rcases all_taken_or_first s.response.header with hall | ⟨before, e, after, hsplit, hbefore, he⟩
    · obtain ⟨s₁, hsend, hinst, -⟩ := httpSend_taken hs plain unsent fits hall
      rw [ok] at hsend
      obtain ⟨-, rfl⟩ := Prod.mk.inj (Option.some.inj hsend)
      exact hinst
    · obtain ⟨s₁, hsend, -⟩ := httpSend_stops hs plain unsent fits hsplit hbefore he
      rw [ok] at hsend
      cases hsend
  have hgone : (s.sapi.headers.filter fun a => !hasNamed headerKey (headerKey a)
      (storedLines server s.response.header)).filter (fun x => headerKey x = headerKey line) =
        [] := by
    rw [List.filter_eq_nil_iff]
    intro a ha hkey
    have hfree := List.of_mem_filter ha
    rw [of_decide_eq_true hkey, hnamed] at hfree
    cases hfree
  have hne : (storedLines server s.response.header).filter
      (fun x => headerKey x = headerKey line) ≠ [] := by
    apply List.ne_nil_of_mem (a := keptHeader server line)
    exact List.mem_filter.mpr ⟨hstored, by simp [headerKey_kept hfits]⟩
  rw [hinstalls, List.filter_append, hgone, List.nil_append, filter_lastOfEach,
    List.getLast?_eq_some_getLast hne]
  have hlast := List.mem_filter.mp (List.getLast_mem hne)
  rw [honly _ hlast.1 (of_decide_eq_true hlast.2)]
  rfl

theorem response_header_once_page :
    ∃ s s', samplePage.run (apply sampleServer) {} = .ok (.bool true, s) ∧
      s.httpSend sampleServer = some (true, s') ∧
      s'.sapi.headers.filter (fun x => headerKey x = some (lit "x-page")) =
        [lit "X-Page: none"] := by
  obtain ⟨s, s', hrun, unsent, ok, get, headers⟩ : ∃ s s',
      samplePage.run (apply sampleServer) {} = .ok (.bool true, s) ∧ s.block = none ∧
        s.httpSend sampleServer = some (true, s') ∧
        s.response.getHeader (some (lit "X-Page")) = .string (lit "none") ∧
        s.response.header = [(.name (lit "X-Page"), lit "none")] := ⟨_, _, rfl, rfl, rfl, rfl, rfl⟩
  refine ⟨s, s', hrun, ok, ?_⟩
  have fits : ∀ e ∈ s.response.header, LineFits sampleServer (headerLine e) := by
    intro e he
    rw [headers] at he
    rw [List.mem_singleton.mp he]
    exact sampleHeader_fits
  have alone : ∀ e ∈ s.response.header, e ≠ (.name (lit "X-Page"), lit "none") →
      headerKey (trimRight isSpace (headerLine e)) ≠
        headerKey (trimRight isSpace (headerLine (.name (lit "X-Page"), lit "none"))) := by
    intro e he hne
    rw [headers] at he
    exact absurd (List.mem_singleton.mp he) hne
  exact response_header_once sampleServer_plain hrun unsent fits ok get alone rfl

end Sending
end Yaf
