import Yaf.Response.Send

namespace Yaf
open Base Output

/-- Text that cannot end a line. -/
def PlainLine (s : Bytes) : Prop := s.any endsLine = false

theorem plainLine_iff {s : Bytes} :
    PlainLine s ↔ lineFeed ∉ s ∧ carriageReturn ∉ s ∧ NUL ∉ s := by
  unfold PlainLine
  rw [List.any_eq_false]
  constructor
  · intro h
    refine ⟨?_, ?_, ?_⟩
    · intro hm
      exact h _ hm rfl
    · intro hm
      exact h _ hm rfl
    · intro hm
      exact h _ hm rfl
  · intro h c hc
    have h₁ : c ≠ lineFeed := by
      intro he
      exact h.1 (he ▸ hc)
    have h₂ : c ≠ carriageReturn := by
      intro he
      exact h.2.1 (he ▸ hc)
    have h₃ : c ≠ NUL := by
      intro he
      exact h.2.2 (he ▸ hc)
    simp [endsLine, h₁, h₂, h₃]

/-- What passes the check is plain, and a plain line passes it where it comes to an end. -/
theorem plainLine_of_breaksLine {s : Bytes} (h : breaksLine s = some false) : PlainLine s := by
  unfold breaksLine at h
  split at h
  · exact Option.some.inj h
  · split at h <;> cases h

theorem breaksLine_of_short {s : Bytes} (short : s.length < 2 ^ 32) :
    breaksLine s = some (s.any endsLine) := if_pos short

theorem PlainLine.append {s t : Bytes} (hs : PlainLine s) (ht : PlainLine t) :
    PlainLine (s ++ t) := by
  unfold PlainLine at *
  rw [List.any_append, hs, ht]
  rfl

theorem PlainLine.sublist {s t : Bytes} (ht : PlainLine t) (h : s.Sublist t) : PlainLine s := by
  rw [plainLine_iff] at *
  exact ⟨fun hm => ht.1 (h.subset hm), fun hm => ht.2.1 (h.subset hm),
    fun hm => ht.2.2 (h.subset hm)⟩

theorem digit_le {c : Char} (h : c.isDigit = true) : 48 ≤ c.toUInt8 := by
  have hc : 48 ≤ c.val.toNat ∧ c.val.toNat ≤ 57 := by
    simpa [Char.isDigit, UInt32.le_iff_toNat_le] using h
  rw [UInt8.le_iff_toNat_le, Char.toUInt8, UInt32.toNat_toUInt8, Nat.mod_eq_of_lt (by omega)]
  exact hc.1

/-- A number as it is printed cannot end a line. -/
theorem plainLine_digits (n : Nat) : PlainLine (lit (Nat.repr n)) := by
  have hdigit : ∀ c ∈ lit (Nat.repr n), 48 ≤ c := by
    intro c hc
    obtain ⟨d, hd, rfl⟩ := List.mem_map.mp hc
    rw [Nat.toList_repr] at hd
    exact digit_le (Nat.isDigit_of_mem_toDigits (by decide) (by decide) hd)
  rw [plainLine_iff]
  refine ⟨?_, ?_, ?_⟩
  · intro hm
    exact absurd (hdigit _ hm) (by decide)
  · intro hm
    exact absurd (hdigit _ hm) (by decide)
  · intro hm
    exact absurd (hdigit _ hm) (by decide)

theorem plainLine_longText (n : Int) : PlainLine (longText n) := by
  cases n with
  | ofNat n => exact plainLine_digits n
  | negSucc n =>
    have hsign : PlainLine (lit "-") := rfl
    have h := hsign.append (plainLine_digits (n + 1))
    have htext : longText (Int.negSucc n) = lit "-" ++ lit (Nat.repr (n + 1)) := by
      change lit ("-" ++ Nat.repr (n + 1)) = _
      simp [lit]
    rwa [htext]

/-- The settings and the server's own text cannot end a line. -/
structure Server.Plain (server : Server) : Prop where
  charset : PlainLine server.defaultCharset
  contentType : PlainLine server.defaultContentType
  protocol : PlainLine server.protocol
  protocol_some : server.protocol ≠ []
  status : ∀ code, PlainLine (server.statusString code)
  essential : ∀ line ∈ server.essential, PlainLine line ∧ line ≠ []

/-- The headers kept cannot end a line, nor can the status. -/
structure SapiHeaders.Plain (h : SapiHeaders) : Prop where
  headers : ∀ line ∈ h.headers, PlainLine line
  status : ∀ line, h.httpStatusLine = some line → PlainLine line ∧ line ≠ []

section sapi
variable {server : Server} {h : SapiHeaders} {line : Bytes} {code : Int}

@[simp] theorem headers_updateResponseCode (ncode : Int) :
    (h.updateResponseCode ncode).headers = h.headers := by
  unfold SapiHeaders.updateResponseCode
  split <;> rfl

theorem SapiHeaders.Plain.update (plain : h.Plain) (ncode : Int) :
    (h.updateResponseCode ncode).Plain := by
  unfold SapiHeaders.updateResponseCode
  split
  · exact plain
  · refine ⟨plain.headers, ?_⟩
    intro line hl
    cases hl

theorem SapiHeaders.Plain.note (plain : h.Plain) (line : Bytes) (code : Int) :
    (noteHeader server line code h).Plain := by
  unfold noteHeader
  simp only
  split_ifs <;> first | exact plain | exact plain.update _ | exact ⟨plain.headers, plain.status⟩

@[simp] theorem httpStatusLine_headerAddOp (replace : Bool) :
    (h.headerAddOp replace line).httpStatusLine = h.httpStatusLine := by
  unfold SapiHeaders.headerAddOp
  simp only
  split
  · split <;> rfl
  · rfl

/-- Adding a header keeps what was there, or what of it has another name. -/
theorem mem_headerAddOp {replace : Bool} {l : Bytes}
    (hl : l ∈ (h.headerAddOp replace line).headers) :
    l ∈ h.headers ∨ l = line := by
  unfold SapiHeaders.headerAddOp at hl
  simp only at hl
  rcases List.mem_append.mp hl with hl | hl
  · left
    split at hl
    · split at hl
      · exact hl
      · exact List.mem_of_mem_filter hl
    · exact hl
  · exact Or.inr (List.mem_singleton.mp hl)

theorem SapiHeaders.Plain.add (plain : h.Plain) (hl : PlainLine line) (replace : Bool) :
    (h.headerAddOp replace line).Plain := by
  refine ⟨?_, ?_⟩
  · intro l hm
    rcases mem_headerAddOp hm with hm | rfl
    · exact plain.headers l hm
    · exact hl
  · intro l hs
    rw [httpStatusLine_headerAddOp] at hs
    exact plain.status l hs

theorem plainLine_kept (hs : PlainLine server.defaultCharset) (hl : PlainLine line) :
    PlainLine (keptHeader server line) := by
  unfold keptHeader
  split
  · simp only
    cases hc : sapiApplyDefaultCharset server.defaultCharset
        (((line.dropWhile (· != colon)).drop 1).dropWhile (· == blank)) with
    | none => exact hl
    | some newtype =>
      unfold sapiApplyDefaultCharset at hc
      split at hc
      · have htag : PlainLine (lit "Content-type: ") := rfl
        have hset : PlainLine (lit ";charset=") := rfl
        rw [← Option.some.inj hc]
        apply PlainLine.sublist _ (List.take_sublist _ _)
        refine htag.append ((PlainLine.append ?_ hset).append hs)
        apply hl.sublist
        exact ((List.dropWhile_sublist _).trans (List.drop_sublist 1 _)).trans
          (List.dropWhile_sublist _)
      · cases hc
  · exact hl

/-- One step of the invariant: a line that is set cannot end a line. -/
theorem SapiHeaders.Plain.setLine (plain : h.Plain) (hs : PlainLine server.defaultCharset)
    {replace : Bool} {r : Bool × SapiHeaders}
    (hr : setHeaderLine server replace line code h = some r) : r.2.Plain := by
  unfold setHeaderLine at hr
  split at hr
  · rw [← Option.some.inj hr]
    exact plain
  · obtain ⟨breaks, hb, rfl⟩ := Option.map_eq_some_iff.mp hr
    cases breaks with
    | true => exact plain
    | false =>
      have hl : PlainLine (trimRight isSpace line) := plainLine_of_breaksLine hb
      rw [if_neg (by simp)]
      split
      · rename_i hstatus
        refine ⟨?_, ?_⟩
        · rw [headers_updateResponseCode]
          exact plain.headers
        · intro l he
          rw [← Option.some.inj he]
          refine ⟨hl, ?_⟩
          intro hnil
          rw [isStatusLine, hnil] at hstatus
          cases hstatus
      · apply SapiHeaders.Plain.add _ (plainLine_kept hs hl)
        split
        · exact (plain.note _ code).update code
        · exact plain.note _ code

theorem SapiHeaders.Plain.op (plain : h.Plain) (hs : PlainLine server.defaultCharset)
    {op : SapiHeaderOp} {r : Bool × SapiHeaders} (hr : sapiHeaderOp server h op = some r) :
    r.2.Plain := by
  cases op with
  | setStatus code =>
    rw [← Option.some.inj hr]
    exact plain.update code
  | add line code => exact plain.setLine hs hr
  | replace line code => exact plain.setLine hs hr
  | delete line =>
    rw [sapiHeaderOp] at hr
    split_ifs at hr
    · rw [← Option.some.inj hr]
      exact plain
    · rw [← Option.some.inj hr]
      exact plain
    · rw [← Option.some.inj hr]
      refine ⟨?_, plain.status⟩
      intro l hm
      exact plain.headers l (List.mem_of_mem_filter hm)
  | deleteAll =>
    rw [← Option.some.inj hr]
    refine ⟨?_, plain.status⟩
    intro l hm
    cases hm

theorem plain_statusLine (hs : server.Plain) (plain : h.Plain) :
    PlainLine (statusLine server h) ∧ statusLine server h ≠ [] := by
  unfold statusLine
  cases hl : h.httpStatusLine with
  | some line => exact plain.status line hl
  | none =>
    have hblank : PlainLine [blank] := rfl
    refine ⟨?_, ?_⟩
    · exact (hs.protocol.append (hblank.append (plainLine_longText _))).append
        (hblank.append (hs.status _))
    · intro hnil
      exact hs.protocol_some (List.append_eq_nil_iff.mp (List.append_eq_nil_iff.mp hnil).1).1

/-- The lines that are sent can all be read back. -/
theorem plain_sentLines (hs : server.Plain) (plain : h.Plain) :
    ∀ line ∈ sentLines server h, PlainLine line ∧ line ≠ [] := by
  have hdefault : (if h.sendDefaultContentType && !server.defaultContentType.isEmpty then
      h.headerAddOp false (lit "Content-type: " ++ server.defaultContentType) else h).Plain := by
    have htag : PlainLine (lit "Content-type: ") := rfl
    split
    · exact plain.add (htag.append hs.contentType) false
    · exact plain
  intro line hl
  rcases List.mem_cons.mp hl with rfl | hl
  · exact plain_statusLine hs hdefault
  · rcases List.mem_append.mp hl with hl | hl
    · exact hs.essential line hl
    · refine ⟨hdefault.headers line (List.mem_of_mem_filter hl), ?_⟩
      have := List.of_mem_filter hl
      simpa using this

end sapi

namespace Sending
variable {server : Server} {s : Sending}

/-- What holds of an answer at any time. -/
structure Sound (server : Server) (s : Sending) : Prop where
  plain : s.sapi.Plain
  unsent : s.block = none → s.output.sent = []
  sent : ∀ block, s.block = some block →
    ∃ h : SapiHeaders, block = sapiSendHeaders server h ∧ h.Plain ∧ h.headers = s.sapi.headers
  bare : server.headersOnly = true → s.output.sent = []

theorem sound_fresh : Sound server {} := by
  refine ⟨⟨?_, ?_⟩, fun _ => rfl, ?_, fun _ => rfl⟩
  · intro line hl
    cases hl
  · intro line hl
    cases hl
  · intro block hb
    cases hb

theorem leaving_of_bare {o : Output} (h : o.sent = []) : leaving server o = o := by
  unfold leaving
  split
  · rw [← h]
  · rfl

theorem sent_leaving_of_headersOnly {o : Output} (h : server.headersOnly = true) :
    (leaving server o).sent = [] := by
  unfold leaving
  rw [if_pos h]

theorem Sound.settle (h : s.Sound server) (o : Output) :
    ({ s with output := o }.settle server).Sound server := by
  refine ⟨h.plain, ?_, ?_, ?_⟩
  · intro hb
    change (if s.block.isNone && !o.sent.isEmpty then some (sapiSendHeaders server s.sapi)
      else s.block) = none at hb
    split at hb
    · cases hb
    · rename_i hclosed
      have hsent : o.sent = [] := by simpa [hb] using hclosed
      change (leaving server o).sent = []
      rw [leaving_of_bare hsent, hsent]
  · intro block hb
    change (if s.block.isNone && !o.sent.isEmpty then some (sapiSendHeaders server s.sapi)
      else s.block) = some block at hb
    split at hb
    · exact ⟨s.sapi, (Option.some.inj hb).symm, h.plain, rfl⟩
    · exact h.sent block hb
  · exact sent_leaving_of_headersOnly

theorem Sound.headerOp (h : s.Sound server) (hs : server.Plain) {op : SapiHeaderOp}
    {r : Bool × Sending} (hr : s.headerOp server op = some r) : r.2.Sound server := by
  unfold Sending.headerOp at hr
  cases hb : s.block with
  | some block =>
    rw [hb] at hr
    rw [← Option.some.inj hr]
    exact h
  | none =>
    rw [hb] at hr
    obtain ⟨r', hr', rfl⟩ := Option.map_eq_some_iff.mp hr
    refine ⟨h.plain.op hs.charset hr', ?_, ?_, h.bare⟩
    · intro _
      exact h.unsent hb
    · intro block hb'
      cases hb'

theorem Sound.sendHeaders (h : s.Sound server) (hs : server.Plain) {headers : Table Key Bytes}
    {r : Bool × Sending} (hr : s.sendHeaders server headers = some r) : r.2.Sound server := by
  induction headers generalizing s with
  | nil =>
    rw [← Option.some.inj hr]
    exact h
  | cons p ps ih =>
    obtain ⟨r₁, hr₁, hrest⟩ := Option.bind_eq_some_iff.mp hr
    have hone := h.headerOp hs hr₁
    split at hrest
    · exact ih hone hrest
    · rw [← Option.some.inj hrest]
      exact hone

theorem Sound.withCode (h : s.Sound server) : s.withCode.Sound server := by
  unfold Sending.withCode
  split
  · exact h
  · exact ⟨⟨h.plain.headers, h.plain.status⟩, h.unsent, h.sent, h.bare⟩

theorem Sound.httpSend (h : s.Sound server) (hs : server.Plain) {r : Bool × Sending}
    (hr : s.httpSend server = some r) : r.2.Sound server := by
  obtain ⟨r₁, hr₁, rfl⟩ := Option.map_eq_some_iff.mp hr
  have hheaders := h.withCode.sendHeaders hs hr₁
  split
  · exact hheaders.settle _
  · exact hheaders

/-- One call keeps the answer sound. -/
theorem Sound.apply (h : s.Sound server) (hs : server.Plain) {call : AnswerCall} {v : Zval}
    {s' : Sending} (hcall : Sending.apply server s call = .ok (v, s')) : s'.Sound server := by
  cases call with
  | header op =>
    rw [Sending.apply] at hcall
    cases hr : s.headerOp server op with
    | none =>
      simp only [hr] at hcall
      cases hcall
    | some r =>
      simp only [hr] at hcall
      obtain ⟨-, rfl⟩ := Prod.mk.inj (Except.ok.inj hcall)
      exact h.headerOp hs hr
  | setRedirect url =>
    rw [Sending.apply] at hcall
    cases hr : s.setRedirect server url with
    | none =>
      simp only [hr] at hcall
      cases hcall
    | some r =>
      simp only [hr] at hcall
      obtain ⟨-, rfl⟩ := Prod.mk.inj (Except.ok.inj hcall)
      unfold Sending.setRedirect at hr
      split at hr
      · rw [← Option.some.inj hr]
        exact h
      · exact h.headerOp hs hr
  | headers call =>
    obtain ⟨-, rfl⟩ := Prod.mk.inj (Except.ok.inj hcall)
    exact ⟨h.plain, h.unsent, h.sent, h.bare⟩
  | body call =>
    rw [Sending.apply] at hcall
    cases hb : call.apply s.body with
    | none =>
      simp only [hb] at hcall
      cases hcall
    | some body =>
      simp only [hb] at hcall
      obtain ⟨-, rfl⟩ := Prod.mk.inj (Except.ok.inj hcall)
      exact ⟨h.plain, h.unsent, h.sent, h.bare⟩
  | response =>
    rw [Sending.apply] at hcall
    cases hr : s.httpSend server with
    | none =>
      simp only [hr] at hcall
      cases hcall
    | some r =>
      simp only [hr] at hcall
      obtain ⟨-, rfl⟩ := Prod.mk.inj (Except.ok.inj hcall)
      exact h.httpSend hs hr
  | output call =>
    obtain ⟨-, rfl⟩ := Prod.mk.inj (Except.ok.inj hcall)
    exact h.settle _

theorem run_sound {β : Type} {p : Client AnswerCall Zval β} {b : β} (hs : server.Plain)
    (hrun : p.run (apply server) {} = .ok (b, s)) : s.Sound server :=
  Client.run_fold (f := fun u _ => u) (I := fun s (_ : Unit) => s.Sound server) (d := ())
    (fun _ _ _ _ _ h hcall => h.apply hs hcall) sound_fresh hrun

/-- What a client finds that reads all that was sent: the lines of some headers, which are those
that are kept, each whole, and behind them the output. -/
def ReadsBack (server : Server) (s : Sending) : Prop :=
  ∃ (h : SapiHeaders) (block : Bytes), s.block = some block ∧ h.headers = s.sapi.headers ∧
    (∀ line ∈ sentLines server h, PlainLine line) ∧
    readLines carriageReturn lineFeed [] (block ++ s.output.sent) =
      (sentLines server h, s.output.sent)

theorem Sound.readsBack (h : s.Sound server) (hs : server.Plain) {block : Bytes}
    (hb : s.block = some block) : s.ReadsBack server := by
  obtain ⟨h, rfl, plain, hheaders⟩ := h.sent block hb
  have hlines := plain_sentLines hs plain
  refine ⟨h, _, hb, hheaders, ?_, ?_⟩
  · intro line hl
    exact (hlines line hl).1
  · apply readLines_writeLines (by decide)
    · intro line hl
      exact (hlines line hl).2
    · intro line hl
      exact (plainLine_iff.mp (hlines line hl).1).1

/-- The end of the request keeps the answer sound, and sends its headers. -/
theorem Sound.shutdown (h : s.Sound server) : (s.shutdown server).Sound server := by
  obtain ⟨output, houtput⟩ : ∃ output, output = if server.headersOnly then
    s.output.phpOutputDiscardAll else s.output.phpOutputEndAll := ⟨_, rfl⟩
  have hsettled := h.settle output
  have hend : s.shutdown server = { { s with output := output }.settle server with
      block := some (({ s with output := output }.settle server).block.getD
        (sapiSendHeaders server s.sapi)) } := by
    rw [houtput]
    rfl
  rw [hend]
  refine ⟨hsettled.plain, ?_, ?_, hsettled.bare⟩
  · intro hb
    cases hb
  · intro block hb
    have hblock := Option.some.inj hb
    cases hset : ({ s with output := output }.settle server).block with
    | none =>
      rw [hset] at hblock
      exact ⟨s.sapi, hblock.symm, h.plain, rfl⟩
    | some block' =>
      rw [hset] at hblock
      exact hblock ▸ hsettled.sent block' hset

/-- Nothing is left in a buffer when the request has ended. -/
theorem output_shutdown (headersOnly : server.headersOnly = false) :
    (s.shutdown server).output =
      ⟨[], s.output.sent ++ s.output.handlers.reverse.flatMap OutputBuffer.data⟩ := by
  rw [← phpOutputEndAll_eq]
  change leaving server (if server.headersOnly then s.output.phpOutputDiscardAll
    else s.output.phpOutputEndAll) = _
  rw [headersOnly]
  unfold leaving
  rw [headersOnly]
  rfl

/-- However a request makes its answer, a client that reads what was sent finds the status, the
server's lines and the headers as they are kept, each whole, and behind them the output; behind the
headers alone where only they were asked for, there is nothing. When the request has ended, the
headers are sent in any case, and all that was still in the buffers. -/
theorem wire_reads_back {β : Type} {p : Client AnswerCall Zval β} {b : β} (hs : server.Plain)
    (hrun : p.run (apply server) {} = .ok (b, s)) :
    (s.block = none ∧ s.output.sent = [] ∨ s.ReadsBack server) ∧
      (s.shutdown server).ReadsBack server ∧
      (server.headersOnly = true → s.output.sent = [] ∧ (s.shutdown server).output.sent = []) ∧
      (server.headersOnly = false → (s.shutdown server).output =
        ⟨[], s.output.sent ++ s.output.handlers.reverse.flatMap OutputBuffer.data⟩) := by
  have hsound := run_sound hs hrun
  refine ⟨?_, hsound.shutdown.readsBack hs rfl, fun hbare => ?_, output_shutdown⟩
  · cases hb : s.block with
    | none => exact Or.inl ⟨rfl, hsound.unsent hb⟩
    | some block => exact Or.inr (hsound.readsBack hs hb)
  · exact ⟨hsound.bare hbare, hsound.shutdown.bare hbare⟩

def sampleServer : Server where
  requestMethod := some (lit "GET")
  protoNum := 1001
  defaultCharset := lit "UTF-8"
  defaultContentType := lit "text/html; charset=UTF-8"
  protocol := lit "HTTP/1.1"
  statusString code := if code = 404 then lit "Not Found" else lit "OK"
  essential := [lit "Host: localhost", lit "Connection: close"]

theorem sampleServer_plain : sampleServer.Plain := by
  refine ⟨rfl, rfl, rfl, by decide, ?_, ?_⟩
  · intro code
    unfold sampleServer
    simp only
    split
    · rfl
    · rfl
  · intro line hl
    unfold sampleServer at hl
    simp only at hl
    rcases List.mem_cons.mp hl with rfl | hl
    · exact ⟨rfl, by decide⟩
    · rw [List.mem_singleton.mp hl]
      exact ⟨rfl, by decide⟩

/-- A page that is not found, with a header of its own. -/
def samplePage : Client AnswerCall Zval Zval :=
  .call (.headers (.setHeader (lit "X-Page") (lit "none") true 404)) fun _ =>
    .call (.body (.setBody (lit "gone") none)) .done

theorem wire_reads_back_page :
    ∃ s, (samplePage.bind fun _ => .call .response .done).run (apply sampleServer) {} =
        .ok (.bool true, s) ∧
      (s.block = none ∧ s.output.sent = [] ∨ s.ReadsBack sampleServer) ∧
      (s.shutdown sampleServer).ReadsBack sampleServer ∧
      (sampleServer.headersOnly = true →
        s.output.sent = [] ∧ (s.shutdown sampleServer).output.sent = []) ∧
      (sampleServer.headersOnly = false → (s.shutdown sampleServer).output =
        ⟨[], s.output.sent ++ s.output.handlers.reverse.flatMap OutputBuffer.data⟩) := by
  obtain ⟨s, hrun⟩ : ∃ s, (samplePage.bind fun _ => .call .response .done).run
      (apply sampleServer) {} = .ok (.bool true, s) := ⟨_, rfl⟩
  exact ⟨s, hrun, wire_reads_back sampleServer_plain hrun⟩

end Sending
end Yaf
