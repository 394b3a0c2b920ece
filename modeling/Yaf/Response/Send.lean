import Yaf.Base.Client
import Yaf.Php.Output
import Yaf.Response
import Yaf.Response.Headers
import Yaf.Response.Sapi

namespace Yaf
open Base Output

/-- The answer to a request as it is made: the headers kept, what was sent of them, the output, and
the response object. -/
structure Sending where
  sapi : SapiHeaders := {}
  block : Option Bytes := none
  output : Output := ⟨[], []⟩
  response : HttpResponse := {}
  body : ResponseBody := []

namespace Sending
variable (server : Server)

/-- What leaves the engine of an output: `PHP_OUTPUT_DISABLED` is set as the headers leave where
only they are asked for, and nothing does. -/
def leaving (o : Output) : Output := if server.headersOnly then { o with sent := [] } else o

/-- `php_output_header`, and the write behind it: the headers leave before the first byte. -/
def settle (s : Sending) : Sending :=
  { s with
    block :=
      if s.block.isNone && !s.output.sent.isEmpty then some (sapiSendHeaders server s.sapi)
      else s.block
    output := leaving server s.output }

/-- The end of a request, by `php_request_shutdown`: the buffers are sent, or dropped where only the
headers are asked for, and `php_output_deactivate` sends the headers if they are not sent yet. -/
def shutdown (s : Sending) : Sending :=
  let output := if server.headersOnly then s.output.phpOutputDiscardAll
    else s.output.phpOutputEndAll
  let s := { s with output }.settle server
  { s with block := some (s.block.getD (sapiSendHeaders server s.sapi)) }

/-- `sapi_header_op`: it fails once the headers are sent. -/
def headerOp (s : Sending) (op : SapiHeaderOp) : Option (Bool × Sending) :=
  match s.block with
  | some _ => some (false, s)
  | none => (sapiHeaderOp server s.sapi op).map fun r => (r.1, { s with sapi := r.2 })

/-- `setRedirect`, by `yaf_response_set_redirect`. -/
def setRedirect (s : Sending) (url : Bytes) : Option (Bool × Sending) :=
  if url.isEmpty then some (false, s)
  else s.headerOp server (.replace (lit "Location: " ++ cstr url) 0)

/-- The line of a stored header. An integer key is printed as an unsigned number. -/
def headerLine (p : Key × Bytes) : Bytes :=
  match p.1 with
  | .name headerName => cstr headerName ++ lit ": " ++ cstr p.2
  | .index numKey => longText (numKey % 2 ^ 64) ++ lit ": " ++ cstr p.2

/-- The loop of `yaf_response_http_send` over the headers. -/
def sendHeaders (s : Sending) : Table Key Bytes → Option (Bool × Sending)
  | [] => some (true, s)
  | p :: ps =>
    (s.headerOp server (.replace (headerLine p) 0)).bind fun r =>
      if r.1 then r.2.sendHeaders ps else some (false, r.2)

/-- The code of the response is set as it is, whatever is sent. -/
def withCode (s : Sending) : Sending :=
  if s.response.responseCode = 0 then s
  else { s with sapi.httpResponseCode := s.response.responseCode.bmod (2 ^ 32) }

def writeSegment (o : Output) (p : Key × Bytes) : Output := o.write p.2

/-- `response`, by `yaf_response_http_send`. -/
def httpSend (s : Sending) : Option (Bool × Sending) :=
  (s.withCode.sendHeaders server s.response.header).map fun r =>
    if r.1 then (true, { r.2 with output := r.2.body.foldl writeSegment r.2.output }.settle server)
    else r

end Sending

/-- What a request can do to its answer: `header` and its like, the response object, the output. -/
inductive AnswerCall where
  | header (op : SapiHeaderOp)
  | setRedirect (url : Bytes)
  | headers (call : HeaderCall)
  | body (call : BodyCall)
  | response
  | output (call : OutputCall)
  deriving DecidableEq, Repr

namespace Sending
variable (server : Server)

/-- A call, with what it returns; an object that comes back is true here. A body call that faults
ends the request, and so does one that does not come back. -/
def apply (s : Sending) : AnswerCall → Except Unit (Zval × Sending)
  | .header op =>
    match s.headerOp server op with
    | none => .error ()
    | some r => .ok (.null, r.2)
  | .setRedirect url =>
    match s.setRedirect server url with
    | none => .error ()
    | some r => .ok (.bool r.1, r.2)
  | .headers call => .ok (.bool true, { s with response := call.apply s.response })
  | .body call =>
    match call.apply s.body with
    | none => .error ()
    | some body => .ok (.bool true, { s with body })
  | .response =>
    match s.httpSend server with
    | none => .error ()
    | some r => .ok (.bool r.1, r.2)
  | .output call =>
    .ok ((call.apply s.output).1, { s with output := (call.apply s.output).2 }.settle server)

end Sending
end Yaf
