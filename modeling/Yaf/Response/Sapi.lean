import Yaf.Base.Lines
import Yaf.Php.Numeric
import Yaf.Route.Scalars

namespace Yaf
open Base

def lineFeed : UInt8 := 10
def carriageReturn : UInt8 := 13

/-- The headers of the answer, kept by the server interface until they are sent. -/
structure SapiHeaders where
  headers : List Bytes := []
  httpResponseCode : Int := 200
  httpStatusLine : Option Bytes := none
  sendDefaultContentType : Bool := true
  deriving DecidableEq, Repr

/-- What the server interface knows of the request, and the settings it reads. The lines the server
adds itself are its own, like the text it has for a status. -/
structure Server where
  requestMethod : Option Bytes
  protoNum : Int
  defaultCharset : Bytes
  defaultContentType : Bytes
  protocol : Bytes
  statusString : Int → Bytes
  essential : List Bytes

/-- `headers_only`, as `sapi_activate` sets it. -/
def Server.headersOnly (server : Server) : Bool := server.requestMethod = some (lit "HEAD")

/-- `sapi_header_op_enum`, with the argument. -/
inductive SapiHeaderOp where
  | setStatus (code : Int)
  | add (line : Bytes) (code : Int)
  | replace (line : Bytes) (code : Int)
  | delete (line : Bytes)
  | deleteAll
  deriving DecidableEq, Repr

/-- `sapi_extract_response_code`: what stands behind the first space that no space follows. -/
def sapiExtractResponseCode : Bytes → Int
  | [] => 200
  | c :: s => if c = blank ∧ s.head? ≠ some blank then atoi s else sapiExtractResponseCode s

/-- The header has this name. -/
def isNamed (name header : Bytes) : Bool :=
  header[name.length]? == some colon && strncasecmp header name name.length

namespace SapiHeaders

/-- `sapi_update_response_code` -/
def updateResponseCode (h : SapiHeaders) (ncode : Int) : SapiHeaders :=
  if h.httpResponseCode = ncode then h
  else { h with httpStatusLine := none, httpResponseCode := ncode }

/-- `sapi_remove_header` -/
def removeHeader (h : SapiHeaders) (name : Bytes) : SapiHeaders :=
  { h with headers := h.headers.filter fun header => !isNamed name header }

/-- `sapi_header_add_op` without a handler of the server's own. The length of the name is an `int`
on its way: no header is as long as a negative one makes the name. -/
def headerAddOp (h : SapiHeaders) (replace : Bool) (header : Bytes) : SapiHeaders :=
  let h :=
    if replace && header.contains colon then
      match intPrefix (header.takeWhile (· != colon)) with
      | none => h
      | some name => h.removeHeader name
    else h
  { h with headers := h.headers ++ [header] }

end SapiHeaders

/-- `sapi_apply_default_charset`, none where the type stays. -/
def sapiApplyDefaultCharset (charset mimetype : Bytes) : Option Bytes :=
  if !charset.isEmpty && (lit "text/").isPrefixOf mimetype &&
      !mimetype.tails.any (lit "charset=").isPrefixOf then
    some (mimetype ++ lit ";charset=" ++ charset)
  else none

/-- The header as it is kept: a type of content may get a character set. -/
def keptHeader (server : Server) (line : Bytes) : Bytes :=
  if line.contains colon && equalsCi (line.takeWhile (· != colon)) (lit "Content-Type") then
    let mimetype := ((line.dropWhile (· != colon)).drop 1).dropWhile (· == blank)
    match sapiApplyDefaultCharset server.defaultCharset mimetype with
    | none => line
    | some newtype => uintPrefix (lit "Content-type: " ++ newtype)
  else line

/-- A status line, not a header. -/
def isStatusLine (line : Bytes) : Bool := 5 ≤ line.length && strncasecmp line (lit "HTTP/") 5

/-- What a header with a meaning for the status makes of it. -/
def noteHeader (server : Server) (line : Bytes) (code : Int) (h : SapiHeaders) : SapiHeaders :=
  let name := line.takeWhile (· != colon)
  if line.contains colon then
    if equalsCi name (lit "Content-Type") then { h with sendDefaultContentType := false }
    else if equalsCi name (lit "Location") then
      if (h.httpResponseCode < 300 ∨ 399 < h.httpResponseCode) ∧ h.httpResponseCode ≠ 201 then
        if code ≠ 0 then h.updateResponseCode code
        else if 1000 < server.protoNum ∧ server.requestMethod.isSome = true ∧
            server.requestMethod ≠ some (lit "HEAD") ∧ server.requestMethod ≠ some (lit "GET") then
          h.updateResponseCode 303
        else h.updateResponseCode 302
      else h
    else if equalsCi name (lit "WWW-Authenticate") then h.updateResponseCode 401
    else h
  else h

def endsLine (c : UInt8) : Bool := c == lineFeed || c == carriageReturn || c == NUL

/-- A header is refused with a line end or a NUL in it. The index of the check is a `uint`: on a
line it cannot come to the end of, without such a byte before, the loop has no end, and this no
answer. -/
def breaksLine (line : Bytes) : Option Bool :=
  if line.length < 2 ^ 32 then some (line.any endsLine)
  else if (line.take (2 ^ 32)).any endsLine then some true
  else none

/-- `sapi_header_op` for one line to set. -/
def setHeaderLine (server : Server) (replace : Bool) (line : Bytes) (code : Int)
    (h : SapiHeaders) : Option (Bool × SapiHeaders) :=
  if line.isEmpty then some (false, h)
  else
    let line := trimRight isSpace line
    (breaksLine line).map fun breaks =>
      if breaks then (false, h)
      else if isStatusLine line then
        (true,
          { h.updateResponseCode (sapiExtractResponseCode line) with httpStatusLine := some line })
      else
        let h := noteHeader server line code h
        let h := if code ≠ 0 then h.updateResponseCode code else h
        (true, h.headerAddOp replace (keptHeader server line))

/-- `sapi_header_op`, as long as nothing is sent; none where it does not come back. -/
def sapiHeaderOp (server : Server) (h : SapiHeaders) : SapiHeaderOp → Option (Bool × SapiHeaders)
  | .setStatus code => some (true, h.updateResponseCode code)
  | .add line code => setHeaderLine server false line code h
  | .replace line code => setHeaderLine server true line code h
  | .delete line =>
    if line.isEmpty then some (false, h)
    else if (cstr (trimRight isSpace line)).contains colon then some (false, h)
    else some (true, h.removeHeader (trimRight isSpace line))
  | .deleteAll => some (true, { h with headers := [] })

/-- `append_http_status_line`, without its end. -/
def statusLine (server : Server) (h : SapiHeaders) : Bytes :=
  h.httpStatusLine.getD
    (let code := if h.httpResponseCode = 0 then 200 else h.httpResponseCode
     server.protocol ++ blank :: longText code ++ blank :: server.statusString code)

/-- The lines `sapi_send_headers` sends: the status, the server's own, and those that were set. -/
def sentLines (server : Server) (h : SapiHeaders) : List Bytes :=
  let h := if h.sendDefaultContentType && !server.defaultContentType.isEmpty then
      h.headerAddOp false (lit "Content-type: " ++ server.defaultContentType)
    else h
  statusLine server h :: server.essential ++ h.headers.filter fun header => !header.isEmpty

/-- `sapi_send_headers` over `sapi_cli_server_send_headers`. -/
def sapiSendHeaders (server : Server) (h : SapiHeaders) : Bytes :=
  writeLines carriageReturn lineFeed (sentLines server h) ++ [carriageReturn, lineFeed]

end Yaf
