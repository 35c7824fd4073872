import Jubilee.Common.Split
import Jubilee.Runtime.Ruby
import Jubilee.Runtime.Vertx
/-!
# Response — the model

What `Jubilee::Response` makes of an application's result: the headers
are put one by one, `Content-Length` and `Transfer-Encoding` are noted on
the way, and the body is framed by what was noted last. Everything goes
to the Vert.x response through `RubyHttpServerResponse`, which decodes
Ruby strings and cuts header values into lines.
-/

namespace Jubilee

namespace Response

/-! ## `RubyHttpServerResponse` -/

/-- The values that the property `line.separator` has. -/
inductive LineSeparator
  | lf
  | crlf
  | cr
  deriving DecidableEq

/-- The separator as a string. -/
def LineSeparator.chars : LineSeparator → JString
  | .lf => ['\n']
  | .crlf => ['\r', '\n']
  | .cr => ['\r']

/-- The decoders of the Java platform that the encodings of Ruby strings
name. -/
structure Decoders where
  utf8 : Utf8Decoder
  other : ℕ → Bytes → JString

/-- `asJavaString`: a string decoded by its encoding. -/
def asJavaString (decoders : Decoders) (s : RubyString) : JString :=
  match s.encoding with
  | .usAscii => s.bytes.map fun b => if b < 128 then Char.ofNat b.toNat else replacement
  | .utf8 => decoders.utf8.decode s.bytes
  | .ascii8bit => s.bytes.map fun b => Char.ofNat b.toNat
  | .other index => decoders.other index s.bytes

/-- The Vert.x response, and what it is reached through. -/
structure RubyHttpServerResponse (σ : Type*) where
  resp : HttpServerResponse σ
  lineSeparator : LineSeparator
  decoders : Decoders

/-- The value of a response header: `nil` or `false`, a string as
`asJavaString` gives it, or an object that is no string, with its
`to_s`. -/
inductive HeaderValue
  | falsy
  | text (value : JString)
  | object (toS : JString)
  deriving DecidableEq

namespace RubyHttpServerResponse

variable {σ : Type*} (response : RubyHttpServerResponse σ)

/-- `write`. -/
def write (string : RubyString) : Act σ Raised Unit :=
  response.resp.write (asJavaString response.decoders string)

/-- `status_code=`. -/
def setStatusCode (statusCode : ℤ) : Act σ Raised Unit :=
  match num2int (.int statusCode) with
  | .ok status => response.resp.setStatusCode status
  | .error e => Act.raise e

/-- `chunked=`. -/
def setChunked (chunked : Bool) : Act σ Raised Unit := response.resp.setChunked chunked

/-- `put_header`. -/
def putHeader (key : JString) : HeaderValue → Act σ Raised Unit
  | .text val =>
    if occurs response.lineSeparator.chars val then
      response.resp.putHeader key (split response.lineSeparator.chars val)
    else response.resp.putHeader key [val]
  | _ => Act.raise .typeError

/-- `put_default_headers`. -/
def putDefaultHeaders : Act σ Raised Unit :=
  response.resp.putHeader "Server".toList ["Jubilee(3.0.0)".toList]

end RubyHttpServerResponse

/-! ## Chunks the application made itself -/

/-- The terminator `0\r\n\r\n`. -/
def tail : Bytes := [48, 13, 10, 13, 10]

/-- `[0-9a-fA-F]`. -/
def isHexDigit (b : UInt8) : Bool :=
  (48 ≤ b && b ≤ 57) || (65 ≤ b && b ≤ 70) || (97 ≤ b && b ≤ 102)

/-- The number that hex digits denote. -/
def hexValue (digits : Bytes) : ℕ :=
  digits.foldl (fun n b =>
    16 * n + (if b ≤ 57 then b.toNat - 48 else if b ≤ 70 then b.toNat - 55 else b.toNat - 87)) 0

/-- What stands before the last `\r\n`. -/
def beforeLastTerm : Bytes → Option Bytes
  | [] => none
  | b :: bs =>
    match beforeLastTerm bs with
    | some p => some (b :: p)
    | none => if b = 13 ∧ bs.head? = some 10 then some [] else none

/-- `term_regex`, tried at one place: the two groups. The digits are
followed by something that is no digit, so they are all the digits there
are, and the second group is as long as it can be. -/
def matchHere (bs : Bytes) : Option (Bytes × Bytes) :=
  let size := bs.takeWhile isHexDigit
  if size = [] then none
  else
    match bs.drop size.length with
    | 13 :: 10 :: b :: rest => (beforeLastTerm rest).map fun p => (size, b :: p)
    | _ => none

/-- `term_regex`: its first match at the start of a line. -/
def termRegex (lineStart : Bool) : Bytes → Option (Bytes × Bytes)
  | [] => none
  | b :: bs =>
    (if lineStart then matchHere (b :: bs) else none).or (termRegex (b = 10) bs)

/-- `strip_term_markers`, for a string. -/
def stripTermMarkers (chunk : RubyString) : Option RubyString :=
  if chunk.bytes = tail then none
  else
    match termRegex true chunk.bytes with
    | some (size, data) =>
      some (if hexValue size = data.length then { chunk with bytes := data } else chunk)
    | none => some chunk

/-! ## `Jubilee::Response` -/

/-- `CONTENT_LENGTH`. -/
def CONTENT_LENGTH : JString := "Content-Length".toList

/-- `TRANSFER_ENCODING`. -/
def TRANSFER_ENCODING : JString := "Transfer-Encoding".toList

/-- `HIJACK`. -/
def HIJACK : JString := "rack.hijack".toList

/-- `CHUNKED`. -/
def CHUNKED : JString := "chunked".toList

/-- The headers of a result: a Ruby hash, in its order. -/
structure Headers where
  entries : List (JString × HeaderValue)
  nodup : (entries.map Prod.fst).Nodup

/-- The body of a result: whether it is an `Array`, the parts that `each`
yields, each a string or `nil`, and what it raises after them, if it does
not return. -/
structure Body where
  isArray : Bool
  parts : List (Option RubyString)
  raises : Option Raised
  deriving DecidableEq

end Response

/-- `Jubilee::Response`. -/
structure Response where
  status : ℤ
  headers : Response.Headers
  body : Response.Body
  contentLength : Response.HeaderValue
  chunked : Bool
  hijack : Response.HeaderValue

namespace Response

/-- A number's `to_s`. -/
def HeaderValue.ofNat (n : ℕ) : HeaderValue := .object (toString n).toList

/-- The length that `initialize` takes from a body of one part. -/
def Body.contentLength (body : Body) : HeaderValue :=
  match body.isArray, body.parts with
  | true, [none] => .ofNat 0
  | true, [some part] => .ofNat part.bytes.length
  | _, _ => .falsy

/-- `initialize`. -/
def new (status : ℤ) (headers : Headers) (body : Body) : Response :=
  ⟨status, headers, body, body.contentLength, false, .falsy⟩

variable {σ : Type*} (response : RubyHttpServerResponse σ)

/-- `write_status`. -/
def writeStatus (r : Response) : Act σ Raised Unit := response.setStatusCode r.status

/-- The loop of `write_headers`, over the entries that are left. -/
def writeHeaders' : List (JString × HeaderValue) → Response → Act σ Raised Response
  | [], r => pure r
  | (key, values) :: entries, r =>
    -- only noted: `write_body` puts the length that was noted last
    if key = CONTENT_LENGTH then writeHeaders' entries { r with contentLength := values }
    else if key = TRANSFER_ENCODING then do
      -- put like any other header, and what was noted of the length is dropped
      let r :=
        if values = .text CHUNKED then { r with chunked := true, contentLength := .falsy }
        else { r with chunked := false }
      response.putHeader key values
      writeHeaders' entries r
    else if key = HIJACK then writeHeaders' entries { r with hijack := values }
    else do
      response.putHeader key values
      writeHeaders' entries r

/-- `write_headers`. -/
def writeHeaders (r : Response) : Act σ Raised Response :=
  writeHeaders' response r.headers.entries r

/-- The block of `write_body`. -/
def writePart (chunked : Bool) (part : Option RubyString) : Act σ Raised Unit :=
  match if chunked then part.bind stripTermMarkers else part with
  | some chunk => response.write chunk
  | none => pure ()

/-- `@body.each`. -/
def Body.each (body : Body) (block : Option RubyString → Act σ Raised Unit) :
    Act σ Raised Unit := do
  body.parts.forM block
  match body.raises with
  | some e => Act.raise e
  | none => pure ()

/-- `write_body`. -/
def writeBody (r : Response) : Act σ Raised Unit := do
  response.putDefaultHeaders
  match r.contentLength with
  | .falsy => response.setChunked true
  | .text value => response.putHeader CONTENT_LENGTH (.text value)
  | .object toS => response.putHeader CONTENT_LENGTH (.text toS)
  r.body.each (writePart response r.chunked)

end Response

end Jubilee
