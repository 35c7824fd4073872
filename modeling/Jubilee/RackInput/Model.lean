import Jubilee.Common.Thread
import Jubilee.Runtime.Java
/-!
# Rack input — the model

`RubyIORackInput` and the request body under it. Vert.x appends the
chunks of the body to `bodyBuf` and sets `eof` after the last one; the
thread that runs the application reads, and spins where it must wait.
Each access to the buffer or to `eof` is one step, so the methods of
the class are threads, with a control point before each access.
-/

namespace Jubilee

namespace RackInput

/-- `Const.EOL`. -/
def EOL : UInt8 := 10

/-! ## The request body, and who fills it -/

/-- One request's body: the buffer and the flag that Vert.x's handlers
and the application share, and the chunks Vert.x has still to deliver. -/
structure Upload where
  bodyBuf : ByteBuf
  eof : Bool
  pending : List Bytes
  deriving DecidableEq

/-- `request.handler`. -/
def handler (buffer : Bytes) (u : Upload) : Upload :=
  { u with bodyBuf := u.bodyBuf.writeBytes buffer }

/-- `request.endHandler`. -/
def endHandler (u : Upload) : Upload := { u with eof := true }

/-- What Vert.x does next to a body. -/
inductive Arrival
  | data
  | finish
  deriving DecidableEq

/-- Vert.x calls `handler` with the chunks in order, and `endHandler`
once, after the last of them. -/
def arrive : Arrival → Upload → Option Upload
  | .data, u =>
    match u.pending with
    | chunk :: chunks =>
      if u.eof then none else some { handler chunk u with pending := chunks }
    | [] => none
  | .finish, u => if u.pending = [] ∧ u.eof = false then some (endHandler u) else none

/-- `RackApplication.call`: an empty buffer, and `eof` not set. -/
def Upload.start (chunks : List Bytes) : Upload := ⟨.empty, false, chunks⟩

/-! ## The input -/

/-- The fields of `RubyIORackInput` that no method changes. -/
structure RubyIORackInput where
  len : ℤ
  chunked : Bool
  deriving DecidableEq

/-- The constructor, from the value of the `Content-Length` header. -/
def RubyIORackInput.new : Option JString → Except Raised RubyIORackInput
  | none => .ok ⟨0, true⟩
  | some hdr => (parseInt hdr).map fun n => ⟨n, false⟩

/-- What a method returns: a string, `nil`, or an exception. -/
abbrev Result := Except Raised (Option Bytes)

variable (io : RubyIORackInput)

/-- `readableBytes`. -/
def readableBytes (u : Upload) : ℤ :=
  if io.chunked then u.bodyBuf.readableBytes
  else min (u.bodyBuf.readableBytes : ℤ) (io.len - u.bodyBuf.readerIndex)

/-- The control points of `isEOF`: the two accesses of the loop's test,
and the two of the returned conjunction. -/
inductive IsEOF
  | loopReadable
  | loopEof
  | returnReadable
  | returnEof
  deriving DecidableEq

/-- `isEOF`. -/
def isEOF : Thread Upload IsEOF Bool where
  step
    | .loopReadable, u =>
      (.goto (if u.bodyBuf.readableBytes = 0 then .loopEof else .returnReadable), u)
    | .loopEof, u => (.goto (if u.eof then .returnReadable else .loopReadable), u)
    -- the conjunction looks at the buffer again, and at `eof` only if it is empty
    | .returnReadable, u =>
      (if u.bodyBuf.readableBytes = 0 then .goto .returnEof else .done false, u)
    | .returnEof, u => (.done u.eof, u)

/-- The control points of `readAll`. -/
inductive ReadAll
  | waitEof
  | readable
  | readBytes (length : ℤ)
  deriving DecidableEq

/-- `readAll`. -/
def readAll (dst : Bytes) : Thread Upload ReadAll Result where
  step
    | .waitEof, u => (.goto (if u.eof then .readable else .waitEof), u)
    -- the cap is the declared length, not what is left of it
    | .readable, u =>
      let length : ℤ :=
        if io.chunked then u.bodyBuf.readableBytes else min io.len u.bodyBuf.readableBytes
      (if length < 0 then .done (.error .negativeArraySize) else .goto (.readBytes length), u)
    | .readBytes length, u =>
      match u.bodyBuf.readBytes length with
      | .error f => (.done (.error (.ofFault f)), u)
      | .ok (data, buf) =>
        (.done (.ok (if dst ++ data = [] then none else some (dst ++ data))),
          { u with bodyBuf := buf })

/-- The control points of `gets`. The first scan for a line end and the
scan of the loop's body are one point. -/
inductive Gets
  | isEOF (e : IsEOF)
  | indexOf
  | eofGet
  | readAll (a : ReadAll)
  | readLine (lineEnd : ℤ)
  deriving DecidableEq

/-- Where `gets` starts. -/
def Gets.entry : Gets := .isEOF .loopReadable

/-- `gets`. -/
def gets : Thread Upload Gets Result where
  step
    | .isEOF e, u =>
      isEOF.call .isEOF (fun eof => if eof then .done (.ok none) else .goto .indexOf) e u
    | .indexOf, u =>
      let lineEnd := u.bodyBuf.indexOf u.bodyBuf.readerIndex u.bodyBuf.writerIndex EOL
      (.goto (if lineEnd = -1 then .eofGet else .readLine lineEnd), u)
    -- a scan that found nothing: leave the loop on `eof`, else scan again
    | .eofGet, u => (.goto (if u.eof then .readAll .waitEof else .indexOf), u)
    | .readAll a, u => (readAll io []).call .readAll .done a u
    | .readLine lineEnd, u =>
      let readLength := lineEnd - u.bodyBuf.readerIndex
      match u.bodyBuf.readBytes (readLength + 1) with
      | .error f => (.done (.error (.ofFault f)), u)
      | .ok (dst, buf) => (.done (.ok (some dst)), { u with bodyBuf := buf })

/-- The arguments of `read`: `[length, [buffer]]`. A buffer is given by
what it holds when the call is made. -/
inductive ReadArgs
  | none
  | length (length : IntArg)
  | buffer (length : IntArg) (dst : Bytes)
  deriving DecidableEq

/-- The locals of `read`'s loop. `buffer` is the part of the array that
is filled, which is all of it but the last `toRead` bytes. -/
structure ReadLoop where
  toRead : ℕ
  buffer : Bytes
  dst : Bytes
  deriving DecidableEq

/-- The control points of `read`. -/
inductive Read
  | isEOF (e : IsEOF)
  | readAll (a : ReadAll)
  | loopEOF (e : IsEOF) (l : ReadLoop)
  | loopReadable (l : ReadLoop)
  | loopReadBytes (len : ℤ) (l : ReadLoop)
  deriving DecidableEq

/-- Where `read` starts. -/
def Read.entry : Read := .isEOF .loopReadable

/-- What `read` returns when its loop is left. -/
def ReadLoop.result (l : ReadLoop) : Result := .ok (some (l.dst ++ l.buffer))

/-- The first half of the loop's test, `toRead > 0`. -/
def ReadLoop.test (l : ReadLoop) : Next Read Result :=
  if 0 < l.toRead then .goto (.loopEOF .loopReadable l) else .done l.result

/-- The array and the loop for a length. A negative length is not
refused: the `ArgumentError` is built and never thrown. -/
def Read.allocate (dst : Bytes) : Except Raised ℤ → Next Read Result
  | .error e => .done (.error e)
  | .ok length =>
    if length < 0 then .done (.error .negativeArraySize)
    else ReadLoop.test ⟨length.toNat, [], dst⟩

/-- `read` after its first test: what the arguments ask for. -/
def Read.start : ReadArgs → Next Read Result
  | .none => .goto (.readAll .waitEof)
  | .length length => Read.allocate [] (num2int length)
  | .buffer length dst => Read.allocate dst (num2int length)

/-- `read`. -/
def read (args : ReadArgs) : Thread Upload Read Result where
  step
    -- at the end the arguments are not looked at
    | .isEOF e, u =>
      isEOF.call .isEOF (fun eof => if eof then .done (.ok (some [])) else Read.start args) e u
    | .readAll a, u => (readAll io []).call .readAll .done a u
    | .loopEOF e l, u =>
      isEOF.call (.loopEOF · l)
        (fun eof => if eof then .done l.result else .goto (.loopReadable l)) e u
    -- what is counted here is read in a later step
    | .loopReadable l, u => (.goto (.loopReadBytes (min l.toRead (readableBytes io u)) l), u)
    | .loopReadBytes len l, u =>
      match u.bodyBuf.readBytes len with
      | .error f => (.done (.error (.ofFault f)), u)
      | .ok (data, buf) =>
        (ReadLoop.test
          { l with toRead := l.toRead - data.length, buffer := l.buffer ++ data },
          { u with bodyBuf := buf })

/-- `rewind`, which is one access. -/
def rewind (u : Upload) : Upload := { u with bodyBuf := u.bodyBuf.rewind }

end RackInput

end Jubilee
