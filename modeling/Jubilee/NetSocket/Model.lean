import Jubilee.Common.Run
import Jubilee.Common.Thread
import Jubilee.Runtime.Java
/-!
# Net socket — the model

`RubyNetSocket`, the socket that a hijacked request is left with. Vert.x
calls its handler with what is received, and `read` takes it from a
buffer of fixed capacity. The two run on different threads: each access
to what they share is one step.
-/

namespace Jubilee

namespace NetSocket

/-! ## The socket, and who fills its buffer -/

/-- `BUFSIZE`. -/
def BUFSIZE : ℕ := 4096 * 2

/-- The fields of `RubyNetSocket` that `read` and the handlers use, whether
Vert.x is paused, and the buffer its handler is at work on, with what
`isWritable` said of it. -/
structure RubyNetSocket where
  buf : ByteBuf
  eof : Bool
  readClosed : Bool
  paused : Bool
  handling : Option (Bytes × Bool)
  deriving DecidableEq

/-- The constructor. -/
def RubyNetSocket.new : RubyNetSocket := ⟨.empty, false, false, false, none⟩

/-- `isWritable`, of a buffer with the capacity `BUFSIZE`. -/
def isWritable (buf : ByteBuf) (numBytes : ℕ) : Bool := buf.writerIndex + numBytes ≤ BUFSIZE

/-- What happens on Vert.x's thread. -/
inductive Event
  /-- The handler is called, and asks whether the buffer fits. -/
  | data (buffer : Bytes)
  /-- The handler does the rest. -/
  | handle
  | finish
  deriving DecidableEq

/-- An event, if it is possible. Nothing is delivered while Vert.x is
paused, or after the end. -/
def happen : Event → RubyNetSocket → Option RubyNetSocket
  | .data buffer, s =>
    if s.paused ∨ s.eof ∨ s.handling.isSome then none
    else some { s with handling := some (buffer, isWritable s.buf buffer.length) }
  | .handle, s =>
    match s.handling with
    | some (buffer, true) => some { s with buf := s.buf.writeBytes buffer, handling := none }
    -- the buffer itself is kept nowhere
    | some (_, false) => some { s with paused := true, handling := none }
    | none => none
  | .finish, s => if s.eof ∨ s.handling.isSome then none else some { s with eof := true }

/-! ## `read` -/

/-- The locals of `read`. -/
structure ReadLoop where
  length : ℤ
  data : Bytes
  deriving DecidableEq

/-- The control points of `read`. -/
inductive Read
  | entry (length : IntArg) (dst : Option Bytes)
  | testEof (l : ReadLoop)
  | testReadable (l : ReadLoop)
  | clear (l : ReadLoop)
  | resume (l : ReadLoop)
  | waitReadable (l : ReadLoop)
  | loopEof (l : ReadLoop)
  | loopReadable (l : ReadLoop)
  | loopReadBytes (readedLength : ℕ) (l : ReadLoop)
  deriving DecidableEq

/-- What `read` returns: a string, or an exception. -/
abbrev Result := Except Raised Bytes

/-- The array `data`: a new one, or a copy of the caller's string. -/
def allocate (dst : Option Bytes) (length : ℤ) : Except Raised ReadLoop :=
  match dst with
  | some dst => .ok ⟨length, dst⟩
  | none =>
    if length < 0 then .error .negativeArraySize
    else .ok ⟨length, List.replicate length.toNat 0⟩

/-- What `read` does with its arguments. -/
def Read.start (length : IntArg) (dst : Option Bytes) : Next Read Result :=
  match num2int length >>= allocate dst with
  | .error e => .done (.error e)
  | .ok l => .goto (.testEof l)

/-- `read`. -/
def read : Thread RubyNetSocket Read Result where
  step
    | .entry length dst, s =>
      -- an `IOError`
      (if s.readClosed then .done (.error (.other false)) else Read.start length dst, s)
    | .testEof l, s => (.goto (if s.eof then .waitReadable l else .testReadable l), s)
    | .testReadable l, s =>
      (.goto (if s.buf.readableBytes = 0 then .clear l else .waitReadable l), s)
    | .clear l, s => (.goto (.resume l), { s with buf := .clear })
    | .resume l, s => (.goto (.waitReadable l), { s with paused := false })
    -- the wait looks at the buffer only
    | .waitReadable l, s =>
      (.goto (if s.buf.readableBytes = 0 then .waitReadable l else .loopEof l), s)
    | .loopEof l, s =>
      (if s.eof = false ∧ 0 < l.length then .goto (.loopReadable l) else .done (.ok l.data), s)
    | .loopReadable l, s =>
      (.goto (.loopReadBytes (min s.buf.readableBytes l.length.toNat) l), s)
    -- the reader index is taken for the offset in `data`, too
    | .loopReadBytes readedLength l, s =>
      match s.buf.readBytesInto l.data s.buf.readerIndex readedLength with
      | .error f => (.done (.error (.ofFault f)), s)
      | .ok (data, buf) =>
        (.goto (.loopEof ⟨l.length - readedLength, data⟩), { s with buf := buf })

/-! ## A socket in use -/

/-- The socket, the `read` that is running, the bytes that were delivered,
and those that `read` took from the buffer. -/
structure Session where
  sock : RubyNetSocket
  running : Option Read
  received : Bytes
  taken : Bytes
  deriving DecidableEq

/-- What happens next: on Vert.x's thread, or on the one that uses the
socket. -/
inductive Act
  | event (e : Event)
  | call (length : IntArg) (dst : Option Bytes)
  | closeRead
  | step
  deriving DecidableEq

namespace Session

/-- A hijacked socket, before anything is received. -/
def start : Session := ⟨.new, none, [], []⟩

/-- The bytes that an event delivers, when the handler is done with them. -/
def delivered (sock : RubyNetSocket) : Event → Bytes
  | .handle => (sock.handling.map Prod.fst).getD []
  | _ => []

/-- One step of the `read` that is running. What its reader index passes it
has taken. -/
def advance (s : Session) (k : Read) : Session where
  sock := (read.step k s.sock).2
  running :=
    match (read.step k s.sock).1 with
    | .goto k' => some k'
    | .done _ => none
  received := s.received
  taken := s.taken ++
    slice s.sock.buf.bytes s.sock.buf.readerIndex (read.step k s.sock).2.buf.readerIndex

/-- One act, if it is possible. -/
def act (s : Session) : Act → Option Session
  | .event e =>
    (happen e s.sock).map fun sock =>
      { s with sock := sock, received := s.received ++ delivered s.sock e }
  | .call length dst =>
    if s.running = none then some { s with running := some (.entry length dst) } else none
  | .closeRead =>
    if s.running = none then some { s with sock := { s.sock with readClosed := true } } else none
  | .step => s.running.map s.advance

/-- The outcome of a run, if each act of it is possible. -/
abbrev run (acts : List Act) (s : Session) : Option Session := Run.play act acts s

end Session

/-! ## What an event and an act do -/

/-- An event is one of four. -/
theorem happen_cases {e : Event} {s s' : RubyNetSocket} (h : happen e s = some s') :
    (∃ buffer, e = .data buffer ∧ s.paused = false ∧ s.eof = false ∧ s.handling = none ∧
      s' = { s with handling := some (buffer, isWritable s.buf buffer.length) }) ∨
    (∃ buffer, e = .handle ∧ s.handling = some (buffer, true) ∧
      s' = { s with buf := s.buf.writeBytes buffer, handling := none }) ∨
    (∃ buffer, e = .handle ∧ s.handling = some (buffer, false) ∧
      s' = { s with paused := true, handling := none }) ∨
    (e = .finish ∧ s.eof = false ∧ s.handling = none ∧ s' = { s with eof := true }) := by
  cases e with
  | data buffer =>
    simp only [happen, Option.ite_none_left_eq_some, not_or, Bool.not_eq_true,
      Option.isSome_eq_false_iff, Option.isNone_iff_eq_none, Option.some.injEq] at h
    obtain ⟨⟨hpaused, heof, hhandling⟩, rfl⟩ := h
    exact Or.inl ⟨buffer, rfl, hpaused, heof, hhandling, rfl⟩
  | handle =>
    rcases hhandling : s.handling with _ | ⟨buffer, _ | _⟩
    · simp [happen, hhandling] at h
    · simp only [happen, hhandling, Option.some.injEq] at h
      exact Or.inr (Or.inr (Or.inl ⟨buffer, rfl, rfl, h.symm⟩))
    · simp only [happen, hhandling, Option.some.injEq] at h
      exact Or.inr (Or.inl ⟨buffer, rfl, rfl, h.symm⟩)
  | finish =>
    simp only [happen, Option.ite_none_left_eq_some, not_or, Bool.not_eq_true,
      Option.isSome_eq_false_iff, Option.isNone_iff_eq_none, Option.some.injEq] at h
    obtain ⟨⟨heof, hhandling⟩, rfl⟩ := h
    exact Or.inr (Or.inr (Or.inr ⟨rfl, heof, hhandling, rfl⟩))

/-- An act is one of four. -/
theorem Session.act_cases {s s' : Session} {a : Act} (h : s.act a = some s') :
    (∃ e sock, a = .event e ∧ happen e s.sock = some sock ∧
      s' = { s with sock := sock, received := s.received ++ delivered s.sock e }) ∨
    (∃ length dst, a = .call length dst ∧ s.running = none ∧
      s' = { s with running := some (.entry length dst) }) ∨
    (a = .closeRead ∧ s.running = none ∧
      s' = { s with sock := { s.sock with readClosed := true } }) ∨
    ∃ k, a = .step ∧ s.running = some k ∧ s' = s.advance k := by
  cases a with
  | event e =>
    obtain ⟨sock, hsock, rfl⟩ := Option.map_eq_some_iff.mp h
    exact Or.inl ⟨e, sock, rfl, hsock, rfl⟩
  | call length dst =>
    obtain ⟨hidle, h⟩ := Option.ite_none_right_eq_some.mp h
    exact Or.inr (Or.inl ⟨length, dst, rfl, hidle, (Option.some.inj h).symm⟩)
  | closeRead =>
    obtain ⟨hidle, h⟩ := Option.ite_none_right_eq_some.mp h
    exact Or.inr (Or.inr (Or.inl ⟨rfl, hidle, (Option.some.inj h).symm⟩))
  | step =>
    obtain ⟨k, hk, rfl⟩ := Option.map_eq_some_iff.mp h
    exact Or.inr (Or.inr (Or.inr ⟨k, rfl, hk, rfl⟩))

/-! ## What a step of `read` does -/

section

variable {s : RubyNetSocket} {l : ReadLoop}

theorem step_entry_of_closed {length : IntArg} {dst : Option Bytes} (h : s.readClosed = true) :
    read.step (.entry length dst) s = (.done (.error (.other false)), s) := by
  simp only [read, if_pos h]

theorem step_entry {length : IntArg} {dst : Option Bytes} (h : s.readClosed = false) :
    read.step (.entry length dst) s = (Read.start length dst, s) := by
  simp only [read, h, Bool.false_eq_true, if_false]

theorem step_testEof_of_eof (h : s.eof = true) :
    read.step (.testEof l) s = (.goto (.waitReadable l), s) := by simp only [read, if_pos h]

theorem step_testEof (h : s.eof = false) :
    read.step (.testEof l) s = (.goto (.testReadable l), s) := by
  simp only [read, h, Bool.false_eq_true, if_false]

theorem step_testReadable_of_empty (h : s.buf.readableBytes = 0) :
    read.step (.testReadable l) s = (.goto (.clear l), s) := by simp only [read, if_pos h]

theorem step_testReadable (h : s.buf.readableBytes ≠ 0) :
    read.step (.testReadable l) s = (.goto (.waitReadable l), s) := by simp only [read, if_neg h]

theorem step_waitReadable_of_empty (h : s.buf.readableBytes = 0) :
    read.step (.waitReadable l) s = (.goto (.waitReadable l), s) := by simp only [read, if_pos h]

theorem step_waitReadable (h : s.buf.readableBytes ≠ 0) :
    read.step (.waitReadable l) s = (.goto (.loopEof l), s) := by simp only [read, if_neg h]

/-- The loop is entered, once more or for the first time. -/
theorem step_loopEof (heof : s.eof = false) (hlength : 0 < l.length) :
    read.step (.loopEof l) s = (.goto (.loopReadable l), s) := by
  simp only [read, if_pos (And.intro heof hlength)]

/-- The loop is left. -/
theorem step_loopEof_of_left (h : s.eof = true ∨ l.length ≤ 0) :
    read.step (.loopEof l) s = (.done (.ok l.data), s) := by
  have hleft : ¬ (s.eof = false ∧ 0 < l.length) := by
    rintro ⟨heof, hlength⟩
    rcases h with h | h
    · rw [heof] at h
      cases h
    · omega
  simp only [read, if_neg hleft]

variable {readedLength : ℕ}

theorem step_loopReadBytes_of_error {f : ByteBuf.Fault}
    (h : s.buf.readBytesInto l.data s.buf.readerIndex readedLength = .error f) :
    read.step (.loopReadBytes readedLength l) s = (.done (.error (.ofFault f)), s) := by
  simp only [read, h]

theorem step_loopReadBytes {data : Bytes} {buf : ByteBuf}
    (h : s.buf.readBytesInto l.data s.buf.readerIndex readedLength = .ok (data, buf)) :
    read.step (.loopReadBytes readedLength l) s =
      (.goto (.loopEof ⟨l.length - readedLength, data⟩), { s with buf := buf }) := by
  simp only [read, h]

end

end NetSocket

end Jubilee
