import Jubilee.Common.Run
import Jubilee.Common.Thread
import Jubilee.Response.Bytes
/-!
# Net socket — writing

`write` waits while Vert.x's queue for the socket is full, and hands the
string over in the end. The network empties the queue meanwhile, and
Vert.x calls the drain handler that `write` sets, both on threads of
their own: the stream is a parameter. `written_in_order` says what the
other side gets: the strings whose `write` returned, each once and in
order, none of them after `close_write`; and their bytes only where
these survive being decoded and encoded again.
-/

namespace Jubilee

namespace NetSocket

open Response (Decoders asJavaString)

/-! ## The socket -/

/-- A `WriteStream` of Vert.x: its states, what its methods do, and what
may happen to it on other threads, with whether the drain handler that
was set last is called then. -/
structure WriteStream (Q E : Type*) where
  new : Q
  /-- The bytes that wait to be sent. -/
  size : Q → ℕ
  writeQueueFull : Q → Bool
  write : JString → Q → Q
  drainHandler : Q → Q
  happen : E → Q → Option (Q × Bool)

/-- What the socket runs on: its stream, the decoders of strings, and the
`length` of a Ruby string. -/
structure Platform (Q E : Type*) where
  stream : WriteStream Q E
  decoders : Decoders
  length : RubyString → ℤ

/-- The fields of `RubyNetSocket` that the writing methods use, with the
stream of `sock`, what `sock.write` was given so far, and the flag that
the drain handler sets. -/
structure Writer (Q : Type*) where
  writeClosed : Bool
  closed : Bool
  stream : Q
  sent : List JString
  writable : Bool

variable {Q E : Type*}

/-- The constructor. -/
def Writer.new (p : Platform Q E) : Writer Q := ⟨false, false, p.stream.new, [], false⟩

/-- `sock.write`. -/
def Writer.send (p : Platform Q E) (s : Writer Q) (str : JString) : Writer Q :=
  { s with stream := p.stream.write str s.stream, sent := s.sent ++ [str] }

/-- What happens on another thread, if it is possible. -/
def Writer.happen (p : Platform Q E) (e : E) (s : Writer Q) : Option (Writer Q) :=
  (p.stream.happen e s.stream).map fun next =>
    { s with stream := next.1, writable := s.writable || next.2 }

/-! ## `write` -/

/-- The argument of `write`: a string, or an object with the result of its
`to_s`, which is refused where it is no string. -/
inductive WriteArg
  | string (s : RubyString)
  | object (toS : Except Raised RubyString)

/-- The string to be written. -/
def WriteArg.data : WriteArg → Except Raised RubyString
  | .string s => .ok s
  | .object toS => toS

/-- The control points of `write` and of `waitWritable` in it. -/
inductive Write
  | entry (str : WriteArg)
  | writeQueueFull (data : RubyString)
  | drainHandler (data : RubyString)
  | waitWritable (data : RubyString)
  | write (data : RubyString)

/-- What `write` returns: a number, or an exception. -/
abbrev Written := Except Raised ℤ

/-- An `IOError`. -/
def closedStream : Raised := .other false

/-- `write`. -/
def write (p : Platform Q E) : Thread (Writer Q) Write Written where
  step
    | .entry str, s =>
      (if s.writeClosed then .done (.error closedStream)
        else
          match str.data with
          | .ok data => .goto (.writeQueueFull data)
          | .error e => .done (.error e), s)
    | .writeQueueFull data, s =>
      (.goto (if p.stream.writeQueueFull s.stream then .drainHandler data else .write data), s)
    -- the flag is a new one, which no handler set before knows
    | .drainHandler data, s =>
      (.goto (.waitWritable data),
        { s with stream := p.stream.drainHandler s.stream, writable := false })
    | .waitWritable data, s => (.goto (if s.writable then .write data else .waitWritable data), s)
    | .write data, s => (.done (.ok (p.length data)), s.send p (asJavaString p.decoders data))

/-! ## A socket in use -/

/-- A call that has returned. -/
inductive Called
  | write (str : WriteArg) (result : Written)
  | closeWrite
  | close

/-- The socket, the `write` that is running with its argument, and the
calls that have returned, newest first. -/
structure WriteSession (Q : Type*) where
  sock : Writer Q
  running : Option (WriteArg × Write)
  log : List Called

/-- What happens next: on another thread, or on the one that uses the
socket. -/
inductive WriteAct (E : Type*)
  | event (e : E)
  | call (str : WriteArg)
  | closeWrite
  | close
  | step

namespace WriteSession

variable (p : Platform Q E)

/-- A hijacked socket, before anything is written. -/
def start : WriteSession Q := ⟨.new p, none, []⟩

/-- One step of the `write` that is running. -/
def advance (s : WriteSession Q) (str : WriteArg) (k : Write) : WriteSession Q :=
  match (write p).step k s.sock with
  | (.goto k', sock) => { s with sock := sock, running := some (str, k') }
  | (.done r, sock) => ⟨sock, none, .write str r :: s.log⟩

/-- One act, if it is possible. `flush` and `closed?` change nothing. -/
def act (s : WriteSession Q) : WriteAct E → Option (WriteSession Q)
  | .event e => (s.sock.happen p e).map fun sock => { s with sock := sock }
  | .call str =>
    if s.running.isNone then some { s with running := some (str, .entry str) } else none
  | .closeWrite =>
    if s.running.isNone then
      some { s with sock := { s.sock with writeClosed := true }, log := .closeWrite :: s.log }
    else none
  | .close =>
    if s.running.isNone then
      some { s with sock := { s.sock with closed := true }, log := .close :: s.log }
    else none
  | .step => s.running.map fun k => s.advance p k.1 k.2

/-- The outcome of a run, if each act of it is possible. -/
abbrev run (acts : List (WriteAct E)) (s : WriteSession Q) : Option (WriteSession Q) :=
  Run.play (act p) acts s

end WriteSession

/-! ## What the calls amount to -/

/-- `close_write` was called. -/
def closedWrite : List Called → Bool
  | [] => false
  | .closeWrite :: _ => true
  | _ :: older => closedWrite older

/-- Each `write` returned what it is to return: the length of its string,
or what `to_s` raised, and an `IOError` after `close_write`. -/
def Right (p : Platform Q E) : List Called → Prop
  | [] => True
  | .write str r :: older =>
    (r = if closedWrite older then .error closedStream else str.data.map p.length) ∧ Right p older
  | _ :: older => Right p older

/-- The strings whose `write` returned, oldest first. -/
def writes : List Called → List RubyString
  | [] => []
  | .write str (.ok _) :: older =>
    writes older ++ (match str.data with | .ok data => [data] | .error _ => [])
  | _ :: older => writes older

/-! ## What an act does -/

section

variable {p : Platform Q E} {s s' : WriteSession Q} {sock sock' : Writer Q} {str : WriteArg}
  {k : Write}

/-- What happens on the other threads is to the stream and the flag. -/
theorem Writer.happen_cases {e : E} (h : sock.happen p e = some sock') :
    ∃ stream called, p.stream.happen e sock.stream = some (stream, called) ∧
      sock' = { sock with stream := stream, writable := sock.writable || called } := by
  obtain ⟨⟨stream, called⟩, hnext, rfl⟩ := Option.map_eq_some_iff.mp h
  exact ⟨stream, called, hnext, rfl⟩

/-- An act is one of five. -/
theorem WriteSession.act_cases {a : WriteAct E} (h : s.act p a = some s') :
    (∃ e sock, a = .event e ∧ s.sock.happen p e = some sock ∧ s' = { s with sock := sock }) ∨
    (∃ str, a = .call str ∧ s.running = none ∧ s' = { s with running := some (str, .entry str) }) ∨
    (a = .closeWrite ∧ s.running = none ∧
      s' = { s with sock := { s.sock with writeClosed := true }, log := .closeWrite :: s.log }) ∨
    (a = .close ∧ s.running = none ∧
      s' = { s with sock := { s.sock with closed := true }, log := .close :: s.log }) ∨
    ∃ str k, a = .step ∧ s.running = some (str, k) ∧ s' = s.advance p str k := by
  cases a with
  | event e =>
    obtain ⟨sock, hsock, rfl⟩ := Option.map_eq_some_iff.mp h
    exact Or.inl ⟨e, sock, rfl, hsock, rfl⟩
  | call str =>
    obtain ⟨hidle, h⟩ := Option.ite_none_right_eq_some.mp h
    exact Or.inr (Or.inl ⟨str, rfl, Option.isNone_iff_eq_none.mp hidle, (Option.some.inj h).symm⟩)
  | closeWrite =>
    obtain ⟨hidle, h⟩ := Option.ite_none_right_eq_some.mp h
    exact Or.inr (Or.inr (Or.inl
      ⟨rfl, Option.isNone_iff_eq_none.mp hidle, (Option.some.inj h).symm⟩))
  | close =>
    obtain ⟨hidle, h⟩ := Option.ite_none_right_eq_some.mp h
    exact Or.inr (Or.inr (Or.inr (Or.inl
      ⟨rfl, Option.isNone_iff_eq_none.mp hidle, (Option.some.inj h).symm⟩)))
  | step =>
    obtain ⟨⟨str, k⟩, hk, rfl⟩ := Option.map_eq_some_iff.mp h
    exact Or.inr (Or.inr (Or.inr (Or.inr ⟨str, k, rfl, hk, rfl⟩)))

theorem advance_goto {k' : Write} (h : (write p).step k s.sock = (.goto k', sock')) :
    s.advance p str k = { s with sock := sock', running := some (str, k') } := by
  rw [WriteSession.advance, h]

theorem advance_done {r : Written} (h : (write p).step k s.sock = (.done r, sock')) :
    s.advance p str k = ⟨sock', none, .write str r :: s.log⟩ := by
  rw [WriteSession.advance, h]

/-! ## What a step of `write` does -/

section

variable {data : RubyString}

theorem step_entry_of_writeClosed (h : sock.writeClosed = true) :
    (write p).step (.entry str) sock = (.done (.error closedStream), sock) := by
  simp only [write, h, if_true]

theorem step_entry_of_error {e : Raised} (h : sock.writeClosed = false)
    (hdata : str.data = .error e) :
    (write p).step (.entry str) sock = (.done (.error e), sock) := by
  simp only [write, h, Bool.false_eq_true, if_false, hdata]

theorem step_entry_of_data (h : sock.writeClosed = false) (hdata : str.data = .ok data) :
    (write p).step (.entry str) sock = (.goto (.writeQueueFull data), sock) := by
  simp only [write, h, Bool.false_eq_true, if_false, hdata]

theorem step_writeQueueFull_of_full (h : p.stream.writeQueueFull sock.stream = true) :
    (write p).step (.writeQueueFull data) sock = (.goto (.drainHandler data), sock) := by
  simp only [write, h, if_true]

theorem step_writeQueueFull (h : p.stream.writeQueueFull sock.stream = false) :
    (write p).step (.writeQueueFull data) sock = (.goto (.write data), sock) := by
  simp only [write, h, Bool.false_eq_true, if_false]

theorem step_waitWritable_of_writable (h : sock.writable = true) :
    (write p).step (.waitWritable data) sock = (.goto (.write data), sock) := by
  simp only [write, h, if_true]

theorem step_waitWritable (h : sock.writable = false) :
    (write p).step (.waitWritable data) sock = (.goto (.waitWritable data), sock) := by
  simp only [write, h, Bool.false_eq_true, if_false]

end

/-! ## What is sent -/

/-- Where the `write` of an argument is: after its first step it has its
string, and `close_write` was not called. -/
def Write.Of (str : WriteArg) (closed : Bool) : Write → Prop
  | .entry str' => str' = str
  | .writeQueueFull data | .drainHandler data | .waitWritable data | .write data =>
    str.data = .ok data ∧ closed = false

/-- **The invariant**: each call returned what it is to return, and the
strings that were handed over are those whose `write` returned. -/
structure Sent (p : Platform Q E) (s : WriteSession Q) : Prop where
  right : Right p s.log
  sent : s.sock.sent = (writes s.log).map (asJavaString p.decoders)
  closed : s.sock.writeClosed = closedWrite s.log
  running : ∀ str k, s.running = some (str, k) → k.Of str (closedWrite s.log)

theorem sent_start (p : Platform Q E) : Sent p (.start p) := ⟨trivial, rfl, rfl, nofun⟩

/-- The `write` goes on, and hands nothing over. -/
theorem Sent.goto (h : Sent p s) {k' : Write} (hstep : (write p).step k s.sock = (.goto k', sock'))
    (hsent : sock'.sent = s.sock.sent) (hclosed : sock'.writeClosed = s.sock.writeClosed)
    (hof : k'.Of str (closedWrite s.log)) : Sent p (s.advance p str k) := by
  rw [advance_goto hstep]
  refine ⟨h.right, hsent.trans h.sent, hclosed.trans h.closed, fun str' k'' hk => ?_⟩
  obtain ⟨rfl, rfl⟩ := Prod.mk.inj (Option.some.inj hk)
  exact hof

/-- A step of the `write` that is running. -/
theorem sent_advance (h : Sent p s) (hrunning : s.running = some (str, k)) :
    Sent p (s.advance p str k) := by
  have hof := h.running str k hrunning
  cases k with
  | entry str' =>
    obtain rfl : str' = str := hof
    cases hclosed : s.sock.writeClosed with
    | true =>
      rw [advance_done (step_entry_of_writeClosed hclosed)]
      refine ⟨⟨?_, h.right⟩, h.sent, h.closed, nofun⟩
      rw [← h.closed, hclosed, if_pos rfl]
    | false =>
      have hopen := h.closed.symm.trans hclosed
      cases hdata : str'.data with
      | error e =>
        rw [advance_done (step_entry_of_error hclosed hdata)]
        refine ⟨⟨?_, h.right⟩, h.sent, h.closed, nofun⟩
        rw [hopen, hdata]
        rfl
      | ok data => exact h.goto (step_entry_of_data hclosed hdata) rfl rfl ⟨hdata, hopen⟩
  | writeQueueFull data =>
    cases hfull : p.stream.writeQueueFull s.sock.stream with
    | true => exact h.goto (step_writeQueueFull_of_full hfull) rfl rfl hof
    | false => exact h.goto (step_writeQueueFull hfull) rfl rfl hof
  | drainHandler data => exact h.goto rfl rfl rfl hof
  | waitWritable data =>
    cases hwritable : s.sock.writable with
    | true => exact h.goto (step_waitWritable_of_writable hwritable) rfl rfl hof
    | false => exact h.goto (step_waitWritable hwritable) rfl rfl hof
  | write data =>
    -- the string is handed over by the step that returns
    obtain ⟨hdata, hopen⟩ := hof
    have hstep : (write p).step (.write data) s.sock =
        (.done (.ok (p.length data)), s.sock.send p (asJavaString p.decoders data)) := rfl
    rw [advance_done hstep]
    refine ⟨⟨?_, h.right⟩, ?_, h.closed, nofun⟩
    · rw [hopen, hdata]
      rfl
    · simp only [Writer.send, writes, hdata, h.sent, List.map_append, List.map_cons, List.map_nil]

theorem sent_act (h : Sent p s) {a : WriteAct E} (ha : s.act p a = some s') : Sent p s' := by
  obtain ⟨e, sock, -, hsock, rfl⟩ | ⟨str, -, hidle, rfl⟩ | ⟨-, hidle, rfl⟩ | ⟨-, hidle, rfl⟩ |
    ⟨str, k, -, hrunning, rfl⟩ := WriteSession.act_cases ha
  · obtain ⟨stream, called, -, rfl⟩ := Writer.happen_cases hsock
    exact ⟨h.right, h.sent, h.closed, h.running⟩
  · refine ⟨h.right, h.sent, h.closed, fun str' k' hk => ?_⟩
    obtain ⟨rfl, rfl⟩ := Prod.mk.inj (Option.some.inj hk)
    rfl
  · exact ⟨h.right, h.sent, rfl, fun _ _ hk => nomatch hidle.symm.trans hk⟩
  · exact ⟨h.right, h.sent, h.closed, fun _ _ hk => nomatch hidle.symm.trans hk⟩
  · exact sent_advance h hrunning

/-- What the other side gets: `sock.write` encodes strings in UTF-8. -/
def Writer.sentBytes (s : Writer Q) : Bytes := s.sent.flatMap encodeUtf8

/-- **What is written is sent once and in order**, in every run: each call
of `write` returned what it is to return, after `close_write` an
`IOError`; what was handed over are the strings whose `write` returned.
Where Java knows their encodings, the other side gets their bytes just
where each of them survives on its own. -/
theorem written_in_order (p : Platform Q E) {acts : List (WriteAct E)}
    (h : (WriteSession.start p).run p acts = some s) :
    Right p s.log ∧ s.sock.sent = (writes s.log).map (asJavaString p.decoders) ∧
      ((∀ data ∈ writes s.log, Response.Known data) →
        (s.sock.sentBytes = (writes s.log).flatMap RubyString.bytes ↔
          ∀ data ∈ writes s.log, Response.Faithful data)) := by
  have hsent : Sent p s := Run.preserves (fun _ _ _ h ha => sent_act h ha) (sent_start p) h
  refine ⟨hsent.right, hsent.sent, fun hknown => ?_⟩
  have hparts := @Response.arrived_eq_iff p.decoders ((writes s.log).map some)
    fun data hdata => hknown data (by simpa using hdata)
  simp only [List.flatMap_map, Response.arrived, Response.partBytes, List.mem_map,
    Option.some.injEq, exists_eq_right] at hparts
  rw [Writer.sentBytes, hsent.sent, List.flatMap_map]
  exact hparts

/-! ## A queue between two marks -/

/-- The size above which a queue is full, and the one below which a full
queue is not full any more. -/
structure WaterMarks where
  high : ℕ
  low : ℕ
  low_pos : 0 < low
  low_le_high : low ≤ high

/-- A queue, between its marks: no more than the upper one where it is not
full, no less than the lower one where it is. -/
structure WriteQueue (marks : WaterMarks) where
  size : ℕ
  full : Bool
  /-- A drain handler is set. -/
  handler : Bool
  le_high : full = false → size ≤ marks.high
  low_le : full = true → marks.low ≤ size

namespace WriteQueue

variable {marks : WaterMarks} (queue : WriteQueue marks)

/-- Bytes are added, whether the queue is full or not. -/
def add (n : ℕ) : WriteQueue marks where
  size := queue.size + n
  full := queue.full || marks.high < queue.size + n
  handler := queue.handler
  le_high h := by
    simp only [Bool.or_eq_false_iff, decide_eq_false_iff_not] at h
    omega
  low_le h := by
    simp only [Bool.or_eq_true, decide_eq_true_eq] at h
    have hmarks := marks.low_le_high
    rcases h with hfull | hhigh
    · have hlow := queue.low_le hfull
      omega
    · omega

/-- The network takes bytes. -/
def take (n : ℕ) : WriteQueue marks where
  size := queue.size - n
  full := queue.full && !(queue.size - n < marks.low : Bool)
  handler := queue.handler
  le_high h := by
    simp only [Bool.and_eq_false_iff, Bool.not_eq_false', decide_eq_true_eq] at h
    have hmarks := marks.low_le_high
    rcases h with hfull | hbelow
    · have hhigh := queue.le_high hfull
      omega
    · omega
  low_le h := by
    simp only [Bool.and_eq_true, Bool.not_eq_true', decide_eq_false_iff_not, not_lt] at h
    exact h.2

end WriteQueue

/-- What happens to a queue. -/
inductive Drain
  /-- The network takes bytes from it. -/
  | taken (n : ℕ)
  /-- The drain handler is called. -/
  | drained

/-- The stream with such a queue, which calls a handler wherever it is not
full. -/
def markedStream (marks : WaterMarks) : WriteStream (WriteQueue marks) Drain where
  new := ⟨0, false, false, fun _ => Nat.zero_le _, nofun⟩
  size := WriteQueue.size
  writeQueueFull := WriteQueue.full
  write str queue := queue.add (encodeUtf8 str).length
  drainHandler queue := { queue with handler := true }
  happen
    | .taken n, queue => if 0 < n ∧ n ≤ queue.size then some (queue.take n, false) else none
    | .drained, queue => if queue.handler ∧ queue.full = false then some (queue, true) else none

/-- One byte does not fill it, and it is drained when none is left. -/
def narrowMarks : WaterMarks := ⟨1, 1, by decide, by decide⟩

/-- A socket with such a stream. -/
def narrow : Platform (WriteQueue narrowMarks) Drain :=
  ⟨markedStream narrowMarks, ⟨bytewise, fun _ _ => []⟩, fun _ => 2⟩

/-- A string of ASCII characters. -/
def ascii (bytes : Bytes) : WriteArg := .string ⟨bytes, .utf8⟩

/-- `"AB"` fills the queue, `"C"` waits for it to drain, and after
`close_write` a third string is refused. -/
def waitsForDrain : List (WriteAct Drain) :=
  [.call (ascii [65, 66]), .step, .step, .step, .call (ascii [67]), .step, .step, .step, .step,
    .event (.taken 2), .event .drained, .step, .step, .closeWrite, .call (ascii [68]), .step]

theorem written_in_order_waits :
    ∃ s, (WriteSession.start narrow).run narrow waitsForDrain = some s ∧ Right narrow s.log ∧
      s.sock.sent = ["AB".toList, "C".toList] := by
  have hran : ((WriteSession.start narrow).run narrow waitsForDrain).map (fun s => writes s.log) =
      some [⟨[65, 66], .utf8⟩, ⟨[67], .utf8⟩] := rfl
  obtain ⟨s, hrun, hwrites⟩ := Option.map_eq_some_iff.mp hran
  obtain ⟨hright, hsent, -⟩ := written_in_order narrow hrun
  refine ⟨s, hrun, hright, ?_⟩
  rw [hsent, hwrites]
  decide

end

end NetSocket

end Jubilee
