import Jubilee.RackInput.Ends
import Jubilee.RackInput.Read
/-!
# Rack input — `read` into a string of the caller's

`read(length, buffer)` returns the caller's own string, and what it read
is appended to what the string held. `read_buffer_replaces_iff` says when
that is what it is to be, the bytes of this call and no others.
-/

namespace Jubilee

namespace RackInput

/-- What `read` with a buffer returns: a new empty string, with the
caller's left as it is, or the caller's, with what it holds then. -/
inductive BufferRead
  | fresh
  | buffer (content : Bytes)
  | raised (e : Raised)
  deriving DecidableEq

/-- The control points of `read` with a buffer. -/
inductive ReadBuffer
  | isEOF (e : IsEOF)
  | loopEOF (e : IsEOF) (l : ReadLoop)
  | loopReadable (l : ReadLoop)
  | loopReadBytes (len : ℤ) (l : ReadLoop)
  deriving DecidableEq

/-- Where it starts. -/
def ReadBuffer.entry : ReadBuffer := .isEOF .loopReadable

/-- What it returns when its loop is left. -/
def ReadLoop.cat (l : ReadLoop) : BufferRead := .buffer (l.dst ++ l.buffer)

/-- The first half of the loop's test. -/
def ReadLoop.testBuffer (l : ReadLoop) : Next ReadBuffer BufferRead :=
  if 0 < l.toRead then .goto (.loopEOF .loopReadable l) else .done l.cat

/-- The array and the loop for a length. -/
def ReadBuffer.allocate (dst : Bytes) : Except Raised ℤ → Next ReadBuffer BufferRead
  | .error e => .done (.raised e)
  | .ok length =>
    if length < 0 then .done (.raised .negativeArraySize)
    else ReadLoop.testBuffer ⟨length.toNat, [], dst⟩

/-- `read`, called with two arguments. -/
def readBuffer (io : RubyIORackInput) (length : IntArg) (dst : Bytes) :
    Thread Upload ReadBuffer BufferRead where
  step
    | .isEOF e, u =>
      isEOF.call .isEOF
        (fun eof => if eof then .done .fresh else ReadBuffer.allocate dst (num2int length)) e u
    | .loopEOF e l, u =>
      isEOF.call (.loopEOF · l)
        (fun eof => if eof then .done l.cat else .goto (.loopReadable l)) e u
    | .loopReadable l, u => (.goto (.loopReadBytes (min l.toRead (readableBytes io u)) l), u)
    | .loopReadBytes len l, u =>
      match u.bodyBuf.readBytes len with
      | .error f => (.done (.raised (.ofFault f)), u)
      | .ok (data, buf) =>
        (ReadLoop.testBuffer
          { l with toRead := l.toRead - data.length, buffer := l.buffer ++ data },
          { u with bodyBuf := buf })

variable {io : RubyIORackInput} {body : Bytes} {p : ℕ} {u : Upload} {length : IntArg} {b : Bytes}

/-! ## It is `read` -/

/-- The string that is returned. -/
def BufferRead.result : BufferRead → Result
  | .fresh => .ok (some [])
  | .buffer content => .ok (some content)
  | .raised e => .error e

/-- The control points in `read`. -/
def ReadBuffer.inRead : ReadBuffer → Read
  | .isEOF e => .isEOF e
  | .loopEOF e l => .loopEOF e l
  | .loopReadable l => .loopReadable l
  | .loopReadBytes len l => .loopReadBytes len l

theorem map_testBuffer (l : ReadLoop) :
    l.testBuffer.map ReadBuffer.inRead BufferRead.result = l.test := by
  unfold ReadLoop.testBuffer ReadLoop.test
  split <;> rfl

theorem map_allocate (dst : Bytes) (n : Except Raised ℤ) :
    (ReadBuffer.allocate dst n).map ReadBuffer.inRead BufferRead.result = Read.allocate dst n := by
  cases n with
  | error e => rfl
  | ok length =>
    by_cases hneg : length < 0
    · rw [ReadBuffer.allocate, Read.allocate, if_pos hneg, if_pos hneg]
      rfl
    · rw [ReadBuffer.allocate, Read.allocate, if_neg hneg, if_neg hneg, map_testBuffer]

/-- **Every step is one of `read`**, which does not say what string is
returned. -/
theorem read_step (k : ReadBuffer) (u : Upload) :
    (read io (.buffer length b)).step k.inRead u =
      (((readBuffer io length b).step k u).1.map ReadBuffer.inRead BufferRead.result,
        ((readBuffer io length b).step k u).2) := by
  cases k with
  | isEOF e =>
    simp only [read, readBuffer, ReadBuffer.inRead, Thread.call]
    rcases isEOF.step e u with ⟨e' | eof, u'⟩
    · rfl
    · cases eof with
      | true => rfl
      | false => simp [Read.start, map_allocate]
  | loopEOF e l =>
    simp only [read, readBuffer, ReadBuffer.inRead, Thread.call]
    rcases isEOF.step e u with ⟨e' | eof, u'⟩
    · rfl
    · cases eof <;> rfl
  | loopReadable l => rfl
  | loopReadBytes len l =>
    simp only [read, readBuffer, ReadBuffer.inRead]
    cases u.bodyBuf.readBytes len with
    | error f => rfl
    | ok r => simp only [map_testBuffer]

/-! ## What it returns -/

/-- Where a call that begins at `p` is to leave the reader. -/
def replacedTo (body : Bytes) (p : ℕ) : IntArg → ℕ
  | .nil => body.length
  | .int n => min (p + n.toNat) body.length

/-- The caller's string is returned, with the bytes of this call, and the
reader is past them. -/
def Replaces (body : Bytes) (p : ℕ) (length : IntArg) (r : BufferRead) (u : Upload) : Prop :=
  r = .buffer (slice body p (replacedTo body p length)) ∧ At body (replacedTo body p length) u

/-- A call plays as `read` does. -/
theorem play_read (io : RubyIORackInput) (length : IntArg) (b : Bytes) (u : Upload)
    (ms : List (Move Arrival)) :
    (read io (.buffer length b)).play arrive ms (.goto Read.entry, u) =
      ((readBuffer io length b).play arrive ms (.goto ReadBuffer.entry, u)).map fun c =>
        (c.1.map ReadBuffer.inRead BufferRead.result, c.2) :=
  Thread.play_map read_step ms (.goto ReadBuffer.entry, u)

/-- What a finished call has done. -/
theorem readPost_of_play (hd : Declares io body) (hat : At body p u) {ms : List (Move Arrival)}
    {r : BufferRead} {u' : Upload}
    (h : (readBuffer io length b).play arrive ms (.goto ReadBuffer.entry, u) = some (.done r, u')) :
    ReadPost body p (.buffer length b) r.result u' := by
  have hplay := play_read io length b u ms
  rw [h] at hplay
  exact (readOutline hd p (.buffer length b)).play (c := (.goto Read.entry, u)) hat hplay
    fun _ _ => trivial

/-- Once the end was signalled a call comes to its end. -/
theorem readBuffer_plays_to_end (hd : Declares io body) (hat : At body p u)
    (he : u.eof = true) (length : IntArg) (b : Bytes) :
    ∃ m r u', (readBuffer io length b).play arrive (List.replicate m .own)
      (.goto ReadBuffer.entry, u) = some (.done r, u') := by
  have hends : (read io (.buffer length b)).Ends Free AtEof (.goto Read.entry, u) :=
    read_ends he (hat.length_le_of_declares hd) Read.entry
  obtain ⟨m, r, u', hplay, -⟩ := hends.exists_play arrive
  rw [play_read, Option.map_eq_some_iff] at hplay
  obtain ⟨⟨next, u''⟩, hplay, heq⟩ := hplay
  cases next with
  | goto k => cases (Prod.mk.inj heq).1
  | done r => exact ⟨m, r, u'', hplay⟩

/-- A length that is no Java `int` is refused. -/
theorem upTo_of_error {e : Raised} (hp : p < body.length) (h : num2int length = .error e) :
    readAt body p (.buffer length b) = (.error e, p) := by
  rw [readAt, if_neg hp.ne, h]
  rfl

/-- For a length that is one the bytes are appended. -/
theorem appended_of_readAt {n q : ℕ} {r : BufferRead} (hp : p < body.length) (hn : 0 < n)
    (hint : (n : ℤ) ≤ maxInt) (h : readAt body p (.buffer (.int n) b) = (r.result, q)) :
    q = replacedTo body p (.int n) ∧
      r = .buffer (b ++ slice body p (replacedTo body p (.int n))) := by
  have hto : replacedTo body p (.int n) = min (p + n) body.length := by
    rw [replacedTo, Int.toNat_natCast]
  simp only [readAt, if_neg hp.ne, num2int_int hint, readAt.upTo,
    if_neg (by omega : ¬ (n : ℤ) < 0), Int.toNat_natCast, ← hto] at h
  obtain ⟨hresult, rfl⟩ := Prod.mk.inj h
  refine ⟨rfl, ?_⟩
  have hlen : (slice body p (replacedTo body p (.int n))).length ≠ 0 := by
    rw [length_slice (by omega), hto]
    omega
  cases r with
  | fresh =>
    -- something is left, so this is not the end
    have hnil := (List.append_eq_nil_iff.mp (Option.some.inj (Except.ok.inj hresult))).2
    exact absurd (congrArg List.length hnil) hlen
  | raised e => cases hresult
  | buffer content =>
    exact congrArg BufferRead.buffer (Option.some.inj (Except.ok.inj hresult)).symm

/-- **`read` with a buffer replaces what the buffer held** just where it
held nothing, and the length is an integer that is a Java `int`. In the
other cases it appends, or raises. -/
theorem read_buffer_replaces_iff {hdr : Option JString} (hio : Serves hdr body io)
    (hat : At body p u) (he : u.eof = true) (hp : p < body.length)
    (hlength : length = .nil ∨ ∃ n : ℕ, 0 < n ∧ length = .int n) (b : Bytes) :
    (∃ m r u', (readBuffer io length b).play arrive (List.replicate m .own)
      (.goto ReadBuffer.entry, u) = some (.done r, u')) ∧
    ∀ ms r u', (readBuffer io length b).play arrive ms (.goto ReadBuffer.entry, u) =
        some (.done r, u') →
      (Replaces body p length r u' ↔ b = [] ∧ ∃ n : ℕ, length = .int n ∧ (n : ℤ) ≤ maxInt) := by
  refine ⟨readBuffer_plays_to_end hio.declares hat he length b, fun ms r u' hplay => ?_⟩
  obtain ⟨q, hread, hat'⟩ := readPost_of_play hio.declares hat hplay
  have hraises : ∀ e, num2int length = .error e → ¬ Replaces body p length r u' := by
    rintro e hnum ⟨rfl, -⟩
    rw [upTo_of_error hp hnum] at hread
    cases (Prod.mk.inj hread).1
  rcases hlength with rfl | ⟨n, hn, rfl⟩
  · refine iff_of_false (hraises .typeError rfl) ?_
    rintro ⟨-, n, hnil, -⟩
    cases hnil
  · by_cases hint : (n : ℤ) ≤ maxInt
    · obtain ⟨rfl, rfl⟩ := appended_of_readAt hp hn hint hread
      constructor
      · rintro ⟨hbuffer, -⟩
        refine ⟨?_, n, rfl, hint⟩
        exact List.append_left_eq_self.mp (BufferRead.buffer.inj hbuffer)
      · rintro ⟨rfl, -⟩
        exact ⟨rfl, hat'⟩
    · refine iff_of_false (hraises .rangeError (num2int_int_of_gt (by omega))) ?_
      rintro ⟨-, n', hn', hint'⟩
      obtain rfl : n = n' := Int.ofNat.inj (IntArg.int.inj hn')
      exact hint hint'

/-- Two bytes are left of `"abc"`. -/
def twoLeft : Upload := ⟨⟨[97, 98, 99], 1, by decide⟩, true, []⟩

theorem at_twoLeft : At [97, 98, 99] 1 twoLeft := ⟨rfl, fun _ => rfl, rfl⟩

/-- Into an empty string the two are read. -/
theorem read_buffer_replaces_two :
    ∃ m r u', (readBuffer ⟨0, true⟩ (.int 5) []).play arrive (List.replicate m .own)
        (.goto ReadBuffer.entry, twoLeft) = some (.done r, u') ∧
      Replaces [97, 98, 99] 1 (.int 5) r u' := by
  obtain ⟨⟨m, r, u', hplay⟩, hiff⟩ := read_buffer_replaces_iff (Serves.absent _) at_twoLeft rfl
    (by decide) (Or.inr ⟨5, by decide, rfl⟩) []
  exact ⟨m, r, u', hplay, (hiff _ _ _ hplay).mpr ⟨rfl, 5, rfl, by decide⟩⟩

/-- Into a string that holds something they are appended, and `nil` for a
length is refused. -/
theorem read_buffer_appends :
    (readBuffer ⟨0, true⟩ (.int 1) [120]).play arrive (List.replicate 6 .own)
        (.goto ReadBuffer.entry, twoLeft) =
      some (.done (.buffer [120, 98]), ⟨⟨[97, 98, 99], 2, by decide⟩, true, []⟩) ∧
    slice [97, 98, 99] 1 (replacedTo [97, 98, 99] 1 (.int 1)) = [98] ∧
    (readBuffer ⟨0, true⟩ .nil []).play arrive (List.replicate 2 .own)
        (.goto ReadBuffer.entry, twoLeft) = some (.done (.raised .typeError), twoLeft) :=
  ⟨by decide, by decide, by decide⟩

end RackInput

end Jubilee
