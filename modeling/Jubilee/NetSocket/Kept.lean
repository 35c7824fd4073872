import Jubilee.NetSocket.Model
/-!
# Net socket — what becomes of the bytes that are received

What `read` took and what it has still to take are together what was
received, in the same order, with nothing between lost: or so it is
until the handler meets a buffer that does not fit, or `read` clears
bytes that arrived after it saw none. `kept_iff` says so of every run.
-/

namespace Jubilee

namespace NetSocket

variable {s s' : Session} {a : Act}

/-- What `read` took, and what is left for it. -/
def Session.held (s : Session) : Bytes := s.taken ++ s.sock.buf.unread

/-- Nothing that was received is lost. -/
def Kept (s : Session) : Prop := s.held = s.received

instance (s : Session) : Decidable (Kept s) := inferInstanceAs (Decidable (_ = _))

/-- `read` is about to clear the buffer. -/
def Read.isClear : Read → Bool
  | .clear _ => true
  | _ => false

/-- An act that loses bytes: the handler goes on with a buffer that did not
fit, or `read` clears a buffer with bytes in it. -/
def Loses (s : Session) : Act → Prop
  | .event .handle => s.sock.handling.map Prod.snd = some false
  | .step => s.running.map Read.isClear = some true ∧ s.sock.buf.unread ≠ []
  | _ => False

instance (s : Session) (a : Act) : Decidable (Loses s a) :=
  match a with
  | .event .handle => inferInstanceAs (Decidable (_ = _))
  | .step => inferInstanceAs (Decidable (_ ∧ _))
  | .event (.data _) | .event .finish | .call _ _ | .closeRead =>
    inferInstanceAs (Decidable False)

/-! ## What a step of `read` does to the socket -/

/-- Nothing but the reader may have moved. -/
structure OnlyReads (s s' : RubyNetSocket) : Prop where
  bytes : s'.buf.bytes = s.buf.bytes
  readerIndex_le : s.buf.readerIndex ≤ s'.buf.readerIndex
  handling : s'.handling = s.handling
  eof : s'.eof = s.eof

theorem OnlyReads.refl (s : RubyNetSocket) : OnlyReads s s := ⟨rfl, le_rfl, rfl, rfl⟩

/-- `read` clears the buffer, or moves its reader at most. -/
theorem read_step_cases (k : Read) (s : RubyNetSocket) :
    (∃ l, k = .clear l ∧ (read.step k s).2 = { s with buf := .clear }) ∨
      k.isClear = false ∧ OnlyReads s (read.step k s).2 := by
  cases k with
  | clear l => exact Or.inl ⟨l, rfl, rfl⟩
  | resume l => exact Or.inr ⟨rfl, rfl, le_rfl, rfl, rfl⟩
  | loopReadBytes readedLength l =>
    refine Or.inr ⟨rfl, ?_⟩
    simp only [read]
    cases hread : s.buf.readBytesInto l.data s.buf.readerIndex readedLength with
    | error f => exact .refl s
    | ok r =>
      obtain ⟨data, buf⟩ := r
      obtain ⟨-, -, -, hbytes, hindex⟩ := ByteBuf.readBytesInto_eq_ok.mp hread
      exact ⟨hbytes, by rw [hindex]; exact Nat.le_add_right _ _, rfl, rfl⟩
  | entry | testEof | testReadable | waitReadable | loopEof | loopReadable =>
    exact Or.inr ⟨rfl, .refl s⟩

/-- A step of `read` that clears nothing takes from the front of what is
left. -/
theorem held_advance {k : Read} (h : OnlyReads s.sock (read.step k s.sock).2) :
    (s.advance k).held = s.held := by
  unfold Session.held Session.advance
  rw [List.append_assoc, ByteBuf.slice_append_unread h.bytes h.readerIndex_le]

/-- One that clears the buffer takes nothing, and leaves nothing. -/
theorem held_advance_clear (s : Session) (l : ReadLoop) :
    (s.advance (.clear l)).held = s.taken := by
  have hslice : slice s.sock.buf.bytes s.sock.buf.readerIndex 0 = [] := by simp [slice]
  change s.taken ++ slice s.sock.buf.bytes s.sock.buf.readerIndex 0 ++ [] = s.taken
  rw [hslice, List.append_nil, List.append_nil]

/-! ## What an act does to the bytes -/

/-- What holds of every session that a run reaches: the buffer stays within
its capacity, and what is held is, in order, some of what was received. -/
structure Sound (s : Session) : Prop where
  writerIndex_le : s.sock.buf.writerIndex ≤ BUFSIZE
  fits : ∀ buffer, s.sock.handling = some (buffer, true) →
    s.sock.buf.writerIndex + buffer.length ≤ BUFSIZE
  stuck : ∀ buffer, s.sock.handling = some (buffer, false) → buffer ≠ []
  order : s.held.Sublist s.received

/-- **An act that loses nothing** adds to both what it delivers. **One that
does** leaves less on the one side, or more on the other. -/
theorem act_held (h : s.act a = some s') (hs : Sound s) :
    (¬ Loses s a ∧ ∃ b, s'.received = s.received ++ b ∧ s'.held = s.held ++ b) ∨
      Loses s a ∧ ∃ b c, s'.received = s.received ++ b ∧ s.held = s'.held ++ c ∧ b ++ c ≠ [] := by
  have hsame : ∀ s' : Session, s'.received = s.received → s'.held = s.held → ¬ Loses s a →
      ¬ Loses s a ∧ ∃ b, s'.received = s.received ++ b ∧ s'.held = s.held ++ b :=
    fun s' hreceived hheld hloses => ⟨hloses, [], by simpa using hreceived, by simpa using hheld⟩
  obtain ⟨e, sock, rfl, hsock, rfl⟩ | ⟨length, dst, rfl, -, rfl⟩ | ⟨rfl, -, rfl⟩ |
    ⟨k, rfl, hk, rfl⟩ := Session.act_cases h
  · obtain ⟨buffer, rfl, -, -, -, rfl⟩ | ⟨buffer, rfl, hhandling, rfl⟩ |
      ⟨buffer, rfl, hhandling, rfl⟩ | ⟨rfl, -, -, rfl⟩ := happen_cases hsock
    · exact Or.inl (hsame _ (List.append_nil _) rfl id)
    · refine Or.inl ⟨fun hloses => ?_, buffer, ?_, ?_⟩
      · simp [Loses, hhandling] at hloses
      · simp only [Session.delivered, hhandling, Option.map_some, Option.getD_some]
      · simp only [Session.held, ByteBuf.unread_writeBytes, List.append_assoc]
    · refine Or.inr ⟨by simp [Loses, hhandling], buffer, [], ?_, ?_, ?_⟩
      · simp only [Session.delivered, hhandling, Option.map_some, Option.getD_some]
      · exact (List.append_nil _).symm
      · rw [List.append_nil]
        exact hs.stuck buffer hhandling
    · exact Or.inl (hsame _ (List.append_nil _) rfl id)
  · exact Or.inl (hsame _ rfl rfl id)
  · exact Or.inl (hsame _ rfl rfl id)
  · obtain ⟨l, rfl, -⟩ | ⟨hclear, hreads⟩ := read_step_cases k s.sock
    · by_cases hunread : s.sock.buf.unread = []
      · refine Or.inl (hsame _ rfl ?_ fun hloses => hloses.2 hunread)
        rw [held_advance_clear, Session.held, hunread, List.append_nil]
      · refine Or.inr
          ⟨⟨by simp [hk, Read.isClear], hunread⟩, [], s.sock.buf.unread, ?_, ?_, hunread⟩
        · exact (List.append_nil _).symm
        · rw [held_advance_clear, Session.held]
    · refine Or.inl (hsame _ rfl (held_advance hreads) ?_)
      rintro ⟨hloses, -⟩
      simp [hk, hclear] at hloses

/-- The bounds of the buffer are kept. -/
theorem bounds_act (h : s.act a = some s') (hs : Sound s) :
    s'.sock.buf.writerIndex ≤ BUFSIZE ∧
      (∀ buffer, s'.sock.handling = some (buffer, true) →
        s'.sock.buf.writerIndex + buffer.length ≤ BUFSIZE) ∧
      ∀ buffer, s'.sock.handling = some (buffer, false) → buffer ≠ [] := by
  have hle := hs.writerIndex_le
  obtain ⟨e, sock, rfl, hsock, rfl⟩ | ⟨length, dst, rfl, -, rfl⟩ | ⟨rfl, -, rfl⟩ |
    ⟨k, rfl, -, rfl⟩ := Session.act_cases h
  · obtain ⟨buffer, rfl, -, -, -, rfl⟩ | ⟨buffer, rfl, hhandling, rfl⟩ |
      ⟨buffer, rfl, hhandling, rfl⟩ | ⟨rfl, -, -, rfl⟩ := happen_cases hsock
    · refine ⟨hle, fun b hb => ?_, fun b hb hnil => ?_⟩
      · obtain ⟨rfl, hfits⟩ := Prod.mk.inj (Option.some.inj hb)
        exact of_decide_eq_true hfits
      · obtain ⟨rfl, hfits⟩ := Prod.mk.inj (Option.some.inj hb)
        subst hnil
        exact of_decide_eq_false hfits hle
    · refine ⟨?_, fun _ hb => (nomatch hb), fun _ hb => (nomatch hb)⟩
      have hfits := hs.fits buffer hhandling
      simp only [ByteBuf.writerIndex, ByteBuf.bytes_writeBytes, List.length_append] at hfits ⊢
      exact hfits
    · exact ⟨hle, fun _ hb => (nomatch hb), fun _ hb => (nomatch hb)⟩
    · exact ⟨hle, hs.fits, hs.stuck⟩
  · exact ⟨hle, hs.fits, hs.stuck⟩
  · exact ⟨hle, hs.fits, hs.stuck⟩
  · obtain ⟨l, rfl, hclear⟩ | ⟨-, hreads⟩ := read_step_cases k s.sock
    · simp only [Session.advance, hclear]
      refine ⟨Nat.zero_le _, fun b hb => ?_, hs.stuck⟩
      have hfits := hs.fits b hb
      exact le_trans (Nat.add_le_add_right (Nat.zero_le _) _) hfits
    · simp only [Session.advance, ByteBuf.writerIndex, hreads.bytes, hreads.handling]
      exact ⟨hle, hs.fits, hs.stuck⟩

theorem sound_start : Sound .start :=
  ⟨Nat.zero_le _, fun _ h => (nomatch h), fun _ h => (nomatch h), .refl _⟩

/-- **Every act keeps it.** -/
theorem sound_act (h : s.act a = some s') (hs : Sound s) : Sound s' := by
  obtain ⟨hle, hfits, hstuck⟩ := bounds_act h hs
  refine ⟨hle, hfits, hstuck, ?_⟩
  obtain ⟨-, b, hreceived, hheld⟩ | ⟨-, b, c, hreceived, hheld, -⟩ := act_held h hs
  · rw [hreceived, hheld]
    exact hs.order.append (.refl b)
  · rw [hreceived]
    have horder := hs.order
    rw [hheld] at horder
    exact ((List.sublist_append_left _ c).trans horder).trans (List.sublist_append_left _ b)

/-! ## Every run -/

/-- What is held is all that was received, or less. -/
theorem length_held_lt (hs : Sound s) (hkept : ¬ Kept s) : s.held.length < s.received.length := by
  by_contra hle
  exact hkept (hs.order.eq_of_length_le (not_lt.mp hle))

theorem kept_act (h : s.act a = some s') (hs : Sound s) (hkept : Kept s) :
    Kept s' ↔ ¬ Loses s a := by
  obtain ⟨hloses, b, hreceived, hheld⟩ | ⟨hloses, b, c, hreceived, hheld, hne⟩ := act_held h hs
  · refine iff_of_true ?_ hloses
    rw [Kept, hreceived, hheld, hkept]
  · refine iff_of_false (fun hkept' => hne ?_) (not_not.mpr hloses)
    have hlength := congrArg List.length hheld
    rw [hkept', hreceived, hkept] at hlength
    simp only [List.length_append] at hlength
    exact List.length_eq_zero_iff.mp (by rw [List.length_append]; omega)

/-- What was lost is lost for good. -/
theorem not_kept_act (h : s.act a = some s') (hs : Sound s) (hlost : ¬ Kept s) : ¬ Kept s' := by
  intro hkept
  have hlt := length_held_lt hs hlost
  obtain ⟨-, b, hreceived, hheld⟩ | ⟨-, b, c, hreceived, hheld, -⟩ := act_held h hs
  · have hlength := congrArg List.length hkept
    rw [hheld, hreceived, List.length_append, List.length_append] at hlength
    omega
  · have hlength := congrArg List.length hkept
    have hlength' := congrArg List.length hheld
    rw [hreceived, List.length_append] at hlength
    rw [List.length_append] at hlength'
    omega

/-- **Exactly when nothing is lost**: in every run, and so in each of its
states, what `read` took and what is left for it are what was received,
if and only if the handler goes on with no buffer that did not fit and
`read` clears no bytes. -/
theorem kept_iff {acts : List Act} (h : Session.start.run acts = some s) :
    Kept s ↔ ∀ v ∈ Run.taken Session.act acts .start, ¬ Loses v.1 v.2 :=
  Run.iff_taken (I := Sound) (fun _ _ _ hs ha => sound_act ha hs)
    (fun _ _ _ hs hkept ha => kept_act ha hs hkept)
    (fun _ _ _ hs hlost ha => not_kept_act ha hs hlost) sound_start rfl h

/-- Two bytes are received and one of them is read. -/
def readOne : List Act :=
  [.event (.data [65, 66]), .event .handle, .call (.int 1) none, .step, .step, .step, .step, .step,
    .step, .step]

/-- Where that leaves the session. -/
def afterReadOne : Session :=
  ⟨⟨⟨[65, 66], 1, by decide⟩, false, false, false, none⟩, some (.loopEof ⟨0, [65]⟩), [65, 66], [65]⟩

theorem kept_readOne : Kept afterReadOne :=
  (kept_iff (show Session.start.run readOne = some afterReadOne by decide)).mpr (by decide)

/-- **A first delivery that is longer than the buffer is lost.** -/
theorem run_overfull {buffer : Bytes} (h : BUFSIZE < buffer.length) :
    Session.start.run [.event (.data buffer), .event .handle] =
      some ⟨{ RubyNetSocket.new with paused := true }, none, buffer, []⟩ := by
  have hfits : isWritable .empty buffer.length = false :=
    decide_eq_false (by rw [ByteBuf.writerIndex, ByteBuf.empty, List.length_nil]; omega)
  simp [Run.play, Session.act, Session.start, RubyNetSocket.new, happen, hfits, Session.delivered]

/-- A byte arrives after `read` has seen that there is none, and is
cleared. -/
def cleared : List Act :=
  [.call (.int 1) none, .step, .step, .step, .event (.data [65]), .event .handle, .step]

/-- **Bytes are lost**: 8193 of them that are delivered together, and one
that arrives at the wrong moment. -/
theorem not_kept :
    (∃ s, Session.start.run [.event (.data (List.replicate 8193 65)), .event .handle] = some s ∧
      s.received = List.replicate 8193 65 ∧ s.held = [] ∧ ¬ Kept s) ∧
    ∃ s, Session.start.run cleared = some s ∧ s.received = [65] ∧ s.held = [] ∧ ¬ Kept s := by
  have hlong : BUFSIZE < (List.replicate 8193 (65 : UInt8)).length := by
    rw [List.length_replicate]
    decide
  refine ⟨⟨_, run_overfull hlong, rfl, rfl, fun hkept => ?_⟩, ⟨_, rfl, rfl, rfl, by decide⟩⟩
  have hlength := congrArg List.length hkept
  rw [List.length_replicate] at hlength
  cases hlength

end NetSocket

end Jubilee
