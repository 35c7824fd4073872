import Jubilee.Response.Recorded
/-!
# Response — the bytes of the body

A part of the body is decoded by its encoding and encoded again as UTF-8,
so its bytes arrive as they are only where they are UTF-8, for a part that
says it is, and only where they are ASCII for the others.
`bytes_kept_iff` says that no other part makes up for one that changed,
and that the length the response took of its only part is then the number
of bytes sent.
-/

namespace Jubilee

namespace Response

variable {sep : LineSeparator} {decoders : Decoders} {s s' : Sent}

/-! ## What is asked -/

/-- The bytes of the body as Vert.x sends it. -/
def sentBytes (s : Sent) : Bytes := s.body.flatMap encodeUtf8

/-- The bytes of a part. -/
def partBytes : Option RubyString → Bytes
  | none => []
  | some part => part.bytes

/-- The bytes of the parts. -/
def Body.bytes (body : Body) : Bytes := body.parts.flatMap partBytes

/-- The body arrived byte for byte, and a length that the response took of
it is the number of bytes sent. -/
structure BytesKept (r : Response) (s : Sent) : Prop where
  bytes : sentBytes s = r.body.bytes
  length : r.contentLength = r.body.contentLength → r.contentLength ≠ .falsy →
    s.values CONTENT_LENGTH = [(toString (sentBytes s).length).toList]

/-! ## The condition -/

/-- The bytes of a part are what its encoding and UTF-8 agree on. -/
def Faithful (part : RubyString) : Prop :=
  match part.encoding with
  | .utf8 => IsUtf8 part.bytes
  | _ => isAscii part.bytes = true

/-- The encoding is `UTF-8`, `US-ASCII` or `ASCII-8BIT`. -/
def Known (part : RubyString) : Prop := ∀ index, part.encoding ≠ .other index

/-! ## One part -/

theorem encode_ofByte (b : UInt8) (hb : b < 128) :
    String.utf8EncodeChar (Char.ofNat b.toNat) = [b] := by
  have h := (encode_ofNat b.toNat b.toNat_lt).1 (UInt8.lt_iff_toNat_lt.mp hb)
  rwa [UInt8.ofNat_toNat] at h

theorem length_encode_ofByte (b : UInt8) (hb : ¬ b < 128) :
    (String.utf8EncodeChar (Char.ofNat b.toNat)).length = 2 :=
  (encode_ofNat b.toNat b.toNat_lt).2 fun h => hb (UInt8.lt_iff_toNat_lt.mpr h)

/-- **No part arrives shorter than it is.** -/
theorem length_le_encode {part : RubyString} (hk : Known part) :
    part.bytes.length ≤ (encodeUtf8 (asJavaString decoders part)).length := by
  unfold asJavaString
  cases henc : part.encoding with
  | usAscii => exact length_le_encode_map _ part.bytes
  | utf8 => exact (decoders.utf8.decodes part.bytes).length_le
  | ascii8bit => exact length_le_encode_map _ part.bytes
  | other index => exact absurd henc (hk index)

/-- **A part arrives as it is** just where it is faithful. -/
theorem encode_eq_iff {part : RubyString} (hk : Known part) :
    encodeUtf8 (asJavaString decoders part) = part.bytes ↔ Faithful part := by
  unfold asJavaString Faithful
  cases henc : part.encoding with
  | usAscii =>
    have h := @encode_map_eq_iff (fun b => if b < 128 then Char.ofNat b.toNat else replacement)
      (fun b hb => by rw [if_pos hb]; exact encode_ofByte b hb)
      (fun b hb => by rw [if_neg hb]; decide) part.bytes
    rw [h]
    simp [isAscii]
  | utf8 => exact (decoders.utf8.decodes part.bytes).encode_eq_iff
  | ascii8bit =>
    have h := @encode_map_eq_iff (fun b => Char.ofNat b.toNat) encode_ofByte
      (fun b hb => (length_encode_ofByte b hb).ge) part.bytes
    rw [h]
    simp [isAscii]
  | other index => exact absurd henc (hk index)

/-! ## The body -/

/-- The bytes that arrive for a part. -/
def arrived (decoders : Decoders) : Option RubyString → Bytes
  | none => []
  | some part => encodeUtf8 (asJavaString decoders part)

theorem flatMap_written (parts : List (Option RubyString)) :
    (written decoders false parts).flatMap encodeUtf8 = parts.flatMap (arrived decoders) := by
  induction parts with
  | nil => rfl
  | cons part parts ih =>
    rw [written_cons, List.flatMap_append, ih, List.flatMap_cons]
    cases part with
    | none => rfl
    | some part => simp [written, chunkOf, arrived]

/-- The parts arrive as they are, together, just where each does. -/
theorem arrived_eq_iff {parts : List (Option RubyString)}
    (hk : ∀ part, some part ∈ parts → Known part) :
    parts.flatMap (arrived decoders) = parts.flatMap partBytes ↔
      ∀ part, some part ∈ parts → Faithful part := by
  have hle : ∀ part ∈ parts, (partBytes part).length ≤ (arrived decoders part).length := by
    intro part hpart
    cases part with
    | none => exact Nat.le_refl 0
    | some part => exact length_le_encode (hk part hpart)
  rw [flatMap_eq_iff_of_length_le hle]
  constructor
  · exact fun h part hpart => (encode_eq_iff (hk part hpart)).mp (h _ hpart)
  · intro h part hpart
    cases part with
    | none => rfl
    | some part => exact (encode_eq_iff (hk part hpart)).mpr (h part hpart)

/-! ## The length -/

/-- A length that `initialize` takes is that of the only part. -/
theorem contentLength_eq (body : Body) :
    body.contentLength = .falsy ∨ body.contentLength = .ofNat body.bytes.length := by
  obtain ⟨isArray, parts, raises⟩ := body
  unfold Body.contentLength Body.bytes
  match isArray, parts with
  | false, _ => exact Or.inl rfl
  | true, [] => exact Or.inl rfl
  | true, [none] => exact Or.inr rfl
  | true, [some part] => exact Or.inr (by simp [partBytes])
  | true, part :: _ :: _ => cases part <;> exact Or.inl rfl

/-- Nothing separates lines in a number. -/
theorem split_toString (n : ℕ) :
    split sep.chars (toString n).toList = [(toString n).toList] := by
  have hdigit : ∀ c ∈ (toString n).toList, c.isDigit = true := by
    intro c hc
    rw [Nat.toString_eq_repr, Nat.toList_repr] at hc
    exact Nat.isDigit_of_mem_toDigits (by decide) (by decide) hc
  obtain ⟨c, hc, hno⟩ : ∃ c ∈ sep.chars, c.isDigit = false := by
    cases sep with
    | lf => exact ⟨'\n', List.mem_cons_self, rfl⟩
    | crlf => exact ⟨'\r', List.mem_cons_self, rfl⟩
    | cr => exact ⟨'\r', List.mem_cons_self, rfl⟩
  refine split_of_not_occurs (not_occurs_of_not_mem hc fun hmem => ?_)
  rw [hdigit c hmem] at hno
  cases hno

/-- **Exactly when the body arrives byte for byte.** -/
theorem bytes_kept_iff {r : Response} (hr : r.chunked = false)
    (hk : ∀ part, some part ∈ r.body.parts → Known part) (hs : s.body = [])
    (h : writeBody (recording sep decoders) r s = (.ok (), s')) :
    BytesKept r s' ↔ ∀ part, some part ∈ r.body.parts → Faithful part := by
  obtain ⟨-, hsent⟩ := writeBody_eq_ok.mp h
  have hbytes : sentBytes s' = r.body.parts.flatMap (arrived decoders) := by
    rw [← hsent, hr, hs, List.nil_append]
    exact flatMap_written r.body.parts
  rw [← @arrived_eq_iff decoders _ hk, ← hbytes]
  constructor
  · exact fun hkept => hkept.bytes
  · intro heq
    refine ⟨heq, fun hlength hne => ?_⟩
    have hnat : r.contentLength = .ofNat (sentBytes s').length := by
      rw [hlength, show sentBytes s' = r.body.bytes from heq]
      exact (contentLength_eq r.body).resolve_left fun hf => hne (hlength.trans hf)
    have hvalues :
        s'.values CONTENT_LENGTH = (frame sep r.contentLength s).values CONTENT_LENGTH := by
      rw [← hsent]
      rfl
    rw [hvalues, hnat]
    unfold frame HeaderValue.ofNat HeaderValue.sentText
    rw [Sent.values_putHeader_self _ (equalsIgnoreCase_self _), split_toString]

/-- The response with one part for its body, and no headers. -/
def ofPart (part : RubyString) : Response := new 200 ⟨[], by decide⟩ ⟨true, [some part], none⟩

/-- What `write_body` sends of one part. -/
def sentPart (part : RubyString) : Except Raised Unit × Sent :=
  writeBody (recording .lf ⟨bytewise, fun _ _ => []⟩) (ofPart part) Sent.fresh

/-- `"hi"`. -/
def hi : RubyString := ⟨[104, 105], .usAscii⟩

theorem bytes_kept_hi :
    BytesKept (ofPart hi) (sentPart hi).2 ↔
      ∀ part, some part ∈ (ofPart hi).body.parts → Faithful part := by
  have hk : ∀ part, some part ∈ (ofPart hi).body.parts → Known part := by
    intro part hpart index h
    obtain rfl := Option.some.inj (List.mem_singleton.mp hpart)
    cases h
  have hsent : writeBody (recording .lf ⟨bytewise, fun _ _ => []⟩) (ofPart hi) Sent.fresh =
      (.ok (), (sentPart hi).2) := rfl
  exact bytes_kept_iff rfl hk rfl hsent

/-- **A byte that is not ASCII.** `"\xFF"` in `ASCII-8BIT` arrives as two
bytes, with a `Content-Length` of one. -/
theorem bytes_changed :
    (sentPart ⟨[255], .ascii8bit⟩).1 = .ok () ∧
      sentBytes (sentPart ⟨[255], .ascii8bit⟩).2 = [195, 191] ∧
      (sentPart ⟨[255], .ascii8bit⟩).2.values CONTENT_LENGTH = [['1']] ∧
      ¬ BytesKept (ofPart ⟨[255], .ascii8bit⟩) (sentPart ⟨[255], .ascii8bit⟩).2 := by
  have hsent : sentBytes (sentPart ⟨[255], .ascii8bit⟩).2 = [195, 191] := by decide
  refine ⟨rfl, hsent, by decide, fun hkept => ?_⟩
  have hbytes := hkept.bytes
  rw [hsent] at hbytes
  exact absurd hbytes (by decide)

end Response

end Jubilee
