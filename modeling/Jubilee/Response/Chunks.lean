import Jubilee.Response.Recorded
/-!
# Response — chunks the application made itself

`strip_term_markers` takes the payload out of a chunk by a regular
expression that may match inside a part: it starts at any line and ends
before the last line end, and what stands around the match is dropped.
`strip_exact_iff` says which parts are taken for a chunk though they are
none. On a body that is chunked as it should be nothing of this happens:
`write_body` writes the payloads (`write_body_dechunks`).
-/

namespace Jubilee

namespace Response

/-! ## What the regular expression finds -/

/-- The line end of a chunk. -/
def term : Bytes := [13, 10]

/-- A size in hex digits. -/
def HexDigits (size : Bytes) : Prop := size ≠ [] ∧ ∀ b ∈ size, isHexDigit b = true

/-- After `pre` a line starts; `start` says whether one does before it. -/
def lineStart (start : Bool) (pre : Bytes) : Bool :=
  pre.getLast?.elim start fun b => b = 10

/-- A place where the regular expression matches: a size and a payload,
each with a line end after it. -/
structure Match (bs size data post : Bytes) : Prop where
  split : bs = size ++ term ++ data ++ term ++ post
  digits : HexDigits size
  nonempty : data ≠ []

/-- The match it gives: at the first start of a line where there is one,
and with the longest payload. -/
structure FirstMatch (start : Bool) (bs pre size data post : Bytes) : Prop where
  split : bs = pre ++ (size ++ term ++ data ++ term ++ post)
  digits : HexDigits size
  nonempty : data ≠ []
  line : lineStart start pre = true
  greedy : ¬ term <:+: post
  leftmost : ∀ pre' rest size' data' post', bs = pre' ++ rest → lineStart start pre' = true →
    Match rest size' data' post' → pre.length ≤ pre'.length

theorem lineStart_cons (start : Bool) (b : UInt8) (pre : Bytes) :
    lineStart start (b :: pre) = lineStart (b = 10) pre := by
  rw [lineStart, lineStart, List.getLast?_cons]
  cases pre.getLast? <;> rfl

/-- A line end comes after a byte that is none of its own, or where it
came before. -/
theorem infix_cons_iff {b : UInt8} {bs : Bytes} :
    term <:+: b :: bs ↔ (b = 13 ∧ bs.head? = some 10) ∨ term <:+: bs := by
  rw [List.infix_cons_iff]
  refine or_congr_left ?_
  cases bs with
  | nil => simp [term]
  | cons c cs => simp [term, List.cons_prefix_cons, eq_comm]

theorem beforeLastTerm_eq_none_iff {bs : Bytes} : beforeLastTerm bs = none ↔ ¬ term <:+: bs := by
  induction bs with
  | nil => simp [beforeLastTerm, term]
  | cons b bs ih =>
    rw [infix_cons_iff, not_or, ← ih, beforeLastTerm]
    cases beforeLastTerm bs with
    | some p => simp
    | none => simp

/-- Nothing is left out after the last line end. -/
theorem beforeLastTerm_append {p post : Bytes} (h : ¬ term <:+: post) :
    beforeLastTerm (p ++ term ++ post) = some p := by
  induction p with
  | nil =>
    have hrest : beforeLastTerm (10 :: post) = none := by
      rw [beforeLastTerm_eq_none_iff, infix_cons_iff]
      rintro (⟨hb, -⟩ | hinfix)
      · cases hb
      · exact h hinfix
    change beforeLastTerm (13 :: 10 :: post) = some []
    rw [beforeLastTerm, hrest]
    rfl
  | cons b p ih => rw [List.cons_append, List.cons_append, beforeLastTerm, ih]

/-- What stands before the last line end. -/
theorem beforeLastTerm_eq_some_iff {bs p : Bytes} :
    beforeLastTerm bs = some p ↔ ∃ post, bs = p ++ term ++ post ∧ ¬ term <:+: post := by
  constructor
  · intro h
    induction bs generalizing p with
    | nil => cases h
    | cons b bs ih =>
      rw [beforeLastTerm] at h
      cases hrest : beforeLastTerm bs with
      | some q =>
        rw [hrest] at h
        obtain rfl := Option.some.inj h
        obtain ⟨post, rfl, hpost⟩ := ih hrest
        exact ⟨post, rfl, hpost⟩
      | none =>
        rw [hrest] at h
        obtain ⟨⟨rfl, hhead⟩, hp⟩ := Option.ite_none_right_eq_some.mp h
        obtain rfl := Option.some.inj hp
        cases bs with
        | nil => cases hhead
        | cons c cs =>
          obtain rfl := Option.some.inj hhead
          rw [beforeLastTerm_eq_none_iff, infix_cons_iff, not_or] at hrest
          exact ⟨cs, rfl, hrest.2⟩
  · rintro ⟨post, rfl, hpost⟩
    exact beforeLastTerm_append hpost

/-- Hex digits end where the line end begins. -/
theorem takeWhile_digits {size rest : Bytes} (h : HexDigits size) :
    (size ++ 13 :: rest).takeWhile isHexDigit = size := by
  rw [List.takeWhile_append_of_pos h.2, List.takeWhile_cons_of_neg (by decide), List.append_nil]

/-- Where the digits and their line end are as they should be, the payload
is what is left to find. -/
theorem matchHere_append {size rest : Bytes} {b : UInt8} (h : HexDigits size) :
    matchHere (size ++ 13 :: 10 :: b :: rest) =
      (beforeLastTerm rest).map fun p => (size, b :: p) := by
  rw [matchHere, takeWhile_digits h, if_neg h.1, List.drop_left]
  rfl

theorem Match.exists_cons {bs size data post : Bytes} (h : Match bs size data post) :
    ∃ b p, data = b :: p ∧ bs = size ++ 13 :: 10 :: b :: (p ++ term ++ post) := by
  obtain ⟨b, p, rfl⟩ := List.exists_cons_of_ne_nil h.nonempty
  exact ⟨b, p, rfl, by rw [h.split]; simp [term]⟩

/-- **A match at one place**: it is the one with the longest payload. -/
theorem matchHere_eq_some_iff {bs size data : Bytes} :
    matchHere bs = some (size, data) ↔ ∃ post, Match bs size data post ∧ ¬ term <:+: post := by
  constructor
  · intro h
    have hsplit := List.prefix_iff_eq_append.mp (List.takeWhile_prefix isHexDigit (l := bs))
    have hdigits : ∀ b ∈ bs.takeWhile isHexDigit, isHexDigit b = true :=
      fun b hb => List.mem_takeWhile_imp hb
    unfold matchHere at h
    generalize bs.takeWhile isHexDigit = digits at h hsplit hdigits
    by_cases hnil : digits = []
    · rw [if_pos hnil] at h
      cases h
    · rw [if_neg hnil] at h
      split at h
      · rename_i b rest hdrop
        obtain ⟨p, hlast, hpair⟩ := Option.map_eq_some_iff.mp h
        obtain ⟨rfl, rfl⟩ := Prod.mk.inj hpair
        obtain ⟨post, rfl, hpost⟩ := beforeLastTerm_eq_some_iff.mp hlast
        refine ⟨post, ⟨?_, ⟨hnil, hdigits⟩, List.cons_ne_nil _ _⟩, hpost⟩
        rw [← hsplit, hdrop]
        simp [term]
      · cases h
  · rintro ⟨post, hm, hpost⟩
    obtain ⟨b, p, rfl, rfl⟩ := hm.exists_cons
    rw [matchHere_append hm.digits, beforeLastTerm_append hpost, Option.map_some]

theorem matchHere_eq_none_iff {bs : Bytes} :
    matchHere bs = none ↔ ∀ size data post, ¬ Match bs size data post := by
  constructor
  · intro h size data post hm
    obtain ⟨b, p, rfl, rfl⟩ := hm.exists_cons
    rw [matchHere_append hm.digits, Option.map_eq_none_iff, beforeLastTerm_eq_none_iff] at h
    exact h ⟨p, post, rfl⟩
  · intro h
    cases hm : matchHere bs with
    | none => rfl
    | some m =>
      obtain ⟨post, hmatch, -⟩ := matchHere_eq_some_iff.mp hm
      exact absurd hmatch (h _ _ _)

/-! ## Where it finds it -/

section

variable {start : Bool} {bs pre size data post : Bytes} {b : UInt8}

theorem firstMatch_nil_iff :
    FirstMatch start bs [] size data post ↔
      start = true ∧ Match bs size data post ∧ ¬ term <:+: post :=
  ⟨fun h => ⟨h.line, ⟨h.split, h.digits, h.nonempty⟩, h.greedy⟩,
    fun ⟨hs, hm, hg⟩ => ⟨hm.split, hm.digits, hm.nonempty, hs, hg, fun _ _ _ _ _ _ _ _ => by simp⟩⟩

/-- A match further on: none starts here, and it is the first of the
rest. -/
theorem firstMatch_cons_iff :
    FirstMatch start (b :: bs) (b :: pre) size data post ↔
      (start = true → ∀ size data post, ¬ Match (b :: bs) size data post) ∧
        FirstMatch (b = 10) bs pre size data post := by
  constructor
  · rintro ⟨hsplit, hdigits, hdata, hline, hgreedy, hleft⟩
    refine ⟨fun hs size' data' post' hm => ?_, ?_⟩
    · have := hleft [] (b :: bs) size' data' post' rfl hs hm
      simp at this
    · rw [lineStart_cons] at hline
      refine ⟨List.tail_eq_of_cons_eq hsplit, hdigits, hdata, hline, hgreedy, ?_⟩
      rintro pre' rest size' data' post' rfl hline' hm
      have := hleft (b :: pre') rest size' data' post' rfl (by rwa [lineStart_cons]) hm
      simpa using this
  · rintro ⟨hnone, hsplit, hdigits, hdata, hline, hgreedy, hleft⟩
    refine ⟨congrArg (b :: ·) hsplit, hdigits, hdata, by rwa [lineStart_cons], hgreedy, ?_⟩
    intro pre' rest size' data' post' hbs hline' hm
    cases pre' with
    | nil =>
      obtain rfl : b :: bs = rest := hbs
      exact absurd hm (hnone hline' _ _ _)
    | cons c pre' =>
      obtain ⟨rfl, rfl⟩ := List.cons.inj hbs
      rw [lineStart_cons] at hline'
      simpa using hleft pre' rest size' data' post' rfl hline' hm

/-- **What the regular expression finds**: its first match. -/
theorem termRegex_eq_some_iff :
    termRegex start bs = some (size, data) ↔
      ∃ pre post, FirstMatch start bs pre size data post := by
  induction bs generalizing start with
  | nil =>
    constructor
    · intro h; cases h
    · rintro ⟨pre, post, h⟩
      have := congrArg List.length h.split
      simp [term] at this
  | cons b bs ih =>
    rw [termRegex]
    by_cases hs : start = true ∧ matchHere (b :: bs) ≠ none
    · obtain ⟨rfl, hne⟩ := hs
      obtain ⟨m, hm⟩ := Option.ne_none_iff_exists'.mp hne
      rw [if_pos rfl, hm, Option.some_or, ← hm, matchHere_eq_some_iff]
      constructor
      · rintro ⟨post, hmatch, hgreedy⟩
        exact ⟨[], post, firstMatch_nil_iff.mpr ⟨rfl, hmatch, hgreedy⟩⟩
      · rintro ⟨pre, post, h⟩
        cases pre with
        | nil => exact ⟨post, (firstMatch_nil_iff.mp h).2⟩
        | cons c pre =>
          obtain rfl : b = c := (List.cons.inj h.split).1
          obtain ⟨hnone, -⟩ := firstMatch_cons_iff.mp h
          exact absurd (matchHere_eq_none_iff.mpr (hnone rfl)) hne
    · have hnone : start = true → ∀ size data post, ¬ Match (b :: bs) size data post := by
        intro ht
        rw [← matchHere_eq_none_iff]
        by_contra hne
        exact hs ⟨ht, hne⟩
      have hif : (if start = true then matchHere (b :: bs) else none) = none := by
        by_cases ht : start = true
        · rw [if_pos ht, matchHere_eq_none_iff]
          exact hnone ht
        · rw [if_neg ht]
      rw [hif, Option.none_or, ih]
      constructor
      · rintro ⟨pre, post, h⟩
        exact ⟨b :: pre, post, firstMatch_cons_iff.mpr ⟨hnone, h⟩⟩
      · rintro ⟨pre, post, h⟩
        cases pre with
        | nil =>
          obtain ⟨ht, hm, -⟩ := firstMatch_nil_iff.mp h
          exact absurd hm (hnone ht _ _ _)
        | cons c pre =>
          obtain rfl : b = c := (List.cons.inj h.split).1
          exact ⟨pre, post, (firstMatch_cons_iff.mp h).2⟩

/-! ## One chunk, and nothing else -/

/-- The part is a chunk with the payload `p`, and nothing more. -/
def IsChunk (bs p : Bytes) : Prop :=
  ∃ size, HexDigits size ∧ p ≠ [] ∧ hexValue size = p.length ∧ bs = size ++ term ++ p ++ term

/-- Of a part that is the terminator nothing is left, of one that is a
chunk its payload, and every other part is left as it is. -/
structure OneChunk (chunk : RubyString) : Prop where
  terminator : chunk.bytes = tail → stripTermMarkers chunk = none
  payload : ∀ p, IsChunk chunk.bytes p → stripTermMarkers chunk = some { chunk with bytes := p }
  unchanged : chunk.bytes ≠ tail → (∀ p, ¬ IsChunk chunk.bytes p) →
    stripTermMarkers chunk = some chunk

theorem FirstMatch.length_eq (h : FirstMatch start bs pre size data post) :
    bs.length = pre.length + size.length + data.length + post.length + 4 := by
  rw [h.split]
  simp only [List.length_append, term, List.length_cons, List.length_nil]
  omega

/-- What is left of a part with a match. -/
theorem stripTermMarkers_of_firstMatch {chunk : RubyString}
    (h : FirstMatch true chunk.bytes pre size data post) :
    stripTermMarkers chunk =
      some (if hexValue size = data.length then { chunk with bytes := data } else chunk) := by
  have hne : chunk.bytes ≠ tail := by
    intro htail
    have hlen := h.length_eq
    have := List.length_pos_iff.mpr h.digits.1
    have := List.length_pos_iff.mpr h.nonempty
    rw [htail] at hlen
    simp only [tail, List.length_cons, List.length_nil] at hlen
    omega
  rw [stripTermMarkers, if_neg hne, termRegex_eq_some_iff.mpr ⟨pre, post, h⟩]

/-- A chunk is matched as a whole. -/
theorem firstMatch_of_chunk {p : Bytes} (hdigits : HexDigits size) (hp : p ≠ []) :
    FirstMatch true (size ++ term ++ p ++ term) [] size p [] :=
  firstMatch_nil_iff.mpr ⟨rfl, ⟨(List.append_nil _).symm, hdigits, hp⟩, by simp [term]⟩

theorem stripTermMarkers_of_isChunk {chunk : RubyString} {p : Bytes} (h : IsChunk chunk.bytes p) :
    stripTermMarkers chunk = some { chunk with bytes := p } := by
  obtain ⟨size, hdigits, hp, hsize, hbs⟩ := h
  rw [stripTermMarkers_of_firstMatch (hbs ▸ firstMatch_of_chunk hdigits hp), if_pos hsize]

/-- Where the part is a chunk, the match is the chunk. -/
theorem FirstMatch.whole {p : Bytes} (h : FirstMatch true bs pre size data post)
    (hc : IsChunk bs p) : pre = [] ∧ post = [] := by
  obtain ⟨size', hdigits, hp, -, rfl⟩ := hc
  have hwhole := firstMatch_of_chunk hdigits hp
  have hpre : pre = [] := by
    have := h.leftmost [] _ size' p [] rfl rfl ⟨hwhole.split, hdigits, hp⟩
    exact List.length_eq_zero_iff.mp (by simpa using this)
  have heq := (termRegex_eq_some_iff.mpr ⟨_, _, h⟩).symm.trans
    (termRegex_eq_some_iff.mpr ⟨_, _, hwhole⟩)
  obtain ⟨rfl, rfl⟩ := Prod.mk.inj (Option.some.inj heq)
  have hlen := h.length_eq.symm.trans hwhole.length_eq
  rw [hpre] at hlen
  simp only [List.length_nil] at hlen
  exact ⟨hpre, List.length_eq_zero_iff.mp (by omega)⟩

/-- **Exactly which parts are taken for what they are**: those in which no
match whose size fits has anything around it. -/
theorem strip_exact_iff (chunk : RubyString) :
    OneChunk chunk ↔ ∀ pre size data post, FirstMatch true chunk.bytes pre size data post →
      hexValue size = data.length → pre = [] ∧ post = [] := by
  constructor
  · intro h pre size data post hm hsize
    by_cases hc : ∃ p, IsChunk chunk.bytes p
    · exact hm.whole hc.choose_spec
    · -- the payload alone is shorter than the part
      have hne : chunk.bytes ≠ tail := by
        intro htail
        have hnone := h.terminator htail
        rw [stripTermMarkers_of_firstMatch hm] at hnone
        cases hnone
      have hstrip := h.unchanged hne (not_exists.mp hc)
      rw [stripTermMarkers_of_firstMatch hm, if_pos hsize] at hstrip
      have hbytes : data = chunk.bytes := congrArg RubyString.bytes (Option.some.inj hstrip)
      have hlen := hm.length_eq
      rw [← hbytes] at hlen
      omega
  · intro h
    refine ⟨fun htail => if_pos htail, fun p hc => stripTermMarkers_of_isChunk hc, ?_⟩
    intro hne hno
    rw [stripTermMarkers, if_neg hne]
    cases hregex : termRegex true chunk.bytes with
    | none => rfl
    | some m =>
      obtain ⟨pre, post, hm⟩ := termRegex_eq_some_iff.mp hregex
      have hsize : hexValue m.1 ≠ m.2.length := by
        intro hsize
        obtain ⟨rfl, rfl⟩ := h pre m.1 m.2 post hm hsize
        refine hno m.2 ⟨m.1, hm.digits, hm.nonempty, hsize, ?_⟩
        rw [hm.split, List.nil_append, List.append_nil]
      simp only [if_neg hsize]

/-- `"5\r\nhello\r\nXYZ"`: the last three bytes are dropped. -/
theorem strip_drops_rest :
    stripTermMarkers ⟨[53, 13, 10, 104, 101, 108, 108, 111, 13, 10, 88, 89, 90], .utf8⟩ =
        some ⟨[104, 101, 108, 108, 111], .utf8⟩ ∧
      ¬ OneChunk ⟨[53, 13, 10, 104, 101, 108, 108, 111, 13, 10, 88, 89, 90], .utf8⟩ := by
  have hstrip : stripTermMarkers
      ⟨[53, 13, 10, 104, 101, 108, 108, 111, 13, 10, 88, 89, 90], .utf8⟩ =
        some ⟨[104, 101, 108, 108, 111], .utf8⟩ := by decide
  refine ⟨hstrip, fun h => ?_⟩
  have hno : ∀ p, ¬ IsChunk [53, 13, 10, 104, 101, 108, 108, 111, 13, 10, 88, 89, 90] p := by
    rintro p ⟨size, -, -, -, hbs⟩
    have hlast := congrArg List.getLast? hbs
    rw [List.getLast?_append] at hlast
    cases hlast
  rw [h.unchanged (by decide) hno] at hstrip
  exact absurd hstrip (by decide)

end

/-! ## A body that is chunked as it should be -/

/-- A chunk as the application makes it: any digits that denote the length
of the payload. -/
structure Chunk where
  size : Bytes
  payload : Bytes
  encoding : Encoding
  digits : HexDigits size
  nonempty : payload ≠ []
  size_eq : hexValue size = payload.length

/-- The part of the body that the chunk is. -/
def Chunk.part (c : Chunk) : RubyString := ⟨c.size ++ term ++ c.payload ++ term, c.encoding⟩

/-- Its payload. -/
def Chunk.data (c : Chunk) : RubyString := ⟨c.payload, c.encoding⟩

/-- The body with these chunks, and the terminator. -/
def selfChunked (isArray : Bool) (chunks : List Chunk) (e : Encoding) : Body :=
  ⟨isArray, chunks.map (some ·.part) ++ [some ⟨tail, e⟩], none⟩

theorem stripTermMarkers_part (c : Chunk) : stripTermMarkers c.part = some c.data :=
  stripTermMarkers_of_isChunk ⟨c.size, c.digits, c.nonempty, c.size_eq, rfl⟩

variable {σ : Type*} (response : RubyHttpServerResponse σ)

/-- The statements of `write_body` before its loop. -/
def writeFraming (length : HeaderValue) : Act σ Raised Unit := do
  response.putDefaultHeaders
  match length with
  | .falsy => response.setChunked true
  | .text value => response.putHeader CONTENT_LENGTH (.text value)
  | .object toS => response.putHeader CONTENT_LENGTH (.text toS)

theorem writeBody_eq (r : Response) :
    writeBody response r =
      (writeFraming response r.contentLength >>= fun _ =>
        r.body.each (writePart response r.chunked)) := by
  obtain ⟨status, headers, body, contentLength, chunked, hijack⟩ := r
  unfold writeBody writeFraming
  rw [Act.bind_assoc]
  cases contentLength with
  | falsy | text value | object toS => rfl

/-- The loop of `write_body` writes the payloads. -/
theorem forM_selfChunked (isArray : Bool) (chunks : List Chunk) (e : Encoding) :
    (selfChunked isArray chunks e).parts.forM (writePart response true) =
      chunks.forM fun c => response.write c.data := by
  induction chunks with
  | nil => rfl
  | cons c chunks ih =>
    have hpart : writePart response true (some c.part) = response.write c.data := by
      rw [writePart, if_pos rfl, Option.bind_some, stripTermMarkers_part]
    change (writePart response true (some c.part) >>= fun _ =>
      (selfChunked isArray chunks e).parts.forM (writePart response true)) = _
    rw [hpart, ih]
    rfl

theorem each_selfChunked (isArray : Bool) (chunks : List Chunk) (e : Encoding) :
    (selfChunked isArray chunks e).each (writePart response true) =
      chunks.forM fun c => response.write c.data := by
  rw [← forM_selfChunked response isArray chunks e]
  exact Act.bind_pure _

/-- **De-chunking undoes chunking.** On a response that carries
`Transfer-Encoding: chunked`, `write_body` writes the payloads of the
chunks, one by one, and nothing for the terminator. -/
theorem write_body_dechunks {status : ℤ} {headers : Headers} {isArray : Bool}
    {chunks : List Chunk} {e : Encoding} {r : Response} {s s' : σ}
    (hc : (TRANSFER_ENCODING, .text CHUNKED) ∈ headers.entries)
    (h : writeHeaders response (new status headers (selfChunked isArray chunks e)) s =
      (.ok r, s')) :
    writeBody response r =
      (writeFraming response r.contentLength >>= fun _ =>
        chunks.forM fun c => response.write c.data) := by
  have hr := noted h
  have hbody : r.body = selfChunked isArray chunks e := by
    rw [hr, body_foldl_note]
    rfl
  have hchunked : r.chunked = true := by
    rw [hr]
    exact chunked_foldl_note headers.nodup (Or.inl hc)
  rw [writeBody_eq, hbody, hchunked, each_selfChunked]

/-- `"5\r\nhello\r\n"`. -/
def helloChunk : Chunk where
  size := [53]
  payload := [104, 101, 108, 108, 111]
  encoding := .utf8
  digits := ⟨by decide, List.forall_mem_singleton.mpr (by decide)⟩
  nonempty := by decide
  size_eq := by decide

/-- The headers `{"X-Header" => "Works", "Transfer-Encoding" => "chunked"}`. -/
def selfChunkedHeaders : Headers :=
  ⟨[("X-Header".toList, .text "Works".toList), (TRANSFER_ENCODING, .text CHUNKED)], by decide⟩

/-- The response with these headers and the chunk, after `write_headers`. -/
def selfChunkedHello : Response :=
  { new 200 selfChunkedHeaders (selfChunked true [helloChunk] .utf8) with
    contentLength := .falsy
    chunked := true }

/-- Of that body `"hello"` is written. -/
theorem write_body_dechunks_hello :
    writeBody (recording .lf ⟨bytewise, fun _ _ => []⟩) selfChunkedHello =
      (writeFraming (recording .lf ⟨bytewise, fun _ _ => []⟩) selfChunkedHello.contentLength >>=
        fun _ => [helloChunk].forM
          fun c => (recording .lf ⟨bytewise, fun _ _ => []⟩).write c.data) := by
  have hheaders : writeHeaders (recording .lf ⟨bytewise, fun _ _ => []⟩)
      (new 200 selfChunkedHeaders (selfChunked true [helloChunk] .utf8)) Sent.fresh =
        (.ok selfChunkedHello, (Sent.fresh.putHeader "X-Header".toList ["Works".toList]).putHeader
          TRANSFER_ENCODING [CHUNKED]) := rfl
  exact write_body_dechunks _ (by decide) hheaders

end Response

end Jubilee
