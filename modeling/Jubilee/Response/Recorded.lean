import Jubilee.Response.Model
/-!
# Response — what the recorder is left with

One lemma for each function that talks to the response: when it returns,
and what the response that records holds then.
-/

namespace Jubilee

namespace Response

/-! ## What the headers have the response note -/

/-- What an entry has the response note. -/
def note (r : Response) (e : JString × HeaderValue) : Response :=
  if e.1 = CONTENT_LENGTH then { r with contentLength := e.2 }
  else if e.1 = TRANSFER_ENCODING then
    if e.2 = .text CHUNKED then { r with chunked := true, contentLength := .falsy }
    else { r with chunked := false }
  else if e.1 = HIJACK then { r with hijack := e.2 }
  else r

section

variable {σ : Type*} {response : RubyHttpServerResponse σ} {t t' : σ}

/-- A round of `write_headers` that returned: the entry is noted, and the
rest goes on from there. -/
theorem writeHeaders'_note {e : JString × HeaderValue} {entries : List (JString × HeaderValue)}
    {r r' : Response} (h : writeHeaders' response (e :: entries) r t = (.ok r', t')) :
    ∃ t₁, writeHeaders' response entries (note r e) t₁ = (.ok r', t') := by
  obtain ⟨key, value⟩ := e
  unfold writeHeaders' at h
  by_cases hlength : key = CONTENT_LENGTH
  · rw [if_pos hlength] at h
    exact ⟨t, by rwa [note, if_pos hlength]⟩
  · rw [if_neg hlength] at h
    by_cases htransfer : key = TRANSFER_ENCODING
    · rw [if_pos htransfer] at h
      obtain ⟨-, t₁, -, hrest⟩ := Act.bind_eq_ok.mp h
      exact ⟨t₁, by rwa [note, if_neg hlength, if_pos htransfer]⟩
    · rw [if_neg htransfer] at h
      by_cases hhijack : key = HIJACK
      · rw [if_pos hhijack] at h
        exact ⟨t, by rwa [note, if_neg hlength, if_neg htransfer, if_pos hhijack]⟩
      · rw [if_neg hhijack] at h
        obtain ⟨-, t₁, -, hrest⟩ := Act.bind_eq_ok.mp h
        exact ⟨t₁, by rwa [note, if_neg hlength, if_neg htransfer, if_neg hhijack]⟩

/-- What the entries have the response note. -/
theorem noted {entries : List (JString × HeaderValue)} {r r' : Response}
    (h : writeHeaders' response entries r t = (.ok r', t')) : r' = entries.foldl note r := by
  induction entries generalizing r t with
  | nil => exact (Act.pure_eq_ok.mp h).1.symm
  | cons e entries ih =>
    obtain ⟨t₁, hrest⟩ := writeHeaders'_note h
    exact ih hrest

/-- The body is left to `write_body`. -/
theorem body_foldl_note (entries : List (JString × HeaderValue)) (r : Response) :
    (entries.foldl note r).body = r.body := by
  induction entries generalizing r with
  | nil => rfl
  | cons e entries ih =>
    rw [List.foldl_cons, ih, note]
    split_ifs <;> rfl

/-- The response chunks where one of its entries says so. -/
theorem chunked_foldl_note {entries : List (JString × HeaderValue)} {r : Response}
    (hn : (entries.map Prod.fst).Nodup)
    (h : (TRANSFER_ENCODING, .text CHUNKED) ∈ entries ∨
      TRANSFER_ENCODING ∉ entries.map Prod.fst ∧ r.chunked = true) :
    (entries.foldl note r).chunked = true := by
  induction entries generalizing r with
  | nil => exact (h.resolve_left List.not_mem_nil).2
  | cons e entries ih =>
    obtain ⟨hkey, hn⟩ := List.nodup_cons.mp hn
    rw [List.foldl_cons]
    refine ih hn ?_
    rcases h with hmem | ⟨hno, hr⟩
    · rcases List.mem_cons.mp hmem with rfl | hmem
      · refine Or.inr ⟨hkey, ?_⟩
        have hne : TRANSFER_ENCODING ≠ CONTENT_LENGTH := by decide
        simp [note, hne]
      · exact Or.inl hmem
    · rw [List.map_cons, List.mem_cons, not_or] at hno
      refine Or.inr ⟨hno.2, ?_⟩
      rw [note, if_neg (Ne.symm hno.1)]
      split_ifs <;> exact hr

end

/-- The response that records. -/
def recording (sep : LineSeparator) (decoders : Decoders) : RubyHttpServerResponse Sent :=
  ⟨Sent.recorder, sep, decoders⟩

variable {sep : LineSeparator} {decoders : Decoders} {s s' : Sent}

/-- A string is put as its lines. -/
theorem putHeader_text (key t : JString) :
    (recording sep decoders).putHeader key (.text t) s =
      (.ok (), s.putHeader key (split sep.chars t)) := by
  unfold RubyHttpServerResponse.putHeader recording
  by_cases hocc : occurs sep.chars t = true
  · change (if occurs sep.chars t = true then _ else _ : Act Sent Raised Unit) s = _
    rw [if_pos hocc]
    rfl
  · change (if occurs sep.chars t = true then _ else _ : Act Sent Raised Unit) s = _
    rw [if_neg hocc, split_of_not_occurs (Bool.not_eq_true _ ▸ hocc)]
    rfl

/-- Only a string can be put. -/
theorem putHeader_eq_ok {key : JString} {value : HeaderValue} :
    (recording sep decoders).putHeader key value s = (.ok (), s') ↔
      ∃ t, value = .text t ∧ s.putHeader key (split sep.chars t) = s' := by
  cases value with
  | falsy => simp [RubyHttpServerResponse.putHeader, Act.not_raise_eq_ok]
  | object toS => simp [RubyHttpServerResponse.putHeader, Act.not_raise_eq_ok]
  | text t => simp [putHeader_text]

/-! ## The headers -/

/-- What an entry puts: nothing, when it is only noted. -/
inductive Puts (sep : LineSeparator) : JString × HeaderValue → Sent → Sent → Prop
  | noted {key : JString} (value : HeaderValue) (s : Sent) :
    key = CONTENT_LENGTH ∨ key = HIJACK → Puts sep (key, value) s s
  | put {key : JString} (t : JString) (s : Sent) :
    key ≠ CONTENT_LENGTH → key ≠ HIJACK →
      Puts sep (key, .text t) s (s.putHeader key (split sep.chars t))

/-- **One round of `write_headers`.** -/
theorem writeHeaders'_cons {e : JString × HeaderValue} {entries : List (JString × HeaderValue)}
    {r r' : Response}
    (h : writeHeaders' (recording sep decoders) (e :: entries) r s = (.ok r', s')) :
    ∃ s₁, Puts sep e s s₁ ∧
      writeHeaders' (recording sep decoders) entries (note r e) s₁ = (.ok r', s') := by
  obtain ⟨key, value⟩ := e
  unfold writeHeaders' at h
  by_cases hlength : key = CONTENT_LENGTH
  · rw [if_pos hlength] at h
    refine ⟨s, .noted value s (Or.inl hlength), ?_⟩
    rwa [note, if_pos hlength]
  · rw [if_neg hlength] at h
    by_cases htransfer : key = TRANSFER_ENCODING
    · rw [if_pos htransfer] at h
      obtain ⟨⟨⟩, s₁, hput, hrest⟩ := Act.bind_eq_ok.mp h
      obtain ⟨t, rfl, rfl⟩ := putHeader_eq_ok.mp hput
      have hhijack : key ≠ HIJACK := htransfer ▸ by decide
      refine ⟨_, .put t s hlength hhijack, ?_⟩
      rwa [note, if_neg hlength, if_pos htransfer]
    · rw [if_neg htransfer] at h
      by_cases hhijack : key = HIJACK
      · rw [if_pos hhijack] at h
        refine ⟨s, .noted value s (Or.inr hhijack), ?_⟩
        rwa [note, if_neg hlength, if_neg htransfer, if_pos hhijack]
      · rw [if_neg hhijack] at h
        obtain ⟨⟨⟩, s₁, hput, hrest⟩ := Act.bind_eq_ok.mp h
        obtain ⟨t, rfl, rfl⟩ := putHeader_eq_ok.mp hput
        refine ⟨_, .put t s hlength hhijack, ?_⟩
        rwa [note, if_neg hlength, if_neg htransfer, if_neg hhijack]

/-- The headers are put before the response is told to chunk. -/
theorem chunked_writeHeaders' {entries : List (JString × HeaderValue)} {r r' : Response}
    (h : writeHeaders' (recording sep decoders) entries r s = (.ok r', s')) :
    s'.chunked = s.chunked := by
  induction entries generalizing r s with
  | nil => rw [(Act.pure_eq_ok.mp h).2]
  | cons e entries ih =>
    obtain ⟨s₁, hputs, hrest⟩ := writeHeaders'_cons h
    rw [ih hrest]
    cases hputs with
    | noted => rfl
    | put => rfl

/-! ## The body -/

/-- What is written for a part. -/
def chunkOf (chunked : Bool) (part : Option RubyString) : Option RubyString :=
  if chunked then part.bind stripTermMarkers else part

/-- What is written for the parts, decoded. -/
def written (decoders : Decoders) (chunked : Bool) (parts : List (Option RubyString)) :
    List JString :=
  (parts.filterMap (chunkOf chunked)).map (asJavaString decoders)

theorem written_cons (chunked : Bool) (part : Option RubyString)
    (parts : List (Option RubyString)) :
    written decoders chunked (part :: parts) =
      written decoders chunked [part] ++ written decoders chunked parts := by
  cases h : chunkOf chunked part <;> simp [written, h]

/-- `writePart` writes what `chunkOf` makes of the part. -/
theorem writePart_recording (chunked : Bool) (part : Option RubyString) :
    writePart (recording sep decoders) chunked part s =
      (.ok (), { s with body := s.body ++ written decoders chunked [part] }) := by
  unfold writePart
  rw [show (if chunked then part.bind stripTermMarkers else part) = chunkOf chunked part from rfl]
  cases h : chunkOf chunked part with
  | none =>
    have hnone : written decoders chunked [part] = [] := by simp [written, h]
    rw [hnone, List.append_nil]
    rfl
  | some chunk =>
    have hsome : written decoders chunked [part] = [asJavaString decoders chunk] := by
      simp [written, h]
    rw [hsome]
    rfl

/-- The loop over the parts writes them in their order. -/
theorem forM_writePart (chunked : Bool) (parts : List (Option RubyString)) (s : Sent) :
    parts.forM (writePart (recording sep decoders) chunked) s =
      (.ok (), { s with body := s.body ++ written decoders chunked parts }) := by
  induction parts generalizing s with
  | nil =>
    have hnil : written decoders chunked [] = [] := rfl
    rw [hnil, List.append_nil]
    rfl
  | cons part parts ih =>
    change (writePart (recording sep decoders) chunked part >>= fun _ =>
      parts.forM (writePart (recording sep decoders) chunked)) s = _
    rw [Act.bind_of_ok (writePart_recording chunked part), ih, written_cons chunked part parts,
      List.append_assoc]

theorem each_eq_ok {body : Body} {chunked : Bool} :
    body.each (writePart (recording sep decoders) chunked) s = (.ok (), s') ↔
      body.raises = none ∧
        { s with body := s.body ++ written decoders chunked body.parts } = s' := by
  unfold Body.each
  rw [Act.bind_of_ok (forM_writePart chunked body.parts s)]
  cases body.raises with
  | some e => simp [Act.not_raise_eq_ok]
  | none => simp [Act.pure_eq_ok]

/-! ## The framing -/

/-- The text that is put for a length. -/
def HeaderValue.sentText : HeaderValue → Option JString
  | .falsy => none
  | .text t => some t
  | .object toS => some toS

/-- What the response holds once a body of a length is framed. -/
def frame (sep : LineSeparator) (length : HeaderValue) (s : Sent) : Sent :=
  let s := s.putHeader "Server".toList ["Jubilee(3.0.0)".toList]
  match length.sentText with
  | none => { s with chunked := true }
  | some t => s.putHeader CONTENT_LENGTH (split sep.chars t)

@[simp] theorem frame_body (length : HeaderValue) : (frame sep length s).body = s.body := by
  cases length <;> rfl

/-- `writeBody` frames the body by the length noted last, and writes it. -/
theorem writeBody_eq_ok {r : Response} :
    writeBody (recording sep decoders) r s = (.ok (), s') ↔
      r.body.raises = none ∧
        { frame sep r.contentLength s with
          body := s.body ++ written decoders r.chunked r.body.parts } = s' := by
  have hframed : writeBody (recording sep decoders) r s =
      r.body.each (writePart (recording sep decoders) r.chunked)
        (frame sep r.contentLength s) := by
    obtain ⟨status, headers, body, contentLength, chunked, hijack⟩ := r
    cases contentLength with
    | falsy => rfl
    | text t => exact Act.bind_of_ok (putHeader_text CONTENT_LENGTH t)
    | object toS => exact Act.bind_of_ok (putHeader_text CONTENT_LENGTH toS)
  rw [hframed, each_eq_ok, frame_body]

end Response

end Jubilee
