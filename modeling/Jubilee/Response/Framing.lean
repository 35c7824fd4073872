import Jubilee.Response.Recorded
import Mathlib.Data.List.Nodup
/-!
# Response — how the body is framed

`write_headers` drops the length it noted when it meets
`Transfer-Encoding: chunked`, and notes a `Content-Length` whenever it
meets one. So the order of the two decides: a `Content-Length` that comes
second is sent beside the chunked coding. `one_framing_iff` says which
headers and bodies get exactly one framing.
-/

namespace Jubilee

namespace Response

/-! ## What is asked -/

/-- `write_headers` and `write_body`, on a response that `write_status`
has left. -/
def framed (sep : LineSeparator) (decoders : Decoders) (r : Response) :
    Except Raised Unit × Sent :=
  let write : Act Sent Raised Unit := do
    let r ← writeHeaders (recording sep decoders) r
    writeBody (recording sep decoders) r
  write { Sent.fresh with status := r.status }

/-- The names of the two framing headers are spelled as the program spells
them. -/
def Canonical (entries : List (JString × HeaderValue)) : Prop :=
  ∀ e ∈ entries, ∀ name ∈ [CONTENT_LENGTH, TRANSFER_ENCODING],
    equalsIgnoreCase e.1 name = true → e.1 = name

instance (entries : List (JString × HeaderValue)) : Decidable (Canonical entries) :=
  inferInstanceAs (Decidable (∀ e ∈ entries, ∀ name ∈ [CONTENT_LENGTH, TRANSFER_ENCODING],
    equalsIgnoreCase e.1 name = true → e.1 = name))

/-- There is a header `Content-Length`. -/
def HasContentLength (s : Sent) : Prop := s.values CONTENT_LENGTH ≠ []

/-- The response was told to chunk, or there is a header
`Transfer-Encoding: chunked`. -/
def IsChunked (s : Sent) : Prop := s.chunked = true ∨ CHUNKED ∈ s.values TRANSFER_ENCODING

/-- The body has exactly one framing, which is the application's where it
chunks. -/
structure OneFraming (headers : Headers) (s : Sent) : Prop where
  either : HasContentLength s ∨ IsChunked s
  not_both : ¬ (HasContentLength s ∧ IsChunked s)
  chunked : (TRANSFER_ENCODING, .text CHUNKED) ∈ headers.entries → IsChunked s

/-! ## The condition -/

/-- A `Transfer-Encoding: chunked` that no `Content-Length` follows. -/
def Unsized (entries : List (JString × HeaderValue)) : Prop :=
  (TRANSFER_ENCODING, .text CHUNKED) ∈ entries ∧
    ∀ length, ¬ [(TRANSFER_ENCODING, .text CHUNKED), (CONTENT_LENGTH, length)].Sublist entries

/-- The length that is declared: that of the application's
`Content-Length`, and without one that of a body of one part. -/
def Declares (entries : List (JString × HeaderValue)) (default length : HeaderValue) : Prop :=
  (CONTENT_LENGTH, length) ∈ entries ∨
    CONTENT_LENGTH ∉ entries.map Prod.fst ∧ length = default

/-- A declared length that no `Transfer-Encoding: chunked` undoes has a
line to send just where no line of the `Transfer-Encoding` is `chunked`. -/
def LengthFits (sep : LineSeparator) (headers : Headers) (body : Body) : Prop :=
  ∀ length t, Declares headers.entries body.contentLength length → length.sentText = some t →
    ¬ Unsized headers.entries →
      (split sep.chars t ≠ [] ↔
        ∀ v, (TRANSFER_ENCODING, .text v) ∈ headers.entries → CHUNKED ∉ split sep.chars v)

/-! ## The length that is noted last -/

theorem unsized_cons_iff {e : JString × HeaderValue} {entries : List (JString × HeaderValue)}
    (he : e ≠ (TRANSFER_ENCODING, .text CHUNKED)) : Unsized (e :: entries) ↔ Unsized entries := by
  simp [Unsized, List.cons_sublist_cons', he.symm]

@[simp] theorem note_contentLength_length (r : Response) (value : HeaderValue) :
    (note r (CONTENT_LENGTH, value)).contentLength = value := by
  simp [note]

@[simp] theorem note_contentLength_chunked (r : Response) :
    (note r (TRANSFER_ENCODING, .text CHUNKED)).contentLength = .falsy := by
  have hne : TRANSFER_ENCODING ≠ CONTENT_LENGTH := by decide
  simp [note, hne]

/-- The other entries say nothing of the length. -/
theorem note_contentLength_of_ne {r : Response} {e : JString × HeaderValue}
    (hlength : e.1 ≠ CONTENT_LENGTH) (hchunked : e ≠ (TRANSFER_ENCODING, .text CHUNKED)) :
    (note r e).contentLength = r.contentLength := by
  unfold note
  rw [if_neg hlength]
  by_cases htransfer : e.1 = TRANSFER_ENCODING
  · rw [if_pos htransfer, if_neg fun hvalue => hchunked (Prod.ext htransfer hvalue)]
  · rw [if_neg htransfer]
    by_cases hhijack : e.1 = HIJACK
    · rw [if_pos hhijack]
    · rw [if_neg hhijack]

/-- **The length noted last**: none, where the chunked coding comes last,
and else the declared one. -/
theorem contentLength_foldl_note {entries : List (JString × HeaderValue)}
    (hn : (entries.map Prod.fst).Nodup) (r : Response) :
    Unsized entries ∧ (entries.foldl note r).contentLength = .falsy ∨
      ¬ Unsized entries ∧
        Declares entries r.contentLength (entries.foldl note r).contentLength := by
  induction entries generalizing r with
  | nil => exact Or.inr ⟨fun h => absurd h.1 List.not_mem_nil, Or.inr ⟨List.not_mem_nil, rfl⟩⟩
  | cons e entries ih =>
    obtain ⟨key, value⟩ := e
    obtain ⟨hkey, hn⟩ := List.nodup_cons.mp hn
    have ih := ih hn (note r (key, value))
    by_cases hlength : key = CONTENT_LENGTH
    · -- a length is noted in place of whatever was noted before
      subst hlength
      have hne : CONTENT_LENGTH ≠ TRANSFER_ENCODING := by decide
      rw [unsized_cons_iff (by simp [hne]), List.foldl_cons]
      refine ih.imp_right (And.imp_right ?_)
      rintro (hmem | ⟨-, heq⟩)
      · exact Or.inl (List.mem_cons_of_mem _ hmem)
      · rw [heq, note_contentLength_length]
        exact Or.inl List.mem_cons_self
    by_cases hchunked : (key, value) = (TRANSFER_ENCODING, HeaderValue.text CHUNKED)
    · -- the noted length is dropped, and a `Content-Length` that follows is noted again
      obtain ⟨rfl, rfl⟩ := Prod.mk.inj hchunked
      rw [List.foldl_cons]
      rcases ih with ⟨hun, -⟩ | ⟨-, hmem | ⟨hno, heq⟩⟩
      · exact absurd (List.mem_map_of_mem hun.1) hkey
      · have hsub := (List.singleton_sublist.mpr hmem).cons_cons
          (TRANSFER_ENCODING, HeaderValue.text CHUNKED)
        exact Or.inr ⟨fun hun => hun.2 _ hsub, Or.inl (List.mem_cons_of_mem _ hmem)⟩
      · refine Or.inl ⟨⟨List.mem_cons_self, fun length hsub => hno ?_⟩,
          heq.trans (note_contentLength_chunked r)⟩
        have hmem : (CONTENT_LENGTH, length) ∈ entries := by
          rcases List.cons_sublist_cons'.mp hsub with hsub | ⟨-, hsub⟩
          · exact hsub.subset (by simp)
          · exact List.singleton_sublist.mp hsub
        exact List.mem_map_of_mem hmem
    · rw [unsized_cons_iff hchunked, List.foldl_cons]
      refine ih.imp_right (And.imp_right ?_)
      rintro (hmem | ⟨hno, heq⟩)
      · exact Or.inl (List.mem_cons_of_mem _ hmem)
      · refine Or.inr ⟨?_, heq.trans (note_contentLength_of_ne hlength hchunked)⟩
        rw [List.map_cons, List.mem_cons, not_or]
        exact ⟨Ne.symm hlength, hno⟩

/-- One length is declared. -/
theorem Declares.unique {entries : List (JString × HeaderValue)}
    {default length length' : HeaderValue} (hn : (entries.map Prod.fst).Nodup)
    (h : Declares entries default length) (h' : Declares entries default length') :
    length = length' := by
  rcases h with hmem | ⟨hno, rfl⟩
  · rcases h' with hmem' | ⟨hno, -⟩
    · exact (Prod.mk.inj (List.inj_on_of_nodup_map hn hmem hmem' rfl)).2
    · exact absurd (List.mem_map_of_mem hmem) hno
  · rcases h' with hmem' | ⟨-, rfl⟩
    · exact absurd (List.mem_map_of_mem hmem') hno
    · rfl

/-! ## The headers that are put -/

variable {sep : LineSeparator} {decoders : Decoders} {s s' : Sent}

/-- A header that no entry puts keeps its values. -/
theorem values_writeHeaders' {entries : List (JString × HeaderValue)} {r r' : Response}
    {name : JString}
    (hname : ∀ e ∈ entries, e.1 = CONTENT_LENGTH ∨ equalsIgnoreCase e.1 name = false)
    (h : writeHeaders' (recording sep decoders) entries r s = (.ok r', s')) :
    s'.values name = s.values name := by
  induction entries generalizing r s with
  | nil => rw [(Act.pure_eq_ok.mp h).2]
  | cons e entries ih =>
    obtain ⟨he, hname⟩ := List.forall_mem_cons.mp hname
    obtain ⟨s₁, hputs, hrest⟩ := writeHeaders'_cons h
    rw [ih hname hrest]
    cases hputs with
    | noted => rfl
    | put t s hlength hhijack =>
      exact Sent.values_putHeader_of_ne _ (he.resolve_left hlength)

/-- A `Transfer-Encoding` is put as its lines. -/
theorem codings_writeHeaders' {entries : List (JString × HeaderValue)} {r r' : Response}
    {value : HeaderValue} (hn : (entries.map Prod.fst).Nodup) (hc : Canonical entries)
    (hmem : (TRANSFER_ENCODING, value) ∈ entries)
    (h : writeHeaders' (recording sep decoders) entries r s = (.ok r', s')) :
    ∃ v, value = .text v ∧ s'.values TRANSFER_ENCODING = split sep.chars v := by
  induction entries generalizing r s with
  | nil => exact absurd hmem List.not_mem_nil
  | cons e entries ih =>
    obtain ⟨hkey, hn⟩ := List.nodup_cons.mp hn
    have hc' : Canonical entries := fun e he => hc e (List.mem_cons_of_mem _ he)
    obtain ⟨s₁, hputs, hrest⟩ := writeHeaders'_cons h
    rcases List.mem_cons.mp hmem with rfl | hmem
    · cases hputs with
      | noted _ _ hnoted => exact absurd hnoted (by decide)
      | put t _ _ _ =>
        refine ⟨t, rfl, ?_⟩
        have hother : ∀ e ∈ entries,
            e.1 = CONTENT_LENGTH ∨ equalsIgnoreCase e.1 TRANSFER_ENCODING = false := by
          intro e he
          refine Or.inr (Bool.eq_false_iff.mpr fun heq => hkey ?_)
          have hname : e.1 = TRANSFER_ENCODING := hc' e he _ (by simp) heq
          have hmem : e.1 ∈ entries.map Prod.fst := List.mem_map_of_mem he
          rwa [hname] at hmem
        rw [values_writeHeaders' hother hrest]
        exact Sent.values_putHeader_self _ (equalsIgnoreCase_self _)
    · exact ih hn hc' hmem hrest

/-- The header `Transfer-Encoding` has a value `chunked` where a line of the
application's is that. -/
theorem chunked_mem_codings {entries : List (JString × HeaderValue)} {r r' : Response}
    (hn : (entries.map Prod.fst).Nodup) (hc : Canonical entries)
    (hs : s.values TRANSFER_ENCODING = [])
    (h : writeHeaders' (recording sep decoders) entries r s = (.ok r', s')) :
    CHUNKED ∈ s'.values TRANSFER_ENCODING ↔
      ∃ v, (TRANSFER_ENCODING, .text v) ∈ entries ∧ CHUNKED ∈ split sep.chars v := by
  by_cases hmem : TRANSFER_ENCODING ∈ entries.map Prod.fst
  · obtain ⟨⟨-, value⟩, hmem, rfl⟩ := List.mem_map.mp hmem
    obtain ⟨v, rfl, hv⟩ := codings_writeHeaders' hn hc hmem h
    rw [hv]
    constructor
    · exact fun hline => ⟨v, hmem, hline⟩
    · rintro ⟨v', hmem', hline⟩
      obtain ⟨-, hvv⟩ := Prod.mk.inj (List.inj_on_of_nodup_map hn hmem hmem' rfl)
      rwa [HeaderValue.text.inj hvv]
  · have hno : ∀ e ∈ entries,
        e.1 = CONTENT_LENGTH ∨ equalsIgnoreCase e.1 TRANSFER_ENCODING = false := by
      intro e he
      refine Or.inr (Bool.eq_false_iff.mpr fun heq => hmem ?_)
      rw [← hc e he _ (by simp) heq]
      exact List.mem_map_of_mem he
    rw [values_writeHeaders' hno h, hs]
    constructor
    · exact fun hline => absurd hline List.not_mem_nil
    · exact fun ⟨v, hv, _⟩ => absurd (List.mem_map_of_mem hv) hmem

/-! ## The framing -/

theorem hasContentLength_frame (length : HeaderValue) (hs : s.values CONTENT_LENGTH = []) :
    HasContentLength (frame sep length s) ↔
      ∃ t, length.sentText = some t ∧ split sep.chars t ≠ [] := by
  have hserver : (s.putHeader "Server".toList ["Jubilee(3.0.0)".toList]).values CONTENT_LENGTH =
      [] := by
    rw [Sent.values_putHeader_of_ne _ (by decide), hs]
  unfold HasContentLength frame
  cases length.sentText with
  | none => simpa [Sent.values] using hserver
  | some t => simp [Sent.values_putHeader_self _ (equalsIgnoreCase_self CONTENT_LENGTH)]

theorem isChunked_frame (length : HeaderValue) (hs : s.chunked = false) :
    IsChunked (frame sep length s) ↔
      length.sentText = none ∨ CHUNKED ∈ s.values TRANSFER_ENCODING := by
  unfold IsChunked frame
  cases length.sentText with
  | none => simp
  | some t =>
    have hvalues : ((s.putHeader "Server".toList ["Jubilee(3.0.0)".toList]).putHeader
        CONTENT_LENGTH (split sep.chars t)).values TRANSFER_ENCODING =
        s.values TRANSFER_ENCODING := by
      rw [Sent.values_putHeader_of_ne _ (by decide), Sent.values_putHeader_of_ne _ (by decide)]
    rw [hvalues]
    simp [Sent.putHeader, hs]

theorem split_chunked (sep : LineSeparator) : split sep.chars CHUNKED = [CHUNKED] := by
  cases sep <;> decide

/-- **Exactly when the body has one framing.** -/
theorem one_framing_iff {status : ℤ} {headers : Headers} {body : Body}
    (hc : Canonical headers.entries)
    (h : framed sep decoders (new status headers body) = (.ok (), s)) :
    OneFraming headers s ↔ LengthFits sep headers body := by
  obtain ⟨r', s₁, hheaders, hbody⟩ := Act.bind_eq_ok.mp h
  have hnoted : r' = headers.entries.foldl note (new status headers body) := noted hheaders
  have hlengths : s₁.values CONTENT_LENGTH = [] := by
    refine values_writeHeaders' (fun e he => ?_) hheaders
    cases heq : equalsIgnoreCase e.1 CONTENT_LENGTH with
    | true => exact Or.inl (hc e he _ (by simp) heq)
    | false => exact Or.inr rfl
  have hcodings := chunked_mem_codings headers.nodup hc rfl hheaders
  -- what the body writes changes neither framing
  have hcl : HasContentLength s ↔
      ∃ t, r'.contentLength.sentText = some t ∧ split sep.chars t ≠ [] := by
    obtain ⟨-, rfl⟩ := writeBody_eq_ok.mp hbody
    exact hasContentLength_frame r'.contentLength hlengths
  have hch : IsChunked s ↔ r'.contentLength.sentText = none ∨
      ∃ v, (TRANSFER_ENCODING, .text v) ∈ headers.entries ∧ CHUNKED ∈ split sep.chars v := by
    obtain ⟨-, rfl⟩ := writeBody_eq_ok.mp hbody
    rw [← hcodings]
    exact isChunked_frame r'.contentLength (chunked_writeHeaders' hheaders)
  have hsupplied : (TRANSFER_ENCODING, .text CHUNKED) ∈ headers.entries → IsChunked s :=
    fun hmem => hch.mpr (Or.inr ⟨CHUNKED, hmem, by simp [split_chunked]⟩)
  have hone : OneFraming headers s ↔ (HasContentLength s ↔ ¬ IsChunked s) := by
    constructor
    · exact fun ho => ⟨fun hl hk => ho.not_both ⟨hl, hk⟩, fun hk => ho.either.resolve_right hk⟩
    · intro ho
      refine ⟨?_, fun hb => ho.mp hb.1 hb.2, hsupplied⟩
      by_cases hk : IsChunked s
      · exact Or.inr hk
      · exact Or.inl (ho.mpr hk)
  rw [hone, hcl, hch]
  rcases contentLength_foldl_note headers.nodup (new status headers body) with
    ⟨hun, hfalsy⟩ | ⟨hun, hdecl⟩
  · rw [← hnoted] at hfalsy
    have hnone : r'.contentLength.sentText = none := by rw [hfalsy]; rfl
    simp only [hnone]
    exact ⟨fun _ _ _ _ _ h => absurd hun h, fun _ => by simp⟩
  · rw [← hnoted] at hdecl
    have hfits : LengthFits sep headers body ↔
        ∀ t, r'.contentLength.sentText = some t → (split sep.chars t ≠ [] ↔
          ∀ v, (TRANSFER_ENCODING, .text v) ∈ headers.entries → CHUNKED ∉ split sep.chars v) := by
      constructor
      · exact fun hf t ht => hf _ t hdecl ht hun
      · intro hf length t hlength ht _
        rw [hlength.unique headers.nodup hdecl] at ht
        exact hf t ht
    rw [hfits]
    cases ht : r'.contentLength.sentText with
    | none => simp
    | some t => simp

/-- The headers `{"Transfer-Encoding" => "chunked", "Content-Length" => "5"}`. -/
def chunkedThenLength : Headers :=
  ⟨[(TRANSFER_ENCODING, .text CHUNKED), (CONTENT_LENGTH, .text ['5'])], by decide⟩

/-- The headers `{"Content-Length" => "5", "Transfer-Encoding" => "chunked"}`. -/
def lengthThenChunked : Headers :=
  ⟨[(CONTENT_LENGTH, .text ['5']), (TRANSFER_ENCODING, .text CHUNKED)], by decide⟩

/-- The body `["hello"]`. -/
def hello : Body := ⟨true, [some ⟨[104, 101, 108, 108, 111], .usAscii⟩], none⟩

/-- The response with these headers and this body. -/
def framedHello (headers : Headers) : Except Raised Unit × Sent :=
  framed .lf ⟨bytewise, fun _ _ => []⟩ (new 200 headers hello)

/-- The length first, and the chunked coding undoes it. -/
theorem one_framing_length_first :
    OneFraming lengthThenChunked (framedHello lengthThenChunked).2 ↔
      LengthFits .lf lengthThenChunked hello :=
  one_framing_iff (by decide) rfl

/-- **Both framings.** The chunked coding first, and the length that
follows is sent beside it. -/
theorem both_framings :
    Canonical chunkedThenLength.entries ∧ (framedHello chunkedThenLength).1 = .ok () ∧
      HasContentLength (framedHello chunkedThenLength).2 ∧
      IsChunked (framedHello chunkedThenLength).2 ∧
      ¬ OneFraming chunkedThenLength (framedHello chunkedThenLength).2 := by
  have hlength : HasContentLength (framedHello chunkedThenLength).2 := by
    unfold HasContentLength
    decide
  have hchunked : IsChunked (framedHello chunkedThenLength).2 := by
    unfold IsChunked
    decide
  exact ⟨by decide, rfl, hlength, hchunked, fun h => h.not_both ⟨hlength, hchunked⟩⟩

end Response

end Jubilee
