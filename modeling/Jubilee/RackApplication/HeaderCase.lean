import Jubilee.RackApplication.Finished
import Jubilee.RackApplication.Related
import Jubilee.Response.HeaderCase
/-!
# Rack application — results that differ in the case of header names

`header_case_iff` says for which two lists of headers, that are the same
but for the case of names, the responses to a result with the one and to
a result with the other are the same, whatever else the two results have
in common.
-/

namespace Jubilee

namespace RackApplication

open Response

/-- The application on the response that records, on a platform. -/
def recorderApp (sep : LineSeparator) (decoders : Decoders) : RackApplication Sent :=
  { onRecorder with lineSeparator := sep, decoders := decoders }

/-- What `respond` makes of a result, from a response nothing was told
yet. -/
def responseTo (sep : LineSeparator) (decoders : Decoders) (result : AppResult) :
    Except Raised Unit × Exchange Sent :=
  (recorderApp sep decoders).respond result ⟨.fresh, []⟩

/-- The response was told the same and finished in the same way, header
names being the same in any case. -/
structure ExchangeAlike (s s' : Exchange Sent) : Prop where
  response : SentAlike s.response s'.response
  finished : s.finished = s'.finished

/-- `respond` did the same. -/
def SameResponse (r r' : Except Raised Unit × Exchange Sent) : Prop :=
  r.1 = r'.1 ∧ ExchangeAlike r.2 r'.2

variable {sep : LineSeparator} {decoders : Decoders}

/-! ## Results that are spelled alike -/

theorem lifts_exchangeAlike : Lifts SentAlike ExchangeAlike :=
  fun _ _ => ⟨fun h => ⟨h.response, h.finished⟩, fun h => ⟨h.1, h.2⟩⟩

/-- **Two results that are spelled alike are prepared alike.** -/
theorem related_prepare {headers headers' : Headers} (hd : Distinct headers.entries)
    (hrecased : Recased headers.entries headers'.entries)
    (halike : SpelledAlike headers.entries headers'.entries) (status : ℤ) (body : Body)
    (toPath : Option (Except Raised JString)) (close hijackCall : Option (Except Raised Unit)) :
    Act.Related SentAlike Eq
      ((recorderApp sep decoders).prepare ⟨new status headers body, toPath, close, hijackCall⟩)
      ((recorderApp sep decoders).prepare
        ⟨new status headers' body, toPath, close, hijackCall⟩) := by
  have hstatus : Act.Related SentAlike Eq
      (writeStatus (recorderApp sep decoders).rubyResponse (new status headers body))
      (writeStatus (recorderApp sep decoders).rubyResponse (new status headers' body)) :=
    respAlike_recorder.writeStatus _
  refine hstatus.bind_eq fun _ =>
    (related_writeHeaders hd hrecased halike status body).bind fun r r' hr => ?_
  obtain ⟨-, hr⟩ := hr
  rw [hr.hijack]
  by_cases hhijack : r'.hijack = .falsy
  · have hnoBody : noBody r = noBody r' := by rw [noBody, noBody, hr.status]
    simp only [ne_eq, hhijack, not_true_eq_false, if_false, hnoBody]
    cases noBody r' with
    | true => exact .pure rfl
    | false =>
      rcases toPath with _ | e | path
      · exact (related_writeBody hr.body (hr.contentLength (hr.hijack.trans hhijack))
          (hr.chunked (hr.hijack.trans hhijack))).bind_eq fun _ => .pure rfl
      · exact .raise e
      · exact .pure rfl
  · simp only [ne_eq, hhijack, not_false_eq_true, if_true]
    refine Act.Related.bind_eq (.pure rfl) fun _ => ?_
    cases hijackCall with
    | none => exact .raise _
    | some called => exact .pure rfl

theorem sameResponse_of_spelledAlike {headers headers' : Headers} (hd : Distinct headers.entries)
    (hrecased : Recased headers.entries headers'.entries)
    (halike : SpelledAlike headers.entries headers'.entries) (status : ℤ) (body : Body)
    (toPath : Option (Except Raised JString)) (close hijackCall : Option (Except Raised Unit)) :
    SameResponse (responseTo sep decoders ⟨new status headers body, toPath, close, hijackCall⟩)
      (responseTo sep decoders ⟨new status headers' body, toPath, close, hijackCall⟩) := by
  have hrespond : Act.Related ExchangeAlike Eq
      ((recorderApp sep decoders).respond ⟨new status headers body, toPath, close, hijackCall⟩)
      ((recorderApp sep decoders).respond ⟨new status headers' body, toPath, close, hijackCall⟩) :=
    related_ensureClose rfl <| related_rescueNative <|
      (related_on lifts_exchangeAlike
        (related_prepare hd hrecased halike status body toPath close hijackCall)).bind_eq
        (related_perform lifts_exchangeAlike (.pure rfl) fun _ => .pure rfl)
  obtain ⟨hraised, hleft⟩ := hrespond ⟨.fresh, []⟩ ⟨.fresh, []⟩
    ⟨⟨rfl, rfl, rfl, fun _ => rfl⟩, rfl⟩
  exact ⟨Act.alike_eq_iff.mp hraised, hleft⟩

/-! ## Results that are not -/

/-- A result that cannot be prepared raises, but for what is rescued. -/
theorem responseTo_of_error {result : AppResult} (hclose : result.close = none) {e : Raised}
    {s : Sent} (h : (recorderApp sep decoders).prepare result .fresh = (.error e, s)) :
    responseTo sep decoders result = (if e.isNative then .ok () else .error e, ⟨s, []⟩) := by
  have hon : Exchange.on ((recorderApp sep decoders).prepare result) ⟨.fresh, []⟩ = _ := on_of h
  unfold responseTo respond ensureClose rescueNative
  rw [hclose, Act.bind_of_error hon]

/-- One that can is finished. -/
theorem responseTo_of_ok {result : AppResult} (hclose : result.close = none) {ending : Ending}
    (hending : ending = .end_ ∨ ending = .hijack (.ok ())) {s : Sent}
    (h : (recorderApp sep decoders).prepare result .fresh = (.ok ending, s)) :
    (responseTo sep decoders result).1 = .ok () ∧
      (responseTo sep decoders result).2.response = s := by
  have hon : Exchange.on ((recorderApp sep decoders).prepare result) ⟨.fresh, []⟩ = _ := on_of h
  unfold responseTo respond ensureClose rescueNative
  rw [hclose, Act.bind_of_ok hon]
  rcases hending with rfl | rfl
  · exact ⟨rfl, rfl⟩
  · exact ⟨rfl, rfl⟩

/-- A result that has headers only, and a callback to be hijacked with. -/
def headersOnly (headers : Headers) : AppResult :=
  ⟨new 204 headers ⟨false, [], none⟩, none, none, some (.ok ())⟩

/-- The response to it is its headers, those before one that stops it. -/
theorem responseTo_headersOnly (headers : Headers) :
    (responseTo sep decoders (headersOnly headers)).1 =
        (if stops headers.entries then .error .typeError else .ok ()) ∧
      (responseTo sep decoders (headersOnly headers)).2.response =
        putAll sep (forwarded headers.entries) { Sent.fresh with status := 204 } := by
  have hheaders : writeHeaders (recorderApp sep decoders).rubyResponse
      (headersOnly headers).response { Sent.fresh with status := 204 } = _ :=
    writeHeaders'_eq headers.entries _ _
  have hstatus : writeStatus (recorderApp sep decoders).rubyResponse
      (headersOnly headers).response .fresh = (.ok (), { Sent.fresh with status := 204 }) := rfl
  have hprepare : (recorderApp sep decoders).prepare (headersOnly headers) .fresh = _ :=
    Act.bind_of_ok hstatus
  cases hstops : stops headers.entries with
  | true =>
    rw [hstops, if_pos rfl] at hheaders
    rw [Act.bind_of_error hheaders] at hprepare
    rw [responseTo_of_error rfl hprepare]
    exact ⟨rfl, rfl⟩
  | false =>
    rw [hstops, if_neg Bool.false_ne_true] at hheaders
    rw [Act.bind_of_ok hheaders] at hprepare
    by_cases hhijack : (headers.entries.foldl note (headersOnly headers).response).hijack = .falsy
    · have hnoBody : noBody (headers.entries.foldl note (headersOnly headers).response) = true := by
        rw [noBody, status_foldl_note]
        rfl
      rw [if_neg (fun h => h hhijack), if_pos hnoBody] at hprepare
      exact responseTo_of_ok rfl (Or.inl rfl) hprepare
    · rw [if_pos hhijack] at hprepare
      exact responseTo_of_ok rfl (Or.inr rfl) hprepare

/-- Where such results are responded to alike, forwarding ends in both lists
or in neither. -/
theorem stops_eq_of_headersOnly {headers headers' : Headers}
    (h : SameResponse (responseTo sep decoders (headersOnly headers))
      (responseTo sep decoders (headersOnly headers'))) :
    stops headers.entries = stops headers'.entries := by
  have hraised := h.1
  rw [(responseTo_headersOnly headers).1, (responseTo_headersOnly headers').1] at hraised
  cases hs : stops headers.entries <;> cases hs' : stops headers'.entries <;>
    simp [hs, hs'] at hraised ⊢

/-- And the same headers are put. -/
theorem values_eq_of_headersOnly {headers headers' : Headers}
    (h : SameResponse (responseTo sep decoders (headersOnly headers))
      (responseTo sep decoders (headersOnly headers'))) (name : JString) :
    (putAll sep (forwarded headers.entries) { Sent.fresh with status := 204 }).values name =
      (putAll sep (forwarded headers'.entries) { Sent.fresh with status := 204 }).values name := by
  rw [← (responseTo_headersOnly headers).2, ← (responseTo_headersOnly headers').2]
  exact h.2.response.values name

/-- A result of one part, which is a chunk. -/
def oneChunk (headers : Headers) : AppResult :=
  ⟨new 200 headers ⟨false, [some ⟨[49, 13, 10, 97, 13, 10], .usAscii⟩], none⟩, none, none, none⟩

/-- The part of it is written as it is or without its chunk marks. -/
theorem responseTo_oneChunk {headers : Headers} (hstops : stops headers.entries = false)
    (hhijack : ¬ Hijacks headers.entries) :
    (responseTo sep decoders (oneChunk headers)).2.response.body =
      written decoders (headers.entries.foldl note (oneChunk headers).response).chunked
        [some ⟨[49, 13, 10, 97, 13, 10], .usAscii⟩] := by
  have hheaders : writeHeaders (recorderApp sep decoders).rubyResponse
      (oneChunk headers).response .fresh = _ := writeHeaders'_eq headers.entries _ _
  have hstatus : writeStatus (recorderApp sep decoders).rubyResponse
      (oneChunk headers).response .fresh = (.ok (), .fresh) := rfl
  have hprepare : (recorderApp sep decoders).prepare (oneChunk headers) .fresh = _ :=
    Act.bind_of_ok hstatus
  rw [hstops, if_neg Bool.false_ne_true] at hheaders
  rw [Act.bind_of_ok hheaders] at hprepare
  generalize hr : headers.entries.foldl note (oneChunk headers).response = r at hprepare ⊢
  have hfalsy : r.hijack = .falsy := by
    rw [← hr]
    exact not_not.mp (mt (hijack_foldl_note headers.nodup rfl).mp hhijack)
  have hnoBody : ¬ noBody r = true := by
    rw [← hr, noBody, status_foldl_note]
    change ¬ (decide ((200 : ℤ) < 200) || STATUS_WITH_NO_ENTITY_BODY.contains 200) = true
    decide
  have hparts : r.body = (oneChunk headers).response.body := by rw [← hr, body_foldl_note]
  have hbody : writeBody (recorderApp sep decoders).rubyResponse r
      (putAll sep (forwarded headers.entries) .fresh) = _ :=
    writeBody_eq_ok.mpr ⟨by rw [hparts]; rfl, rfl⟩
  rw [if_neg (fun h => h hfalsy), if_neg hnoBody] at hprepare
  change _ = (writeBody (recorderApp sep decoders).rubyResponse r >>= fun _ => pure Ending.end_)
    (putAll sep (forwarded headers.entries) .fresh) at hprepare
  rw [Act.bind_of_ok hbody] at hprepare
  rw [(responseTo_of_ok rfl (Or.inl rfl) hprepare).2, hparts]
  change (putAll sep (forwarded headers.entries) .fresh).body ++ _ = _
  rw [(putAll_frame sep (forwarded headers.entries) .fresh).2.2]
  rfl

/-- **The part shows whether the body is taken for chunked.** -/
theorem chunks_iff_of_oneChunk {headers headers' : Headers}
    (hstops : stops headers.entries = false) (hhijack : ¬ Hijacks headers.entries)
    (hstops' : stops headers'.entries = false) (hhijack' : ¬ Hijacks headers'.entries)
    (h : SameResponse (responseTo .lf ⟨bytewise, fun _ _ => []⟩ (oneChunk headers))
      (responseTo .lf ⟨bytewise, fun _ _ => []⟩ (oneChunk headers'))) :
    Chunks headers.entries ↔ Chunks headers'.entries := by
  have hbody := h.2.response.body
  rw [responseTo_oneChunk hstops hhijack, responseTo_oneChunk hstops' hhijack'] at hbody
  rw [← chunks_foldl_note (r := (oneChunk headers).response) headers.nodup rfl,
    ← chunks_foldl_note (r := (oneChunk headers').response) headers'.nodup rfl]
  cases hchunked : (headers.entries.foldl note (oneChunk headers).response).chunked <;>
    cases hchunked' : (headers'.entries.foldl note (oneChunk headers').response).chunked
  · exact Iff.rfl
  · rw [hchunked, hchunked'] at hbody
    exact absurd hbody (by decide)
  · rw [hchunked, hchunked'] at hbody
    exact absurd hbody (by decide)
  · exact Iff.rfl

/-! ## Exactly the results that are spelled alike -/

/-- **Two lists of headers that differ in the case of names get the same
responses**, whatever else is in the result, if they are spelled alike,
and only then. -/
theorem header_case_iff {headers headers' : Headers} (hd : Distinct headers.entries)
    (hrecased : Recased headers.entries headers'.entries) :
    (∀ sep decoders status body toPath close hijackCall,
      SameResponse
        (responseTo sep decoders ⟨new status headers body, toPath, close, hijackCall⟩)
        (responseTo sep decoders ⟨new status headers' body, toPath, close, hijackCall⟩)) ↔
      SpelledAlike headers.entries headers'.entries := by
  refine ⟨fun h => ?_, fun halike sep decoders => sameResponse_of_spelledAlike hd hrecased halike⟩
  have hd' := hd.recased hrecased
  -- a response without a body shows what is forwarded
  have hshown : ∀ sep, SameResponse (responseTo sep ⟨bytewise, fun _ _ => []⟩ (headersOnly headers))
      (responseTo sep ⟨bytewise, fun _ _ => []⟩ (headersOnly headers')) :=
    fun sep => h sep ⟨bytewise, fun _ _ => []⟩ 204 ⟨false, [], none⟩ none none (some (.ok ()))
  have hstops := stops_eq_of_headersOnly (hshown .lf)
  have hvalues := fun sep => values_eq_of_headersOnly (hshown sep)
  have hforwarded : ∀ name t,
      Carries (forwarded headers.entries) name t ↔ Carries (forwarded headers'.entries) name t :=
    fun name t => ⟨.of_values hd hrecased (fun _ => rfl) hvalues,
      .of_values hd' hrecased.symm (fun _ => rfl) fun sep name => (hvalues sep name).symm⟩
  refine ⟨hforwarded, hstops, ?_⟩
  rw [or_iff_not_imp_left, or_iff_not_imp_left]
  intro hstop hhijack
  have hstop := Bool.eq_false_iff.mpr hstop
  have hhijack' : ¬ Hijacks headers'.entries := fun h' =>
    hhijack (h'.recased hd' hrecased.symm hstop fun name t => (hforwarded name t).mp)
  exact chunks_iff_of_oneChunk hstop hhijack (hstops ▸ hstop) hhijack'
    (h .lf _ 200 _ none none none)

/-- One header. -/
def oneHeader (key value : JString) : Headers := ⟨[(key, .text value)], by simp⟩

/-- A result with one header, and a body that is no `Array`. -/
def helloWith (key value : JString) : AppResult :=
  ⟨new 200 (oneHeader key value) ⟨false, [some ⟨[104, 105], .usAscii⟩], none⟩, none, none, none⟩

/-- `X-A` and `x-a` get the same response. -/
theorem header_case_iff_other :
    SameResponse (responseTo .lf ⟨bytewise, fun _ _ => []⟩ (helloWith "X-A".toList ['1']))
      (responseTo .lf ⟨bytewise, fun _ _ => []⟩ (helloWith "x-a".toList ['1'])) := by
  have halike : SpelledAlike (oneHeader "X-A".toList ['1']).entries
      (oneHeader "x-a".toList ['1']).entries := by
    refine ⟨fun name t => ?_, by decide, Or.inr (Or.inr (iff_of_false ?_ ?_))⟩
    · have hforwarded : forwarded (oneHeader "X-A".toList ['1']).entries =
          [("X-A".toList, ['1'])] := by decide
      have hforwarded' : forwarded (oneHeader "x-a".toList ['1']).entries =
          [("x-a".toList, ['1'])] := by decide
      have hname : equalsIgnoreCase "X-A".toList name = equalsIgnoreCase "x-a".toList name := by
        unfold equalsIgnoreCase
        have hlower : "X-A".toList.map toLowerCase = "x-a".toList.map toLowerCase := by decide
        rw [hlower]
      rw [hforwarded, hforwarded']
      simp only [Carries, List.mem_singleton, exists_eq_left, hname]
    · unfold Chunks
      decide
    · unfold Chunks
      decide
  have hd : Distinct (oneHeader "X-A".toList ['1']).entries := by
    unfold Distinct
    decide
  have hrecased : Recased (oneHeader "X-A".toList ['1']).entries
      (oneHeader "x-a".toList ['1']).entries := .cons ⟨by decide, rfl⟩ .nil
  exact (header_case_iff hd hrecased).mpr halike .lf _ 200 _ none none none

/-- `Content-Length` frames the body, and `content-length` goes beside a
body that is chunked. -/
theorem header_case_matters :
    Distinct (oneHeader "Content-Length".toList ['2']).entries ∧
      Recased (oneHeader "Content-Length".toList ['2']).entries
        (oneHeader "content-length".toList ['2']).entries ∧
      (responseTo .lf ⟨bytewise, fun _ _ => []⟩
        (helloWith "Content-Length".toList ['2'])).2.response.chunked = false ∧
      (responseTo .lf ⟨bytewise, fun _ _ => []⟩
        (helloWith "content-length".toList ['2'])).2.response.chunked = true ∧
      ¬ SameResponse
        (responseTo .lf ⟨bytewise, fun _ _ => []⟩ (helloWith "Content-Length".toList ['2']))
        (responseTo .lf ⟨bytewise, fun _ _ => []⟩ (helloWith "content-length".toList ['2'])) := by
  have hframed : (responseTo .lf ⟨bytewise, fun _ _ => []⟩
      (helloWith "Content-Length".toList ['2'])).2.response.chunked = false := by decide
  have hchunked : (responseTo .lf ⟨bytewise, fun _ _ => []⟩
      (helloWith "content-length".toList ['2'])).2.response.chunked = true := by decide
  refine ⟨by unfold Distinct; decide, .cons ⟨by decide, rfl⟩ .nil, hframed, hchunked, fun h => ?_⟩
  rw [h.2.response.chunked, hchunked] at hframed
  cases hframed

end RackApplication

end Jubilee
