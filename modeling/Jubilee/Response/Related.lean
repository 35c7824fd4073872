import Jubilee.Common.Relate
import Jubilee.Response.Forwarded
/-!
# Response — two responses that do alike

What `Jubilee::Response` does to a Vert.x response it does through the
methods of that response: where these do alike for two of them, so does
each part of `respond`.
-/

namespace Jubilee

namespace Response

variable {σ τ : Type*}

/-- The methods that come before the body do alike. -/
structure RespAlike (R : σ → τ → Prop) (resp : HttpServerResponse σ)
    (resp' : HttpServerResponse τ) : Prop where
  setStatusCode : ∀ status,
    Act.Related R Eq (resp.setStatusCode status) (resp'.setStatusCode status)
  putHeader : ∀ name values,
    Act.Related R Eq (resp.putHeader name values) (resp'.putHeader name values)
  setChunked : ∀ chunked, Act.Related R Eq (resp.setChunked chunked) (resp'.setChunked chunked)

variable {R : σ → τ → Prop} {resp : HttpServerResponse σ} {resp' : HttpServerResponse τ}
variable {sep : LineSeparator} {decoders : Decoders}

/-- A header is put alike. -/
theorem related_putHeader {decoders' : Decoders} {key : JString}
    (h : ∀ values, Act.Related R Eq (resp.putHeader key values) (resp'.putHeader key values))
    (value : HeaderValue) :
    Act.Related R Eq (RubyHttpServerResponse.putHeader ⟨resp, sep, decoders⟩ key value)
      (RubyHttpServerResponse.putHeader ⟨resp', sep, decoders'⟩ key value) := by
  cases value with
  | falsy | object toS => exact .raise _
  | text t =>
    unfold RubyHttpServerResponse.putHeader
    by_cases hoccurs : occurs sep.chars t
    · simp only [hoccurs, if_true]
      exact h _
    · simp only [hoccurs]
      exact h _

/-- One status is written alike. -/
theorem related_writeStatus {sep' : LineSeparator} {decoders' : Decoders}
    (h : ∀ status, Act.Related R Eq (resp.setStatusCode status) (resp'.setStatusCode status))
    {r r' : Response} (hs : r'.status = r.status) :
    Act.Related R Eq (Response.writeStatus ⟨resp, sep, decoders⟩ r)
      (Response.writeStatus ⟨resp', sep', decoders'⟩ r') := by
  unfold Response.writeStatus RubyHttpServerResponse.setStatusCode
  rw [hs]
  cases num2int (.int r.status) with
  | error e => exact .raise e
  | ok status => exact h status

theorem RespAlike.put (h : RespAlike R resp resp') (key : JString) (value : HeaderValue) :
    Act.Related R Eq (RubyHttpServerResponse.putHeader ⟨resp, sep, decoders⟩ key value)
      (RubyHttpServerResponse.putHeader ⟨resp', sep, decoders⟩ key value) :=
  related_putHeader (h.putHeader key) value

theorem RespAlike.writeStatus (h : RespAlike R resp resp') (r : Response) :
    Act.Related R Eq (Response.writeStatus ⟨resp, sep, decoders⟩ r)
      (Response.writeStatus ⟨resp', sep, decoders⟩ r) :=
  related_writeStatus h.setStatusCode rfl

/-- **The headers are written alike**, and the status is still the one it
was. -/
theorem RespAlike.writeHeaders' (h : RespAlike R resp resp')
    (entries : List (JString × HeaderValue)) (r : Response) :
    Act.Related R (fun r₁ r₂ => r₁ = r₂ ∧ r₂.status = r.status)
      (Response.writeHeaders' ⟨resp, sep, decoders⟩ entries r)
      (Response.writeHeaders' ⟨resp', sep, decoders⟩ entries r) := by
  induction entries generalizing r with
  | nil => exact .pure ⟨rfl, rfl⟩
  | cons e entries ih =>
    obtain ⟨key, value⟩ := e
    have hstatus : (note r (key, value)).status = r.status := by
      unfold note
      split_ifs <;> rfl
    have htail := hstatus ▸ ih (note r (key, value))
    by_cases hkey : key = CONTENT_LENGTH ∨ key = HIJACK
    · rw [writeHeaders'_of_noted hkey, writeHeaders'_of_noted hkey]
      exact htail
    · obtain ⟨hlength, hhijack⟩ := not_or.mp hkey
      rw [writeHeaders'_of_put hlength hhijack, writeHeaders'_of_put hlength hhijack]
      exact (h.put key value).bind_eq fun _ => htail

/-- **The body is written alike**, where the methods that write it do
alike. -/
theorem RespAlike.writeBody (h : RespAlike R resp resp')
    (hwrite : ∀ chunk, Act.Related R Eq (resp.write chunk) (resp'.write chunk)) (r : Response) :
    Act.Related R Eq (Response.writeBody ⟨resp, sep, decoders⟩ r)
      (Response.writeBody ⟨resp', sep, decoders⟩ r) := by
  have heach : Act.Related R Eq
      (r.body.each (writePart ⟨resp, sep, decoders⟩ r.chunked))
      (r.body.each (writePart ⟨resp', sep, decoders⟩ r.chunked)) := by
    refine Act.Related.bind_eq (.forM fun part _ => ?_) fun _ => ?_
    · unfold writePart
      split
      · exact hwrite _
      · exact .pure rfl
    · split
      · exact .raise _
      · exact .pure rfl
  unfold Response.writeBody
  refine Act.Related.bind_eq (h.putHeader _ _) fun _ => ?_
  cases r.contentLength with
  | falsy => exact (h.setChunked true).bind_eq fun _ => heach
  | text t => exact (h.put CONTENT_LENGTH (.text t)).bind_eq fun _ => heach
  | object toS => exact (h.put CONTENT_LENGTH (.text toS)).bind_eq fun _ => heach

end Response

end Jubilee
