import Jubilee.RackApplication.Lifecycle
import Jubilee.Response.HeaderCase
/-!
# Rack application — a response without a body

The statuses below 200, and 204, 205 and 304, carry no body. `bodiless`:
whatever body comes with one of them, nothing of it is written and no
file is sent, and the response gets no length and is not set to be
chunked, also where the application asked for a length; and the client
is sent the same as with any other body that is closed alike. A
`Transfer-Encoding` of the application's is put, as any header is.
-/

namespace Jubilee

namespace RackApplication

open Response

variable {σ τ : Type*} {R : σ → τ → Prop} {R' : Exchange σ → Exchange τ → Prop}

/-! ## What may differ -/

/-- Two results that differ in the body only, and in what is noted of it. -/
structure SameHead (result result' : AppResult) : Prop where
  status : result'.response.status = result.response.status
  headers : result'.response.headers = result.response.headers
  hijack : result'.response.hijack = result.response.hijack
  close : result'.close = result.close
  hijackCall : result'.hijackCall = result.hijackCall

/-- The responses of two applications do alike, in the methods that a
response without a body calls. -/
structure HeadAlike (R : σ → τ → Prop) (app : RackApplication σ) (app' : RackApplication τ) :
    Prop where
  setStatusCode : ∀ status,
    Act.Related R Eq (app.vertx.setStatusCode status) (app'.vertx.setStatusCode status)
  putHeader : ∀ name values, name ≠ CONTENT_LENGTH →
    Act.Related R Eq (app.vertx.putHeader name values) (app'.vertx.putHeader name values)
  end_ : Act.Related R Eq (app.vertx.end_ none) (app'.vertx.end_ none)
  netSocket : Act.Related R Eq app.vertx.netSocket app'.vertx.netSocket
  lineSeparator : app.lineSeparator = app'.lineSeparator

/-- The two go on with one status, and with one hijack callback. -/
structure Headed (code : ℤ) (r r' : Response) : Prop where
  status : r.status = code
  status' : r'.status = code
  hijack : r'.hijack = r.hijack

theorem Headed.note {code : ℤ} {r r' : Response} (h : Headed code r r')
    (e : JString × HeaderValue) : Headed code (note r e) (note r' e) := by
  refine ⟨(status_note r e).trans h.status, (status_note r' e).trans h.status', ?_⟩
  rw [hijack_note, hijack_note, h.hijack]

namespace HeadAlike

variable {app : RackApplication σ} {app' : RackApplication τ} {result result' : AppResult}

theorem writeStatus (h : HeadAlike R app app') {r r' : Response} (hs : r'.status = r.status) :
    Act.Related R Eq (writeStatus app.rubyResponse r) (writeStatus app'.rubyResponse r') :=
  related_writeStatus h.setStatusCode hs

theorem put (h : HeadAlike R app app') {key : JString} (hkey : key ≠ CONTENT_LENGTH)
    (value : HeaderValue) :
    Act.Related R Eq (app.rubyResponse.putHeader key value)
      (app'.rubyResponse.putHeader key value) := by
  unfold rubyResponse
  rw [h.lineSeparator]
  exact related_putHeader (fun values => h.putHeader key values hkey) value

theorem writeHeaders' (h : HeadAlike R app app') (entries : List (JString × HeaderValue))
    {code : ℤ} {r r' : Response} (hr : Headed code r r') :
    Act.Related R (Headed code) (writeHeaders' app.rubyResponse entries r)
      (writeHeaders' app'.rubyResponse entries r') := by
  induction entries generalizing r r' with
  | nil => exact .pure hr
  | cons e entries ih =>
    obtain ⟨key, value⟩ := e
    by_cases hkey : key = CONTENT_LENGTH ∨ key = HIJACK
    · -- the length that the application asks for is only noted
      rw [writeHeaders'_of_noted hkey, writeHeaders'_of_noted hkey]
      exact ih (hr.note _)
    · obtain ⟨hlength, hhijack⟩ := not_or.mp hkey
      rw [writeHeaders'_of_put hlength hhijack, writeHeaders'_of_put hlength hhijack]
      exact (h.put hlength value).bind_eq fun _ => ih (hr.note _)

/-- **Until it is finished**: neither is with a file. -/
theorem prepare (h : HeadAlike R app app') (hsame : SameHead result result')
    (hbody : noBody result.response = true) :
    Act.Related R (fun ending ending' => ending = ending' ∧ ∀ path, ending ≠ .sendFile path)
      (app.prepare result) (app'.prepare result') := by
  unfold RackApplication.prepare
  refine (h.writeStatus hsame.status).bind_eq fun _ => ?_
  have hheaded : Headed result.response.status result.response result'.response :=
    ⟨rfl, hsame.status, hsame.hijack⟩
  have hheaders : Act.Related R (Headed result.response.status)
      (writeHeaders app.rubyResponse result.response)
      (writeHeaders app'.rubyResponse result'.response) := by
    unfold writeHeaders
    rw [hsame.headers]
    exact h.writeHeaders' _ hheaded
  refine hheaders.bind fun r r' hr => ?_
  have hnone : noBody r = true := by rwa [noBody, hr.status]
  have hnone' : noBody r' = true := by rwa [noBody, hr.status']
  rw [hr.hijack, hsame.hijackCall]
  by_cases hhijack : r.hijack = .falsy
  · simp only [ne_eq, hhijack, not_true_eq_false, if_false, hnone, hnone', if_true]
    exact .pure ⟨rfl, nofun⟩
  · simp only [ne_eq, hhijack, not_false_eq_true, if_true]
    refine h.netSocket.bind_eq fun _ => ?_
    cases result.hijackCall with
    | none => exact .raise _
    | some called => exact .pure ⟨rfl, nofun⟩

/-- **The body plays no part**, and no method for a body either. -/
theorem respond (h : HeadAlike R app app') (hR : Lifts R R') (hsame : SameHead result result')
    (hbody : noBody result.response = true) :
    Act.Related R' Eq (app.respond result) (app'.respond result') := by
  refine related_ensureClose hsame.close.symm (related_rescueNative ?_)
  refine (related_on hR (h.prepare hsame hbody)).bind fun ending ending' hending => ?_
  obtain ⟨rfl, hfile⟩ := hending
  cases ending with
  | hijack called => exact related_finish hR .hijacked fun s t h => ⟨Act.alike_eq_iff.mpr rfl, h⟩
  | end_ => exact related_finish hR .ended h.end_
  | sendFile path => exact absurd rfl (hfile path)

end HeadAlike

/-! ## The same application -/

/-- The exchanges of related responses. -/
def LiftedExchange (R : σ → τ → Prop) (s : Exchange σ) (t : Exchange τ) : Prop :=
  R s.response t.response ∧ s.finished = t.finished

theorem headAlike_self (app : RackApplication σ) : HeadAlike Eq app app := by
  have hself : ∀ {α : Type} (x : Act σ Raised α), Act.Related Eq Eq x x := by
    rintro α x s t rfl
    exact ⟨Act.alike_eq_iff.mpr rfl, rfl⟩
  exact ⟨fun _ => hself _, fun _ _ _ => hself _, hself _, hself _, rfl⟩

/-- `respond` does the same with any other body. -/
theorem respond_eq_of_sameHead (app : RackApplication σ) {result result' : AppResult}
    (hsame : SameHead result result') (hbody : noBody result.response = true) :
    app.respond result' = app.respond result := by
  funext s
  have hlifts : Lifts Eq (LiftedExchange (Eq : σ → σ → Prop)) := fun _ _ => Iff.rfl
  obtain ⟨hresult, hresponse, hfinished⟩ :=
    app.headAlike_self.respond hlifts hsame hbody s s ⟨rfl, rfl⟩
  rw [Act.alike_eq_iff] at hresult
  rcases hx : app.respond result s with ⟨r, t⟩
  rcases hy : app.respond result' s with ⟨r', t'⟩
  rw [hx, hy] at hresult hresponse hfinished
  obtain ⟨response, finished⟩ := t
  obtain ⟨response', finished'⟩ := t'
  obtain rfl : r = r' := hresult
  obtain rfl : response = response' := hresponse
  obtain rfl : finished = finished' := hfinished
  rfl

/-- A call that a response without a body may make. -/
def Touch.Bodiless : Touch → Prop
  | .setStatusCode | .end_ | .netSocket => True
  | .putHeader name _ => name ≠ CONTENT_LENGTH
  | .setChunked | .write | .sendFile => False

/-- The same response, on which no other calls were made. -/
def OnlyBodiless (s t : σ × List Touch) : Prop := s = t ∧ ∀ c ∈ s.2, c.Bodiless

theorem headAlike_watched (app : RackApplication σ) :
    HeadAlike OnlyBodiless app.watched app.watched := by
  have hnoted : ∀ {α : Type} {c : Touch} (x : Act σ Raised α), c.Bodiless →
      Act.Related OnlyBodiless Eq (Act.noting c x) (Act.noting c x) := by
    rintro α c x hc s t ⟨rfl, hs⟩
    exact ⟨Act.alike_eq_iff.mpr rfl, rfl,
      List.forall_mem_append.mpr ⟨hs, List.forall_mem_singleton.mpr hc⟩⟩
  exact ⟨fun _ => hnoted _ trivial, fun _ _ hname => hnoted _ hname, hnoted _ trivial,
    hnoted _ trivial, rfl⟩

theorem respondTouches_bodiless (app : RackApplication σ) {result : AppResult}
    (hbody : noBody result.response = true) (response : σ) :
    ∀ c ∈ app.respondTouches result response, c.Bodiless := by
  have hstart : LiftedExchange OnlyBodiless (⟨(response, []), []⟩ : Exchange (σ × List Touch))
      ⟨(response, []), []⟩ := ⟨⟨rfl, nofun⟩, rfl⟩
  exact (app.headAlike_watched.respond (fun _ _ => Iff.rfl) ⟨rfl, rfl, rfl, rfl, rfl⟩ hbody
    _ _ hstart).2.1.2

/-- The two cookies, with a file for a body and a length. -/
def cookiesWithFile : AppResult :=
  { cookies with
    response := { cookies.response with
      body := ⟨true, [some ⟨[104, 105], .utf8⟩], none⟩
      contentLength := .ofNat 2 }
    toPath := some (.ok "/hi".toList) }

end RackApplication

end Jubilee
