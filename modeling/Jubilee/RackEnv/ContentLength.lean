import Jubilee.RackEnv.Excluded
import Jubilee.RackInput.Model
/-!
# Rack env — the length, read twice

The header `Content-Length` is parsed when the input is made and again
when the env is made. A header that is empty, or a number that is no
`int`, stops one of the two or both; `readers_agree_iff` says that any
other length reaches the application alike by both.
-/

namespace Jubilee

namespace RackEnv

variable {O : Type*} [DecidableEq O]

/-- A length the protocol allows: none, an empty one, or decimal digits. -/
def Allowed (header : Option JString) : Prop := ∀ s ∈ header, Decimal s

/-- A length, if there is one, is written out and is an `int`. -/
def Fits (header : Option JString) : Prop :=
  ∀ s ∈ header, ∃ n : ℕ, digits? s = some n ∧ (n : ℤ) ≤ maxInt

/-- A Ruby string denotes a number. -/
def Denotes (text : RubyString) (n : ℕ) : Prop :=
  ∃ s, text = RubyHelper.toUsAsciiRubyString' s ∧ digits? s = some n

/-- The input and the env are both made, and know of the same length: the
one that the header denotes, or none. -/
def Agree (rackEnv : RackEnvironment O) (request : HttpServerRequest) (input : O)
    (isSSL : Bool) : Prop :=
  ∃ io contentLength env,
    RackInput.RubyIORackInput.new (request.headers.get CONTENT_LENGTH) = .ok io ∧
      getContentLength request.headers = .ok contentLength ∧
      (RackEnvironment.getEnv request input isSSL rackEnv).1 = .ok env ∧
      ((∃ s n text, request.headers.get CONTENT_LENGTH = some s ∧ digits? s = some n ∧
          io = ⟨n, false⟩ ∧ Stays env (.string contentLengthKey) (some (.string text)) ∧
          Denotes text n) ∨
        io.chunked = true ∧ Stays env (.string contentLengthKey) none)

open RackEnvironmentHash

/-- The env has the length that `getContentLength` found. -/
theorem stays_contentLength (rackEnv : RackEnvironment O) (request : HttpServerRequest) (input : O)
    (isSSL : Bool) (contentLength : ℤ) :
    Stays (fresh request.headers
        (RackEnvironment.lazyValues rackEnv request input isSSL contentLength))
      (.string contentLengthKey)
      (if 0 ≤ contentLength then
        some (.string (RubyHelper.toUsAsciiRubyString' (toString contentLength).toList))
      else none) := by
  rw [← RackEnvironment.rackValue_contentLength rackEnv request input isSSL contentLength]
  exact stays_fresh (by decide) (by decide)

omit [DecidableEq O] in
theorem getEnv_of_getContentLength {rackEnv : RackEnvironment O} {request : HttpServerRequest}
    {contentLength : ℤ} (h : getContentLength request.headers = .ok contentLength) (input : O)
    (isSSL : Bool) :
    (RackEnvironment.getEnv request input isSSL rackEnv).1 = .ok (fresh request.headers
      (RackEnvironment.lazyValues rackEnv request input isSSL contentLength)) := by
  rw [RackEnvironment.getEnv_eq, h]
  rfl

/-- A request without the header gets none. -/
theorem agree_of_absent {request : HttpServerRequest}
    (h : request.headers.get CONTENT_LENGTH = none) (rackEnv : RackEnvironment O) (input : O)
    (isSSL : Bool) : Agree rackEnv request input isSSL := by
  have hlength : getContentLength request.headers = .ok (-1) := by rw [getContentLength, h]
  refine ⟨⟨0, true⟩, -1, _, ?_, hlength, getEnv_of_getContentLength hlength input isSSL, ?_⟩
  · rw [h]
    rfl
  · exact Or.inr ⟨rfl, stays_contentLength rackEnv request input isSSL (-1)⟩

/-- A length that is an `int` is read alike. -/
theorem agree_of_digits {request : HttpServerRequest} {s : JString} {n : ℕ}
    (h : request.headers.get CONTENT_LENGTH = some s) (hs : Decimal s) (hn : digits? s = some n)
    (hmax : (n : ℤ) ≤ maxInt) (rackEnv : RackEnvironment O) (input : O) (isSSL : Bool) :
    Agree rackEnv request input isSSL := by
  have hparse : parseInt s = .ok (n : ℤ) := by rw [parseInt_of_decimal hs hn, if_pos hmax]
  have hlength : getContentLength request.headers = .ok (n : ℤ) := by
    cases s with
    | nil => cases hn
    | cons c cs =>
      rw [getContentLength, h]
      exact hparse
  have hstays := stays_contentLength rackEnv request input isSSL n
  rw [if_pos (Int.natCast_nonneg n)] at hstays
  refine ⟨⟨n, false⟩, n, _, ?_, hlength, getEnv_of_getContentLength hlength input isSSL,
    Or.inl ⟨s, n, _, h, hn, rfl, hstays, (toString n).toList, rfl, digits?_toString n⟩⟩
  rw [h, RackInput.RubyIORackInput.new, hparse]
  rfl

/-- **The two readers agree**, on a length that the protocol allows, if it
is absent or a written number that is an `int`, and only then. -/
theorem readers_agree_iff (rackEnv : RackEnvironment O) (request : HttpServerRequest) (input : O)
    (isSSL : Bool) (hallowed : Allowed (request.headers.get CONTENT_LENGTH)) :
    Agree rackEnv request input isSSL ↔ Fits (request.headers.get CONTENT_LENGTH) := by
  constructor
  · rintro ⟨io, -, -, hnew, -, -, -⟩ s hs
    have hdecimal := hallowed s hs
    rw [Option.mem_def.mp hs, RackInput.RubyIORackInput.new] at hnew
    by_cases hne : s = []
    · subst hne
      cases hnew
    · -- what the input was made of is the number
      have hn := digits?_of_decimal hdecimal hne
      refine ⟨_, hn, ?_⟩
      by_contra hmax
      rw [parseInt_of_decimal hdecimal hn, if_neg hmax] at hnew
      cases hnew
  · intro hfits
    cases h : request.headers.get CONTENT_LENGTH with
    | none => exact agree_of_absent h rackEnv input isSSL
    | some s =>
      obtain ⟨n, hn, hmax⟩ := hfits s h
      exact agree_of_digits h (hallowed s h) hn hmax rackEnv input isSSL

/-- The `RackEnvironment` of an application, objects given numbers. -/
def someRackEnv : RackEnvironment ℕ := ⟨⟨0, 1, 2⟩, 3, 4, true⟩

/-- `Content-Length: 42`, so read by both. -/
theorem readers_agree_iff_42 : Agree someRackEnv (getWith CONTENT_LENGTH "42".toList) 5 false :=
  (readers_agree_iff someRackEnv (getWith CONTENT_LENGTH "42".toList) 5 false
      (by unfold Allowed; decide)).mpr fun s hs => by
    obtain rfl : "42".toList = s := Option.some.inj hs
    exact ⟨42, rfl, by decide⟩

/-- An empty header is no number to the input and no header to the env,
and 2147483648 is a number to neither. -/
theorem readers_stopped :
    Allowed ((getWith CONTENT_LENGTH []).headers.get CONTENT_LENGTH) ∧
      RackInput.RubyIORackInput.new (some []) = .error .numberFormat ∧
      getContentLength (getWith CONTENT_LENGTH []).headers = .ok (-1) ∧
      ¬ Agree someRackEnv (getWith CONTENT_LENGTH []) 5 false ∧
      Allowed ((getWith CONTENT_LENGTH "2147483648".toList).headers.get CONTENT_LENGTH) ∧
      RackInput.RubyIORackInput.new (some "2147483648".toList) = .error .numberFormat ∧
      getContentLength (getWith CONTENT_LENGTH "2147483648".toList).headers =
        .error .numberFormat ∧
      ¬ Agree someRackEnv (getWith CONTENT_LENGTH "2147483648".toList) 5 false := by
  have hstopped : ∀ value : JString, parseInt value = .error .numberFormat →
      ¬ Agree someRackEnv (getWith CONTENT_LENGTH value) 5 false := by
    rintro value hvalue ⟨io, -, -, hnew, -⟩
    change (parseInt value).map _ = _ at hnew
    rw [hvalue] at hnew
    cases hnew
  refine ⟨by unfold Allowed; decide, rfl, rfl, hstopped _ rfl, by unfold Allowed; decide, rfl, rfl,
    hstopped _ rfl⟩

end RackEnv

end Jubilee
