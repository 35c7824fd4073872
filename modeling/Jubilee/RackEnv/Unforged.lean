import Jubilee.RackEnv.Excluded
import Jubilee.RackEnv.Multithread
/-!
# Rack env — what a client cannot forge

The headers of a request and the values of the server share one hash.
`unforged`: three headers aside, no header changes what is found at a key
of the server, in whatever order the application reads; but for
`HTTP_VERSION`, which a header can name (`version_forged`).
-/

namespace Jubilee

namespace RackEnv

variable {O : Type*} [DecidableEq O]

open RackEnvironmentHash

/-- The headers that `getEnv` reads. -/
def readHeaders : List JString := [HOST, CONTENT_TYPE, CONTENT_LENGTH]

/-- The two say the same where `getEnv` looks. -/
def SameRead (headers headers' : MultiMap) : Prop :=
  ∀ name ∈ readHeaders, headers'.get name = headers.get name

namespace RackEnvironment

variable {request : HttpServerRequest} {headers' : MultiMap} {input : O} {isSSL : Bool}
  {rackEnv : RackEnvironment O} {env env' : RackEnvironmentHash O}

omit [DecidableEq O] in
/-- What is stored for later depends on the headers that are read. -/
theorem lazyValues_congr (h : SameRead request.headers headers') (n : ℤ) :
    lazyValues rackEnv { request with headers := headers' } input isSSL n =
      lazyValues rackEnv request input isSSL n := by
  have hhost : headers'.get HOST = request.headers.get HOST := h _ (by simp [readHeaders])
  have htype : headers'.get CONTENT_TYPE = request.headers.get CONTENT_TYPE :=
    h _ (by simp [readHeaders])
  simp only [lazyValues, hhost, htype]

omit [DecidableEq O] in
theorem getContentLength_congr (h : SameRead request.headers headers') :
    getContentLength headers' = getContentLength request.headers := by
  have hlength : headers'.get CONTENT_LENGTH = request.headers.get CONTENT_LENGTH :=
    h _ (by simp [readHeaders])
  rw [getContentLength, getContentLength, hlength]

/-- **No header forges a value of the server.** Requests that differ in
other headers only have the same value at every key of the server but
`HTTP_VERSION`, and it stays until a call changes it. -/
theorem unforged (h : SameRead request.headers headers')
    (henv : (getEnv request input isSSL rackEnv).1 = .ok env)
    (henv' : (getEnv { request with headers := headers' } input isSSL rackEnv).1 = .ok env')
    {k : StringKey} {rackKey : RackKey} (hk : (k, rackKey) ∈ populateRackKeyMap)
    (hversion : rackKey ≠ .httpVersion) :
    ∃ value, Stays env (.string k) value ∧ Stays env' (.string k) value := by
  obtain ⟨hheader, hne⟩ := not_isHeaderKey hk hversion
  rw [getEnv_eq] at henv henv'
  rw [getContentLength_congr h] at henv'
  cases hn : getContentLength request.headers with
  | error e =>
    rw [hn] at henv
    cases henv
  | ok n =>
    rw [hn] at henv henv'
    have hsame : lazyValues rackEnv { request with headers := headers' } input isSSL n =
        lazyValues rackEnv request input isSSL n := lazyValues_congr h n
    obtain rfl : fresh request.headers (lazyValues rackEnv request input isSSL n) = env :=
      Except.ok.inj henv
    obtain rfl : fresh headers'
        (lazyValues rackEnv { request with headers := headers' } input isSSL n) = env' :=
      Except.ok.inj henv'
    rw [hsame]
    exact ⟨_, stays_fresh hheader hne, stays_fresh hheader hne⟩

/-- A request to `example.org`. -/
def getExample : HttpServerRequest :=
  getWith HOST "example.org".toList

/-- Its headers, and one more that asks for another host. -/
def forwardedHeaders : MultiMap :=
  ⟨[(HOST, "example.org".toList), ("X-Forwarded-Host".toList, "a".toList)],
    [HOST, "X-Forwarded-Host".toList], by decide, by decide, by decide⟩

theorem unforged_forwarded :
    ∃ env env', (getEnv getExample 5 false Service.numbered).1 = .ok env ∧
      (getEnv { getExample with headers := forwardedHeaders } 5 false Service.numbered).1 =
        .ok env' ∧
      ∃ value, Stays env (.string serverNameKey) value ∧
        Stays env' (.string serverNameKey) value := by
  obtain ⟨env, henv⟩ : ∃ env, (getEnv getExample 5 false Service.numbered).1 = .ok env :=
    ⟨_, rfl⟩
  obtain ⟨env', henv'⟩ : ∃ env', (getEnv { getExample with headers := forwardedHeaders } 5 false
      Service.numbered).1 = .ok env' := ⟨_, rfl⟩
  have hsame : SameRead getExample.headers forwardedHeaders := by
    unfold SameRead
    decide
  have hk : (serverNameKey, RackKey.serverName) ∈ populateRackKeyMap := by decide
  exact ⟨env, env', henv, henv', unforged hsame henv henv' hk nofun⟩

/-- A header called `Version`, its value given: the whole hash has it for
the server's. -/
theorem version_forged (version : JString) :
    ∃ env, envWith "Version".toList version = .ok env ∧
      (rubyKey "Version".toList, .httpVersion) ∈ populateRackKeyMap ∧
      env.fillEntireHash.table.lookup (.string (rubyKey "Version".toList)) =
        some (.string (RubyHelper.toUnicodeRubyString version)) := by
  obtain ⟨env, henv⟩ : ∃ env, envWith "Version".toList version = .ok env := ⟨_, rfl⟩
  obtain ⟨n, rfl⟩ := exists_of_getEnv henv
  refine ⟨_, henv, by decide, ?_⟩
  rw [lookup_fillEntireHash_fresh]
  rfl

end RackEnvironment

end RackEnv

end Jubilee
