import Jubilee.RackEnv.Cells
/-!
# Rack env — how a request gets its env

`RackEnvironment.getEnv` stores what it takes from the request for the
hash to fill in, and makes the hash one whose `op_aset` watches for
`rack.multithread`. The flag that it flips there is a field of the
`RackEnvironment`, which all requests of an application share.
-/

namespace Jubilee

namespace RackEnv

variable {O : Type*}

/-- `Const.MULTI_THREADED`. -/
def MULTI_THREADED : JString := "rack.multithread".toList

/-- `HttpHeaders.Names.HOST`. -/
def HOST : JString := "Host".toList

/-- `RackEnvironment`: what it puts into every env, and the flag. -/
structure RackEnvironment (O : Type*) where
  runtime : Ruby O
  rackVersion : O
  errors : O
  mutliThreaded : Bool

/-- `getHostInfo`: the server's name and port. -/
def getHostInfo : Option JString → JString × JString
  | some host =>
    match host.idxOf? ':' with
    | some colon =>
      if 0 < colon then (host.take colon, host.drop (colon + 1)) else (host, "80".toList)
    | none => (host, "80".toList)
  | none => ("localhost".toList, "80".toList)

example : getHostInfo (some "a:8080".toList) = ("a".toList, "8080".toList) := by decide
example : getHostInfo (some ":1".toList) = (":1".toList, "80".toList) := by decide

/-- `getContentLength`. -/
def getContentLength (headers : MultiMap) : Except Raised ℤ :=
  match headers.get CONTENT_LENGTH with
  | none | some [] => .ok (-1)
  | some contentLengthStr => parseInt contentLengthStr

namespace RackEnvironment

open RackEnvironmentHash

/-- The flag is written. -/
def setMutliThreaded (rackEnv : RackEnvironment O) (mutliThreaded : Bool) : RackEnvironment O :=
  { rackEnv with mutliThreaded := mutliThreaded }

/-- `getEnv`. The flag is set whether it returns or raises. -/
def getEnv (request : HttpServerRequest) (input : O) (isSSL : Bool)
    (rackEnv : RackEnvironment O) :
    Except Raised (RackEnvironmentHash O) × RackEnvironment O :=
  let rackEnv := rackEnv.setMutliThreaded true
  let headers := request.headers
  let object (o : O) : Option (LazyValue O) := some (.object (.other o))
  let string (s : JString) : Option (LazyValue O) := some (.string s)
  let env := new headers
  let env := env.lazyPut .rackInput (object input) false
  let env := env.lazyPut .rackErrors (object rackEnv.errors) false
  let hostInfo := getHostInfo (headers.get HOST)
  let httpVersion := if request.version = .http10 then "1.0" else "1.1"
  let env := env.lazyPut .requestMethod (string request.method) true
  let env := env.lazyPut .scriptName (string []) false
  let env := env.lazyPut .pathInfo (string request.path) false
  let env := env.lazyPut .queryString (string (request.query.getD [])) false
  let env := env.lazyPut .serverName (string hostInfo.1) false
  let env := env.lazyPut .serverPort (string hostInfo.2) true
  let env := env.lazyPut .httpVersion (string httpVersion.toList) true
  let env := env.lazyPut .contentType ((headers.get CONTENT_TYPE).map .string) true
  let env := env.lazyPut .requestUri (string request.uri) false
  let env := env.lazyPut .remoteAddr (string (request.remoteAddress.getD [])) true
  let env := env.lazyPut .urlScheme (string (if isSSL then "https" else "http").toList) true
  let env := env.lazyPut .version (object rackEnv.rackVersion) false
  let env := env.lazyPut .multithread
    (object (rackEnv.runtime.newBoolean rackEnv.mutliThreaded)) false
  let env := env.lazyPut .multiprocess (object rackEnv.runtime.getFalse) false
  let env := env.lazyPut .runOnce (object rackEnv.runtime.getFalse) false
  let env := env.lazyPut .hijackP (object rackEnv.runtime.getFalse) false
  match getContentLength headers with
  | .error e => (.error e, rackEnv)
  | .ok contentLength =>
    let env :=
      if 0 ≤ contentLength then
        env.lazyPut .contentLength (string (toString contentLength).toList) true
      else env
    let env := if isSSL then env.lazyPut .https (string "on".toList) true else env
    (.ok env, rackEnv)

/-- What `getEnv` stores for later, in order. -/
def lazyValues (rackEnv : RackEnvironment O) (request : HttpServerRequest) (input : O)
    (isSSL : Bool) (contentLength : ℤ) : List (RackKey × Option (LazyValue O) × Bool) :=
  let object (o : O) : Option (LazyValue O) := some (.object (.other o))
  let string (s : JString) : Option (LazyValue O) := some (.string s)
  let hostInfo := getHostInfo (request.headers.get HOST)
  let httpVersion := if request.version = .http10 then "1.0" else "1.1"
  [(.rackInput, object input, false),
    (.rackErrors, object rackEnv.errors, false),
    (.requestMethod, string request.method, true),
    (.scriptName, string [], false),
    (.pathInfo, string request.path, false),
    (.queryString, string (request.query.getD []), false),
    (.serverName, string hostInfo.1, false),
    (.serverPort, string hostInfo.2, true),
    (.httpVersion, string httpVersion.toList, true),
    (.contentType, (request.headers.get CONTENT_TYPE).map .string, true),
    (.requestUri, string request.uri, false),
    (.remoteAddr, string (request.remoteAddress.getD []), true),
    (.urlScheme, string (if isSSL then "https" else "http").toList, true),
    (.version, object rackEnv.rackVersion, false),
    (.multithread, object (rackEnv.runtime.newBoolean true), false),
    (.multiprocess, object rackEnv.runtime.getFalse, false),
    (.runOnce, object rackEnv.runtime.getFalse, false),
    (.hijackP, object rackEnv.runtime.getFalse, false)] ++
    (if 0 ≤ contentLength then
      [(.contentLength, string (toString contentLength).toList, true)]
    else []) ++
    if isSSL then [(.https, string "on".toList, true)] else []

/-- **What `getEnv` makes** is a fresh hash. -/
theorem getEnv_eq (request : HttpServerRequest) (input : O) (isSSL : Bool)
    (rackEnv : RackEnvironment O) :
    (getEnv request input isSSL rackEnv).1 = (getContentLength request.headers).map fun n =>
      fresh request.headers (lazyValues rackEnv request input isSSL n) := by
  cases h : getContentLength request.headers with
  | error e => simp only [getEnv, h, Except.map]
  | ok n =>
    simp only [getEnv, h, Except.map]
    by_cases hn : 0 ≤ n
    · cases isSSL <;> simp only [if_pos hn, lazyValues] <;> rfl
    · cases isSSL <;> simp only [if_neg hn, lazyValues] <;> rfl

theorem exists_of_getEnv {request : HttpServerRequest} {input : O} {isSSL : Bool}
    {rackEnv : RackEnvironment O} {env : RackEnvironmentHash O}
    (h : (getEnv request input isSSL rackEnv).1 = .ok env) :
    ∃ n, fresh request.headers (lazyValues rackEnv request input isSSL n) = env := by
  rw [getEnv_eq] at h
  cases hn : getContentLength request.headers with
  | error e => rw [hn] at h; cases h
  | ok n => rw [hn] at h; exact ⟨n, Except.ok.inj h⟩

variable [DecidableEq O]

/-- The test of `op_aset`. -/
def isMultiThreadedKey : RubyKey O → Bool
  | .string key => key.bytes = encodeUtf8 MULTI_THREADED
  | .other _ => false

/-- A call of a method of the env that `getEnv` made. -/
def call (op : Op O) (env : RackEnvironmentHash O) (rackEnv : RackEnvironment O) :
    (Answer O × RackEnvironmentHash O) × RackEnvironment O :=
  match op with
  | .opAset key value =>
    let env := env.fillKey key
    let rackEnv :=
      if isMultiThreadedKey key then
        rackEnv.setMutliThreaded (rackEnv.mutliThreaded ^^ rackEnv.runtime.isTrue value)
      else rackEnv
    (env.call (.opAset key value), rackEnv)
  | op => (env.call op, rackEnv)

/-! ## What a call does to the flag -/

/-- The value a call assigns to `rack.multithread`. -/
def assigned : Op O → Option (RubyObject O)
  | .opAset key value => if isMultiThreadedKey key then some value else none
  | _ => none

/-- The call assigns a true value to it. -/
def assignsTrue (runtime : Ruby O) (op : Op O) : Bool := (assigned op).any runtime.isTrue

/-- The call assigns a false value to it. -/
def assignsFalse (runtime : Ruby O) (op : Op O) : Bool :=
  (assigned op).any fun value => !runtime.isTrue value

end RackEnvironment

namespace RackEnvironmentHash

variable [DecidableEq O] {env : RackEnvironmentHash O} {key : StringKey}

theorem fillHeaderKey_found :
    ((env.fillHeaderKey key).table.lookup (.string key)).isSome = true ∨
      env.fillHeaderKey key = env := by
  unfold fillHeaderKey
  cases env.headerKeyMap.lookup key with
  | none => exact Or.inr rfl
  | some headerName =>
    change ((env.fillHeaderKey' key headerName).table.lookup _).isSome = true ∨
      env.fillHeaderKey' key headerName = env
    rw [fillHeaderKey'_eq]
    cases headerValue env.headers headerName with
    | none => exact Or.inr rfl
    | some v =>
      refine Or.inl ?_
      rw [Option.elim_some, put, AList.lookup_insert]
      rfl

theorem fillRackKey_found :
    ((env.fillRackKey key).table.lookup (.string key)).isSome = true ∨
      env.fillRackKey key = env := by
  rcases fillRackKey_cases env key with ⟨-, he⟩ | ⟨rackKey, v, -, -, he⟩
  · exact Or.inr he
  · refine Or.inl ?_
    rw [he, AList.lookup_insert]
    rfl

/-- What `fillKey` does with a key that is missing. -/
theorem fillKey_of_missing {env₁ : RackEnvironmentHash O} (hf : env.filledEntireHash = false)
    (hv : (env.table.lookup (.string key)).isSome = false)
    (hpop : (if env.filledHeaderKeyMap then env else env.populateHeaderKeyMap) = env₁) :
    env.fillKey (.string key) =
      if isHeaderKey key.bytes then env₁.fillHeaderKey key else env₁.fillRackKey key := by
  simp only [fillKey, hf, hv, hpop, Bool.false_eq_true, if_false]

/-- **Filling a key twice** is filling it once. -/
theorem fillKey_fillKey (env : RackEnvironmentHash O) (key : RubyKey O) :
    (env.fillKey key).fillKey key = env.fillKey key := by
  cases hf : env.filledEntireHash with
  | true => simp [fillKey, hf]
  | false =>
    cases key with
    | other o => simp [fillKey]
    | string k =>
      cases hv : (env.table.lookup (.string k)).isSome with
      | true => simp [fillKey, hv]
      | false =>
        obtain ⟨env₁, hpop, hmap, hfilled, htable⟩ : ∃ env₁ : RackEnvironmentHash O,
            (if env.filledHeaderKeyMap then env else env.populateHeaderKeyMap) = env₁ ∧
              env₁.filledHeaderKeyMap = true ∧ env₁.filledEntireHash = false ∧
                env₁.table = env.table := by
          refine ⟨_, rfl, ?_⟩
          split
          · exact ⟨‹_›, hf, rfl⟩
          · rw [populateHeaderKeyMap_eq]
            exact ⟨rfl, hf, rfl⟩
        have hfill := fillKey_of_missing hf hv hpop
        have hfound : ((env.fillKey (.string k)).table.lookup (.string k)).isSome = true ∨
            env.fillKey (.string k) = env₁ := by
          rw [hfill]
          split
          · exact fillHeaderKey_found
          · exact fillRackKey_found
        rcases hfound with hsome | hnone
        · generalize env.fillKey (.string k) = e at hsome
          simp [fillKey, hsome]
        · -- nothing was found, and nothing is found again
          have hagain : env₁.fillKey (.string k) = env.fillKey (.string k) := by
            rw [← htable] at hv
            rw [hfill, fillKey_of_missing hfilled hv (if_pos hmap)]
          rw [hnone, hagain, hnone]

end RackEnvironmentHash

namespace RackEnvironment

variable [DecidableEq O]

/-- **A call of a method of the env**: what `RackEnvironmentHash` makes of
it, and beside that a true value assigned to `rack.multithread` flips the
flag. -/
theorem call_eq (op : Op O) (env : RackEnvironmentHash O) (rackEnv : RackEnvironment O) :
    call op env rackEnv = (env.call op,
      rackEnv.setMutliThreaded (rackEnv.mutliThreaded ^^ assignsTrue rackEnv.runtime op)) := by
  cases op with
  | opAref key | fetch key | hasKeyP key | delete key | whole method =>
    simp [call, assignsTrue, assigned, setMutliThreaded]
  | opAset key value =>
    have hcall : (env.fillKey key).call (.opAset key value) = env.call (.opAset key value) := by
      simp only [RackEnvironmentHash.call, RackEnvironmentHash.fillFor,
        RackEnvironmentHash.fillKey_fillKey]
    cases hk : isMultiThreadedKey key with
    | true => simp only [call, hcall, assignsTrue, assigned, hk, if_true, Option.any_some]
    | false => simp [call, hcall, assignsTrue, assigned, hk, setMutliThreaded]

omit [DecidableEq O] in
/-- `getEnv` sets it. -/
theorem snd_getEnv (request : HttpServerRequest) (input : O) (isSSL : Bool)
    (rackEnv : RackEnvironment O) :
    (getEnv request input isSSL rackEnv).2 = rackEnv.setMutliThreaded true := by
  rw [getEnv]
  cases getContentLength request.headers <;> rfl

end RackEnvironment

end RackEnv

end Jubilee
