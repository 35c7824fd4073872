import Mathlib.Data.List.AList
import Mathlib.Logic.Function.Basic
import Jubilee.Runtime.Ruby
import Jubilee.Runtime.Vertx
/-!
# Rack env — the model

`RackEnvironmentHash` is a Ruby hash whose entries are made when they are
first asked for. Values the server computes wait in `rackValues`, and are
taken out once; request headers are looked up in the multimap as often
as their key is missing. A method that names one key fills that key
first (`fillKey`), every other method fills the hash first
(`fillEntireHash`), and both then do what `RubyHash` does.

The order of a hash's entries is not modelled.
-/

namespace Jubilee

namespace RackEnv

variable {O : Type*} [DecidableEq O]

/-! ## Keys -/

/-- `HttpHeaders.Names.CONTENT_TYPE`. -/
def CONTENT_TYPE : JString := "Content-Type".toList

/-- `HttpHeaders.Names.CONTENT_LENGTH`. -/
def CONTENT_LENGTH : JString := "Content-Length".toList

/-- `HTTP_`. -/
def httpPrefix : Bytes := [72, 84, 84, 80, 95]

/-- `toUpperCase`. -/
def toUpperCase (c : Char) : Char :=
  if 'a' ≤ c ∧ c ≤ 'z' then Char.ofNat (c.toNat - 32) else c

/-- `rackHeaderize`. -/
def rackHeaderize (c : Char) : Char := toUpperCase (if c = '-' then '_' else c)

/-- `rackHeaderNameToBytes`. -/
def rackHeaderNameToBytes (headerName : JString) : Bytes :=
  httpPrefix ++ headerName.map fun c => charToByte (rackHeaderize c)

/-- The key that a header name is stored under. -/
def rubyKey (headerName : JString) : StringKey :=
  (RubyHelper.toUsAsciiRubyString (rackHeaderNameToBytes headerName)).toKey

/-- The test of `fillKey` that sends a key to the headers. -/
def isHeaderKey (keyBytes : Bytes) : Bool := 5 < keyBytes.length && keyBytes.take 5 = httpPrefix

/-- `RACK_KEY`. -/
inductive RackKey
  | rackInput | rackErrors | requestMethod | scriptName
  | pathInfo | queryString | serverName | serverPort
  | contentType | requestUri | remoteAddr | urlScheme
  | version | multithread | multiprocess | runOnce | contentLength
  | https | httpVersion | hijackP | hijack
  deriving DecidableEq

/-- `putRack`, as far as the key goes. -/
def putRack (key : String) (value : RackKey) : StringKey × RackKey :=
  ((RubyHelper.toUnicodeRubyString key.toList).toKey, value)

/-- `populateRackKeyMap`. -/
def populateRackKeyMap : List (StringKey × RackKey) :=
  [putRack "rack.input" .rackInput,
    putRack "rack.errors" .rackErrors,
    putRack "REQUEST_METHOD" .requestMethod,
    putRack "SCRIPT_NAME" .scriptName,
    putRack "PATH_INFO" .pathInfo,
    putRack "QUERY_STRING" .queryString,
    putRack "SERVER_NAME" .serverName,
    putRack "SERVER_PORT" .serverPort,
    putRack "HTTP_VERSION" .httpVersion,
    putRack "CONTENT_TYPE" .contentType,
    putRack "REQUEST_URI" .requestUri,
    putRack "REMOTE_ADDR" .remoteAddr,
    putRack "rack.url_scheme" .urlScheme,
    putRack "rack.version" .version,
    putRack "rack.multithread" .multithread,
    putRack "rack.multiprocess" .multiprocess,
    putRack "rack.run_once" .runOnce,
    putRack "rack.hijack?" .hijackP,
    putRack "rack.hijack" .hijack,
    putRack "CONTENT_LENGTH" .contentLength,
    putRack "HTTPS" .https]

/-- `rackKeyMap.get`. -/
def rackKeyMap (key : StringKey) : Option RackKey := populateRackKeyMap.lookup key

/-! ## The hash -/

/-- A value given to `lazyPut`: a Java string, which is made a Ruby string
when it is taken out, or a Ruby object. -/
inductive LazyValue (O : Type*)
  | string (value : JString)
  | object (value : RubyObject O)
  deriving DecidableEq

/-- The Ruby value of a lazy one. -/
def LazyValue.toRuby (usAscii : Bool) : LazyValue O → RubyObject O
  | .string value =>
    .string (if usAscii then RubyHelper.toUsAsciiRubyString' value
      else RubyHelper.toUnicodeRubyString value)
  | .object value => value

/-- What a `RubyHash` holds. -/
abbrev Table (O : Type*) := AList fun _ : RubyKey O => RubyObject O

/-- `RackEnvironmentHash`: the fields of the hash, and the table of the
`RubyHash` it extends. -/
structure RackEnvironmentHash (O : Type*) where
  table : Table O
  rackValues : RackKey → Option (LazyValue O)
  usAsciiValues : RackKey → Bool
  headers : MultiMap
  headerKeyMap : AList fun _ : StringKey => JString
  filledEntireHash : Bool
  filledHeaderKeyMap : Bool

namespace RackEnvironmentHash

/-- The constructor. -/
def new (headers : MultiMap) : RackEnvironmentHash O :=
  ⟨∅, fun _ => none, fun _ => false, headers, ∅, false, false⟩

variable (env : RackEnvironmentHash O)

/-- `lazyPut`. -/
def lazyPut (rackKey : RackKey) (value : Option (LazyValue O)) (usAscii : Bool) :
    RackEnvironmentHash O :=
  { env with
    rackValues := Function.update env.rackValues rackKey value
    usAsciiValues := Function.update env.usAsciiValues rackKey usAscii }

/-- `RubyHash.put`. -/
def put (key : StringKey) (value : RubyObject O) : RackEnvironmentHash O :=
  { env with table := env.table.insert (.string key) value }

/-- `putHeaderKey`. -/
def putHeaderKey (key : StringKey) (headerName : JString) : RackEnvironmentHash O :=
  { env with headerKeyMap := env.headerKeyMap.insert key headerName }

/-- `populateHeaderKeyMap`. -/
def populateHeaderKeyMap : RackEnvironmentHash O :=
  { env.headers.names.foldl (fun env name => env.putHeaderKey (rubyKey name) name) env with
    filledHeaderKeyMap := true }

/-- The values of one header as the env holds them, one to a line. -/
def joinValues (headerValue : JString) (headerValues : List JString) : JString :=
  headerValues.foldl (fun acc v => acc ++ '\n' :: v) headerValue

/-- `fillHeaderKey`, for a header name. -/
def fillHeaderKey' (key : StringKey) (headerName : JString) : RackEnvironmentHash O :=
  -- these two spellings are kept out, and no others
  if headerName ≠ CONTENT_TYPE ∧ headerName ≠ CONTENT_LENGTH then
    match env.headers.getAll headerName with
    | [] => env
    | v :: vs => env.put key (.string (RubyHelper.toUnicodeRubyString (joinValues v vs)))
  else env

/-- `fillHeaderKey`. -/
def fillHeaderKey (key : StringKey) : RackEnvironmentHash O :=
  match env.headerKeyMap.lookup key with
  | some headerName => env.fillHeaderKey' key headerName
  | none => env

/-- `fillRackKey`. -/
def fillRackKey (key : StringKey) : RackEnvironmentHash O :=
  match rackKeyMap key with
  | some rackKey =>
    match env.rackValues rackKey with
    | some value =>
      { env.put key (value.toRuby (env.usAsciiValues rackKey)) with
        rackValues := Function.update env.rackValues rackKey none }
    | none => env
  | none => env

/-- `fillKey`. -/
def fillKey (key : RubyKey O) : RackEnvironmentHash O :=
  if env.filledEntireHash then env
  else
    match key with
    | .other _ => env
    | .string k =>
      -- a missing key is taken for one that was not filled yet
      if (env.table.lookup key).isSome then env
      else
        let env := if env.filledHeaderKeyMap then env else env.populateHeaderKeyMap
        if isHeaderKey k.bytes then env.fillHeaderKey k else env.fillRackKey k

/-- The second loop of `fillEntireHash`, for one header name. -/
def fillHeaderName (name : JString) : RackEnvironmentHash O :=
  (env.putHeaderKey (rubyKey name) name).fillHeaderKey' (rubyKey name) name

/-- `fillEntireHash`. -/
def fillEntireHash : RackEnvironmentHash O :=
  if env.filledEntireHash then env
  else
    let env := (populateRackKeyMap.map Prod.fst).foldl fillRackKey env
    -- the headers go over whatever is in the table by now
    let env := env.headers.names.foldl fillHeaderName env
    { env with filledEntireHash := true }

end RackEnvironmentHash

end RackEnv

end Jubilee
