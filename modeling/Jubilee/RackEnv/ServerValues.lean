import Jubilee.RackEnv.GetEnv
import Jubilee.RackEnv.Reads
/-!
# Rack env — the values the server computes

What `getEnv` stores for a key that is not of the headers is what a read
finds there, of the key alone or of the whole hash, until a call changes
the key.
-/

namespace Jubilee

namespace RackEnv

variable {O : Type*} [DecidableEq O]

/-- As long as no call changes the key, a read of it and a read of the
whole hash find `value` there. -/
def Stays (env : RackEnvironmentHash O) (key : RubyKey O) (value : Option (RubyObject O)) : Prop :=
  ∀ ops : List (Op O), (∀ op ∈ ops, op.Keeps key) →
    ((env.run ops).fillKey key).table.lookup key = value ∧
      (env.run ops).fillEntireHash.table.lookup key = value

/-- A key has one value to stay. -/
theorem Stays.unique {env : RackEnvironmentHash O} {key : RubyKey O}
    {value value' : Option (RubyObject O)} (h : Stays env key value)
    (h' : Stays env key value') : value = value' := by
  have hnone := (h [] (List.forall_mem_nil _)).1
  exact hnone.symm.trans (h' [] (List.forall_mem_nil _)).1

open RackEnvironmentHash

/-- **A key that no header maps to has its rack value.** -/
theorem stays_fresh {headers : MultiMap} {values : List (RackKey × Option (LazyValue O) × Bool)}
    {k : StringKey} (hk : isHeaderKey k.bytes = false) (hne : k ≠ rubyKey []) :
    Stays (fresh headers values) (.string k) (rackValue values (.string k)) := by
  have hmapped : mapped headers k = [] := by
    rw [List.eq_nil_iff_forall_not_mem]
    exact fun name hname => hne (mapped_of_not_isHeaderKey hk hname).2
  have hwhole : (wholeValue headers k).or (rackValue values (.string k)) =
      rackValue values (.string k) := by
    rw [wholeValue, hmapped]
    rfl
  have hs := (sound_fresh headers values).1
  intro ops hops
  rw [lookup_fillKey_run hs hops, lookup_fillEntireHash_run hs hops, lookup_fillKey_fresh,
    lookup_fillEntireHash_fresh, hwhole, hk, if_neg Bool.false_ne_true, ite_self]
  exact ⟨rfl, rfl⟩

/-! ## The keys -/

/-- No header maps to a key of the server, but for one. -/
theorem not_isHeaderKey {k : StringKey} {rackKey : RackKey} (hk : (k, rackKey) ∈ populateRackKeyMap)
    (hversion : rackKey ≠ .httpVersion) : isHeaderKey k.bytes = false ∧ k ≠ rubyKey [] := by
  have htable : ∀ p ∈ populateRackKeyMap,
      p.2 ≠ .httpVersion → isHeaderKey p.1.bytes = false ∧ p.1 ≠ rubyKey [] := by decide
  exact htable (k, rackKey) hk hversion

/-- The key `SERVER_NAME`. -/
def serverNameKey : StringKey := (RubyHelper.toUnicodeRubyString "SERVER_NAME".toList).toKey

/-- The key `SERVER_PORT`. -/
def serverPortKey : StringKey := (RubyHelper.toUnicodeRubyString "SERVER_PORT".toList).toKey

/-- The key `rack.url_scheme`. -/
def urlSchemeKey : StringKey := (RubyHelper.toUnicodeRubyString "rack.url_scheme".toList).toKey

/-- The key `CONTENT_LENGTH`. -/
def contentLengthKey : StringKey := (RubyHelper.toUnicodeRubyString "CONTENT_LENGTH".toList).toKey

section

omit [DecidableEq O]

variable {values values' : List (RackKey × Option (LazyValue O) × Bool)} {rackKey : RackKey}

/-- What is stored for other keys does not count. -/
theorem lastPut_append_of_ne (h : ∀ v ∈ values', v.1 ≠ rackKey) :
    lastPut (values ++ values') rackKey = lastPut values rackKey := by
  have hnil : values'.filter (fun v => v.1 = rackKey) = [] := by
    rw [List.filter_eq_nil_iff]
    intro v hv
    simpa using h v hv
  rw [lastPut, List.filter_append, hnil, List.append_nil, lastPut]

/-- Nor does a value that is stored for another key in some requests. -/
theorem lastPut_append_ite_of_ne {p : Prop} [Decidable p] {rackKey' : RackKey}
    {v : Option (LazyValue O) × Bool} (h : rackKey' ≠ rackKey) :
    lastPut (values ++ if p then [(rackKey', v)] else []) rackKey = lastPut values rackKey := by
  refine lastPut_append_of_ne fun v' hv' => ?_
  split at hv'
  · rw [List.mem_singleton.mp hv']
    exact h
  · cases hv'

end

namespace RackEnvironment

omit [DecidableEq O]

variable (rackEnv : RackEnvironment O) (request : HttpServerRequest) (input : O) (isSSL : Bool)
  (contentLength : ℤ)

/-- `SERVER_NAME`. -/
theorem rackValue_serverName :
    rackValue (lazyValues rackEnv request input isSSL contentLength) (.string serverNameKey) =
      some (.string (RubyHelper.toUnicodeRubyString
        (getHostInfo (request.headers.get HOST)).1)) := by
  have hkey : rackKeyMap serverNameKey = some .serverName := by decide
  rw [rackValue, hkey, Option.bind_some, lazyValues, lastPut_append_ite_of_ne (by decide),
    lastPut_append_ite_of_ne (by decide)]
  rfl

/-- `SERVER_PORT`. -/
theorem rackValue_serverPort :
    rackValue (lazyValues rackEnv request input isSSL contentLength) (.string serverPortKey) =
      some (.string (RubyHelper.toUsAsciiRubyString'
        (getHostInfo (request.headers.get HOST)).2)) := by
  have hkey : rackKeyMap serverPortKey = some .serverPort := by decide
  rw [rackValue, hkey, Option.bind_some, lazyValues, lastPut_append_ite_of_ne (by decide),
    lastPut_append_ite_of_ne (by decide)]
  rfl

/-- `rack.url_scheme`. -/
theorem rackValue_urlScheme :
    rackValue (lazyValues rackEnv request input isSSL contentLength) (.string urlSchemeKey) =
      some (.string (RubyHelper.toUsAsciiRubyString'
        (if isSSL then "https" else "http").toList)) := by
  have hkey : rackKeyMap urlSchemeKey = some .urlScheme := by decide
  rw [rackValue, hkey, Option.bind_some, lazyValues, lastPut_append_ite_of_ne (by decide),
    lastPut_append_ite_of_ne (by decide)]
  rfl

/-- `CONTENT_LENGTH`. -/
theorem rackValue_contentLength :
    rackValue (lazyValues rackEnv request input isSSL contentLength) (.string contentLengthKey) =
      if 0 ≤ contentLength then
        some (.string (RubyHelper.toUsAsciiRubyString' (toString contentLength).toList))
      else none := by
  have hkey : rackKeyMap contentLengthKey = some .contentLength := by decide
  rw [rackValue, hkey, Option.bind_some, lazyValues, lastPut_append_ite_of_ne (by decide)]
  by_cases h : 0 ≤ contentLength
  · rw [if_pos h, if_pos h]
    rfl
  · rw [if_neg h, if_neg h]
    rfl

end RackEnvironment

end RackEnv

end Jubilee
