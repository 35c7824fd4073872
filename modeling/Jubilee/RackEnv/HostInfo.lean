import Jubilee.RackEnv.ContentLength
/-!
# Rack env — the endpoint that the client addressed

`getHostInfo` cuts the header `Host` at its first colon and takes `80`
for a port that is not written. `endpoint_named_iff` says for which
authorities, and on which servers, that is the endpoint the authority
names.
-/

namespace Jubilee

namespace RackEnv

variable {O : Type*} [DecidableEq O]

/-! ## Authorities -/

/-- The characters that delimit the parts of a URI. -/
def genDelims : List Char := [':', '/', '?', '#', '[', ']', '@']

/-- A character of an IPv6 address. -/
def isAddressChar (c : Char) : Bool :=
  c.isDigit || ('a' ≤ c && c ≤ 'f') || ('A' ≤ c && c ≤ 'F') || c = ':' || c = '.'

/-- A host: a registered name or an IPv4 address, or an IPv6 address,
which is written in brackets. -/
inductive Host
  | name (text : JString) (plain : ∀ c ∈ text, c ∉ genDelims)
  | ipv6 (address : JString) (chars : ∀ c ∈ address, isAddressChar c = true)
    (colon : ':' ∈ address)

/-- A host as it is written. -/
def Host.text : Host → JString
  | .name text _ => text
  | .ipv6 address _ _ => '[' :: address ++ [']']

/-- The host is in brackets. -/
def Host.isBracketed : Host → Bool
  | .name _ _ => false
  | .ipv6 _ _ _ => true

/-- An authority: a host, and the digits of a port if one is written. -/
structure Authority where
  host : Host
  port : Option JString
  port_ne_nil : ∀ p ∈ port, p ≠ []
  port_decimal : ∀ p ∈ port, Decimal p

/-- An authority as it is written. -/
def Authority.text (a : Authority) : JString := a.host.text ++ a.port.elim [] (':' :: ·)

/-- The port that a scheme stands for. -/
def defaultPort (scheme : RubyString) : JString :=
  if scheme = RubyHelper.toUsAsciiRubyString' "https".toList then "443".toList else "80".toList

/-- `SERVER_NAME` is the host and `SERVER_PORT` the port, or the port of
`rack.url_scheme` if none is written, as long as no call changes them. -/
def Names (env : RackEnvironmentHash O) (a : Authority) : Prop :=
  ∃ scheme, Stays env (.string urlSchemeKey) (some (.string scheme)) ∧
    getHostInfo (some a.text) = (a.host.text, a.port.getD (defaultPort scheme)) ∧
    Stays env (.string serverNameKey)
      (some (.string (RubyHelper.toUnicodeRubyString a.host.text))) ∧
    Stays env (.string serverPortKey)
      (some (.string (RubyHelper.toUsAsciiRubyString' (a.port.getD (defaultPort scheme)))))

/-! ## Where the cut is -/

theorem getHostInfo_some (host : JString) :
    getHostInfo (some host) = (host.idxOf? ':').elim (host, "80".toList) fun colon =>
      if 0 < colon then (host.take colon, host.drop (colon + 1)) else (host, "80".toList) := by
  unfold getHostInfo
  dsimp only
  cases host.idxOf? ':' <;> rfl

/-- After a name without a colon the cut is at the first one. -/
theorem getHostInfo_append {name : JString} (hne : name ≠ []) (h : ':' ∉ name) (rest : JString) :
    getHostInfo (some (name ++ ':' :: rest)) = (name, rest) := by
  have hcolon : (name ++ ':' :: rest).idxOf? ':' = some name.length := by
    have hnone : name.idxOf? ':' = none := List.idxOf?_eq_none_iff.mpr h
    rw [List.idxOf?] at hnone ⊢
    rw [List.findIdx?_append, hnone, List.findIdx?_cons]
    simp
  have hpos : 0 < name.length := List.length_pos_iff.mpr hne
  rw [getHostInfo_some, hcolon, Option.elim_some, if_pos hpos, List.take_left,
    ← List.drop_drop, List.drop_left]
  rfl

/-- A colon that comes first is no cut. -/
theorem getHostInfo_cons (rest : JString) :
    getHostInfo (some (':' :: rest)) = (':' :: rest, "80".toList) := rfl

theorem getHostInfo_of_notMem {host : JString} (h : ':' ∉ host) :
    getHostInfo (some host) = (host, "80".toList) := by
  rw [getHostInfo_some, List.idxOf?_eq_none_iff.mpr h, Option.elim_none]

theorem Host.colon_notMem {text : JString} (plain : ∀ c ∈ text, c ∉ genDelims) : ':' ∉ text :=
  fun h => plain ':' h (by decide)

/-- **The cut is right**, for a port that is to be taken where none is
written, if the host is not in brackets, and either a host is written
before the port or that port is `80`. -/
theorem getHostInfo_eq_iff (a : Authority) (port : JString) :
    getHostInfo (some a.text) = (a.host.text, a.port.getD port) ↔
      a.host.isBracketed = false ∧
        (a.port.isSome = true ∧ a.host.text ≠ [] ∨ a.port = none ∧ port = "80".toList) := by
  obtain ⟨host, written, hne, -⟩ := a
  cases host with
  | name text plain =>
    have hcolon := Host.colon_notMem plain
    cases written with
    | none =>
      rw [Authority.text, Host.text, Option.elim_none, List.append_nil,
        getHostInfo_of_notMem hcolon, Prod.mk.injEq]
      simp only [Host.isBracketed, Option.getD_none, Option.isSome_none, Bool.false_eq_true,
        false_and, false_or, true_and]
      exact eq_comm
    | some digits =>
      rw [Authority.text, Host.text, Option.elim_some]
      by_cases htext : text = []
      · subst htext
        rw [List.nil_append, getHostInfo_cons, Prod.mk.injEq]
        simp
      · rw [getHostInfo_append htext hcolon]
        simp [Host.isBracketed, htext]
  | ipv6 address chars colon =>
    -- the first colon is one of the address
    obtain ⟨before, after, haddress, hbefore⟩ := List.eq_append_cons_of_mem colon
    subst haddress
    have htext : Authority.text ⟨.ipv6 (before ++ ':' :: after) chars colon, written, hne, ‹_›⟩ =
        ('[' :: before) ++ ':' :: (after ++ ']' :: written.elim [] (':' :: ·)) := by
      simp [Authority.text, Host.text]
    have hcolon : ':' ∉ '[' :: before := by simp [hbefore]
    rw [htext, getHostInfo_append (List.cons_ne_nil _ _) hcolon]
    constructor
    · intro h
      have hlength := congrArg List.length (Prod.mk.inj h).1
      simp only [Host.text, List.length_cons, List.length_append, List.length_nil] at hlength
      omega
    · rintro ⟨⟨⟩, -⟩

/-! ## The env -/

/-- The env names the endpoint if `getHostInfo` finds it, with the port of
the server's scheme for one that is not written. -/
theorem names_iff_getHostInfo {rackEnv : RackEnvironment O} {request : HttpServerRequest}
    {input : O} {isSSL : Bool} {a : Authority} (hhost : request.headers.get HOST = some a.text)
    {env : RackEnvironmentHash O}
    (henv : (RackEnvironment.getEnv request input isSSL rackEnv).1 = .ok env) :
    Names env a ↔ getHostInfo (some a.text) = (a.host.text, a.port.getD (defaultPort
      (RubyHelper.toUsAsciiRubyString' (if isSSL then "https" else "http").toList))) := by
  obtain ⟨n, rfl⟩ := RackEnvironment.exists_of_getEnv henv
  have hstays : ∀ k : StringKey, isHeaderKey k.bytes = false → k ≠ rubyKey [] →
      Stays (RackEnvironmentHash.fresh request.headers
        (RackEnvironment.lazyValues rackEnv request input isSSL n)) (.string k) _ :=
    fun k hk hne => stays_fresh hk hne
  have hscheme := hstays urlSchemeKey (by decide) (by decide)
  have hname := hstays serverNameKey (by decide) (by decide)
  have hport := hstays serverPortKey (by decide) (by decide)
  rw [RackEnvironment.rackValue_urlScheme] at hscheme
  rw [RackEnvironment.rackValue_serverName, hhost] at hname
  rw [RackEnvironment.rackValue_serverPort, hhost] at hport
  constructor
  · rintro ⟨scheme, hscheme', hinfo, -, -⟩
    obtain rfl := RubyObject.string.inj (Option.some.inj (hscheme.unique hscheme'))
    exact hinfo
  · intro hinfo
    rw [hinfo] at hname hport
    exact ⟨_, hscheme, hinfo, hname, hport⟩

/-- **The endpoint is named** if the host is not in brackets, and either
it is written before a port, or no port is written on a server without
SSL, and only then. -/
theorem endpoint_named_iff (rackEnv : RackEnvironment O) (request : HttpServerRequest) (input : O)
    (isSSL : Bool) {a : Authority} (hhost : request.headers.get HOST = some a.text)
    {env : RackEnvironmentHash O}
    (henv : (RackEnvironment.getEnv request input isSSL rackEnv).1 = .ok env) :
    Names env a ↔ a.host.isBracketed = false ∧
      (a.port.isSome = true ∧ a.host.text ≠ [] ∨ a.port = none ∧ isSSL = false) := by
  have hdefault : defaultPort (RubyHelper.toUsAsciiRubyString'
      (if isSSL then "https" else "http").toList) = "80".toList ↔ isSSL = false := by
    cases isSSL <;> decide
  rw [names_iff_getHostInfo hhost henv, getHostInfo_eq_iff, hdefault]

/-- `a:8080`. -/
def aPort : Authority :=
  ⟨.name ['a'] (by simp [genDelims]), some "8080".toList, by decide, by decide⟩

/-- `a`. -/
def aAlone : Authority := ⟨.name ['a'] (by simp [genDelims]), none, by simp, by simp⟩

/-- `[::1]:8080`. -/
def loopbackPort : Authority :=
  ⟨.ipv6 "::1".toList (List.all_eq_true.mp rfl) (by decide), some "8080".toList,
    by decide, by decide⟩

/-- The env of a request for an authority. -/
def envFor (a : Authority) (isSSL : Bool) : Except Raised (RackEnvironmentHash ℕ) :=
  (RackEnvironment.getEnv (getWith HOST a.text) 5 isSSL someRackEnv).1

/-- `a:8080` is named, also with SSL. -/
theorem endpoint_named_iff_port : ∃ env, envFor aPort true = .ok env ∧ Names env aPort := by
  obtain ⟨env, henv⟩ : ∃ env, envFor aPort true = .ok env := ⟨_, rfl⟩
  exact ⟨env, henv, (endpoint_named_iff someRackEnv (getWith HOST aPort.text) 5 true
    (by decide) henv).mpr (by decide)⟩

/-- `[::1]:8080` is cut within its address, and `a` is named with port 80
where SSL has 443. -/
theorem endpoint_misnamed :
    getHostInfo (some loopbackPort.text) = (['['], ":1]:8080".toList) ∧
      (∃ env, envFor loopbackPort false = .ok env ∧ ¬ Names env loopbackPort) ∧
      getHostInfo (some aAlone.text) = (['a'], "80".toList) ∧
      ∃ env, envFor aAlone true = .ok env ∧ ¬ Names env aAlone := by
  obtain ⟨env, henv⟩ : ∃ env, envFor loopbackPort false = .ok env := ⟨_, rfl⟩
  obtain ⟨env', henv'⟩ : ∃ env, envFor aAlone true = .ok env := ⟨_, rfl⟩
  refine ⟨by decide, ⟨env, henv, ?_⟩, by decide, env', henv', ?_⟩
  · rw [names_iff_getHostInfo (by decide) henv]
    decide
  · rw [names_iff_getHostInfo (by decide) henv']
    decide

end RackEnv

end Jubilee
