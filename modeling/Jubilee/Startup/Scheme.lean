import Jubilee.RackEnv.Multithread
import Jubilee.RackEnv.ServerValues
import Jubilee.Startup.Verticle
/-!
# Start-up — the scheme

Whether a server speaks TLS is settled on the command line and in the
file, long before a request comes. `scheme_told`: the socket does what
was settled, with the key store that was set last, and every env tells
its application the same, in whatever order it is read.
-/

namespace Jubilee

open RackEnv RackEnv.RackEnvironmentHash

namespace RackEnv

variable {P : Type*}

/-- The key `HTTPS`. -/
def httpsKey : StringKey := (RubyHelper.toUnicodeRubyString "HTTPS".toList).toKey

theorem lastPut_concat (values : List (RackKey × Option (LazyValue P) × Bool)) (rackKey : RackKey)
    (v : Option (LazyValue P) × Bool) :
    lastPut (values ++ [(rackKey, v)]) rackKey = v.1.map (LazyValue.toRuby v.2) := by
  simp [lastPut]

/-- `HTTPS`. -/
theorem RackEnvironment.rackValue_https (rackEnv : RackEnvironment P)
    (request : HttpServerRequest) (input : P) (isSSL : Bool) (contentLength : ℤ) :
    rackValue (lazyValues rackEnv request input isSSL contentLength) (.string httpsKey) =
      if isSSL then some (.string <| RubyHelper.toUsAsciiRubyString' "on".toList) else none := by
  have hkey : rackKeyMap httpsKey = some .https := by decide
  rw [rackValue, hkey, Option.bind_some, lazyValues]
  cases isSSL with
  | true => exact lastPut_concat _ _ _
  | false => exact (lastPut_append_of_ne (by simp)).trans (lastPut_append_ite_of_ne (by decide))

end RackEnv

namespace Startup

variable {m : Machine} {line : CommandLine} {rackEnv : Value} {vertx : VertxOptions}
  {d : DeploymentOptions} {O : Type} {runtime : Runtime O} {v : Verticle O}
  {file : List Assignment} {server : Options}

/-- What the verticle makes of the options of the server for TLS. -/
theorem keyStoreOptions_of_start (hreads : PlatformManager.Reads server d)
    (hstart : JubileeVerticle.start m runtime d = .ok v) :
    v.ssl = (server.get .ssl).isTrue ∧ v.httpServerOptions.keyStoreOptions.isSome = v.ssl ∧
      (v.ssl = true → ∃ path password,
        v.httpServerOptions.keyStoreOptions = some (some path, password) ∧
          server.get .sslKeystore = .string path) := by
  obtain ⟨port, -, hstart⟩ := Fallible.bind_eq_ok.mp hstart
  obtain ⟨root, -, hstart⟩ := Fallible.bind_eq_ok.mp hstart
  obtain ⟨rackApplication, -, hstart⟩ := Fallible.bind_eq_ok.mp hstart
  obtain rfl := Fallible.pure_eq_ok.mp hstart
  refine ⟨hreads.ssl, ?_, fun hssl => ?_⟩
  · dsimp only
    cases d.ssl <;> rfl
  · have hssl : d.ssl = true := hssl
    have hpath := hreads.keystorePath
    rw [if_pos hssl] at hpath
    cases hkeystore : server.get .sslKeystore with
    | string path =>
      rw [hkeystore] at hpath
      obtain hpath : some path = d.keystorePath := Except.ok.inj hpath
      refine ⟨path, d.keystorePassword, ?_, rfl⟩
      dsimp only
      rw [if_pos hssl, hpath]
    | nil | bool b | int n | object id =>
      rw [hkeystore] at hpath
      cases hpath

/-- **What applications are told is what the socket does.** A server that
was started speaks TLS just where the last setting of `ssl` says so, with
the key store that was set last. An env that its `RackApplication` makes
has the scheme, and `HTTPS`, to match; they stay what they are, read
alone or with the whole hash, until a call changes them. -/
theorem scheme_told {P : Type} [DecidableEq P] (hdaemon : .daemon ∉ line.flags)
    (hrun : CLI.run m line = .ok (.started rackEnv vertx d))
    (hstart : JubileeVerticle.start m runtime d = .ok v) {request : HttpServerRequest} {input : P}
    {rackEnvironment : RackEnvironment P} {env : RackEnvironmentHash P}
    (henv : (rackEnvironment.getEnv request input v.ssl).1 = .ok env) :
    ∃ file ssl, m.assignments line.configFile = .ok file ∧
      ssl = ((settled m line file).get .ssl).isTrue ∧
      v.httpServerOptions.keyStoreOptions.isSome = ssl ∧
      (ssl = true → ∃ path password,
        v.httpServerOptions.keyStoreOptions = some (some path, password) ∧
          (settled m line file).get .sslKeystore = .string path) ∧
      Stays env (.string urlSchemeKey) (some (.string
        (RubyHelper.toUsAsciiRubyString' (if ssl then "https" else "http").toList))) ∧
      Stays env (.string httpsKey)
        (if ssl then some (.string <| RubyHelper.toUsAsciiRubyString' "on".toList) else none) := by
  obtain ⟨file, server, hfile, hserver, hreads⟩ := deployed_of_run hdaemon hrun
  obtain ⟨hssl, hsome, hkeystore⟩ := keyStoreOptions_of_start hreads hstart
  rw [get_of_server (k := .ssl) hserver (by decide) (by decide) (by decide) (.inl rfl)] at hssl
  rw [get_of_server (k := .sslKeystore) hserver (by decide) (by decide) (by decide)
    (.inr rfl)] at hkeystore
  obtain ⟨n, rfl⟩ := RackEnvironment.exists_of_getEnv henv
  refine ⟨file, v.ssl, hfile, hssl, hsome, hkeystore, ?_, ?_⟩
  · rw [← RackEnvironment.rackValue_urlScheme rackEnvironment request input v.ssl n]
    exact stays_fresh (by decide) (by decide)
  · rw [← RackEnvironment.rackValue_https rackEnvironment request input v.ssl n]
    exact stays_fresh (by decide) (by decide)

/-- `--ssl --ssl-keystore keystore.jks`. -/
def sslLine : CommandLine := .ofFlags [.ssl, .sslKeystore "keystore.jks".toList] []

/-- What it deploys. -/
def sslDeployment : DeploymentOptions :=
  { noSettings with ssl := true, keystorePath := some "keystore.jks".toList }

theorem scheme_told_ssl :
    ∃ env, (RackEnvironment.getEnv Service.get.request 5 true Service.numbered).1 = .ok env ∧
      Stays env (.string urlSchemeKey)
        (some (.string <| RubyHelper.toUsAsciiRubyString' "https".toList)) := by
  have hdaemon : .daemon ∉ sslLine.flags := by simp [sslLine, CommandLine.ofFlags]
  have hrun : CLI.run (localMachine []) sslLine =
      .ok (.started (.string "development".toList) ⟨6000000000, none⟩ sslDeployment) := by
    decide +kernel
  have hstart : JubileeVerticle.start (localMachine []) anyRuntime sslDeployment =
      .ok ⟨⟨8080, "0.0.0.0".toList, 10000, false, some (some "keystore.jks".toList, none)⟩,
        "/srv".toList, (), true, false, none⟩ := rfl
  obtain ⟨env, henv⟩ : ∃ env, (RackEnvironment.getEnv Service.get.request 5 true
      Service.numbered).1 = .ok env := ⟨_, rfl⟩
  obtain ⟨file, ssl, -, -, rfl, -, hscheme, -⟩ := scheme_told hdaemon hrun hstart henv
  exact ⟨env, henv, hscheme⟩

end Startup

end Jubilee
