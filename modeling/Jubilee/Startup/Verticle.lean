import Jubilee.RackApplication.Finished
import Jubilee.Startup.Precedence
import Jubilee.Startup.Scripts
/-!
# Start-up — the verticle

`JubileeVerticle.start` makes the server and the `RackApplication` from
the configuration it is deployed with. `failed_response` goes all the way
from the command line and the file to what a client is told of a request
that failed: the environment that was set last decides whether the
message and the stack are kept from it.
-/

namespace Jubilee

namespace Startup

/-! ## `start` -/

/-- `HttpServerOptions`, as far as they are set. -/
structure HttpServerOptions where
  port : ℤ
  host : JString
  acceptBacklog : ℕ
  clientAuthRequired : Bool
  /-- The path and the password of the `JksOptions`, if SSL is used. -/
  keyStoreOptions : Option (Option JString × Option JString)
  deriving DecidableEq

/-- The Ruby runtime of a verticle: what its scripts evaluate to. -/
structure Runtime (O : Type*) where
  expandedRoot : JString → Except Raised JString
  rackApplication : JString → Except Raised O

/-- A verticle that was started. -/
structure Verticle (O : Type*) where
  httpServerOptions : HttpServerOptions
  currentDirectory : JString
  rackApplication : O
  ssl : Bool
  hideErrorStack : Bool
  /-- The path of the route of the event bus. -/
  eventBus : Option JString
  deriving DecidableEq

/-- The entries that the scripts are made from. -/
def DeploymentOptions.scripts (config : DeploymentOptions) : Config :=
  ⟨config.rackup, config.quiet, config.environment, config.root⟩

/-- `start`. -/
def JubileeVerticle.start {O : Type} (m : Machine) (runtime : Runtime O)
    (config : DeploymentOptions) : Except Raised (Verticle O) := do
  let port ← m.setPort config.port
  let expandedRoot ← runtime.expandedRoot (expandScript config.scripts)
  let rackApplication ← runtime.rackApplication (rackScript config.scripts)
  pure {
    httpServerOptions :=
      { port
        host := config.host
        acceptBacklog := 10000
        clientAuthRequired := false
        keyStoreOptions :=
          if config.ssl then some (config.keystorePath, config.keystorePassword) else none }
    currentDirectory := expandedRoot
    rackApplication
    ssl := config.ssl
    hideErrorStack := config.hideErrorStack.getD false
    eventBus := config.eventBus.map fun path => '/' :: path ++ "/*".toList }

/-- The `RackApplication` of a verticle, for the response of a request and
the texts of exceptions. -/
def Verticle.app {O : Type} {σ : Type*} (v : Verticle O) (vertx : VertxResponse σ)
    (lineSeparator : Response.LineSeparator) (decoders : Response.Decoders)
    (getMessage printStackTrace : Raised → JString) : RackApplication σ :=
  { vertx, lineSeparator, decoders, hideErrorStack := v.hideErrorStack, getMessage,
    printStackTrace }

/-! ## The environment -/

variable {m : Machine} {line : CommandLine} {rackEnv : Value} {vertx : VertxOptions}
  {d : DeploymentOptions} {O : Type} {runtime : Runtime O} {v : Verticle O}

/-- What is deployed by a run is what was settled, read by the platform
manager. -/
theorem deployed_of_run (hdaemon : .daemon ∉ line.flags)
    (hrun : CLI.run m line = .ok (.started rackEnv vertx d)) :
    ∃ file server, m.assignments line.configFile = .ok file ∧
      Server.new (configured m line file) = .ok server ∧ PlatformManager.Reads server d := by
  rw [run_eq hdaemon] at hrun
  obtain ⟨-, -, hrun⟩ := Fallible.bind_eq_ok.mp hrun
  obtain ⟨file, hfile, hrun⟩ := Fallible.bind_eq_ok.mp hrun
  obtain ⟨server, hserver, hrun⟩ := Fallible.bind_eq_ok.mp hrun
  obtain ⟨vertx', -, hrun⟩ := Fallible.bind_eq_ok.mp hrun
  obtain ⟨d', hdeploy, hrun⟩ := Fallible.bind_eq_ok.mp hrun
  obtain ⟨-, -, rfl⟩ := Outcome.started.inj (Fallible.pure_eq_ok.mp hrun)
  exact ⟨file, server, hfile, hserver, PlatformManager.parseOptions_eq_ok hdeploy⟩

/-- The server has what was settled, where it does not make a number of
it and has no default of its own in its place. -/
theorem get_of_server {file : List Assignment} {server : Options} {k : Key}
    (h : Server.new (configured m line file) = .ok server) (hport : k ≠ .port)
    (hrackup : k ≠ .rackup) (hconfig : k ≠ .configFile)
    (hset : (CLI.setupOptions m k).isSome = true ∨ Server.defaults k = none) :
    server.get k = (settled m line file).get k := by
  obtain ⟨-, -, -, hframe⟩ := Server.new_eq_ok h
  have hconfigured : configured m line file k = settled m line file k := by
    rw [configured, Options.set_of_ne hrackup, Options.delete_of_ne hconfig]
  -- where `setup_options` has a value the server's own default is never used
  have hor : (settled m line file k).or (Server.defaults k) = settled m line file k := by
    rcases hset with hset | hset
    · obtain ⟨v, hv⟩ := Option.isSome_iff_exists.mp hset
      rw [settled, hv]
      cases lastSetting line file k <;> rfl
    · rw [hset, Option.or_none]
  rw [Options.get, hframe k hport, hconfigured, hor, Options.get]

/-- **Errors are hidden in production**: a verticle hides them just where
the environment that was settled is `production`. -/
theorem hideErrorStack_iff (hdaemon : .daemon ∉ line.flags)
    (hrun : CLI.run m line = .ok (.started rackEnv vertx d))
    (hstart : JubileeVerticle.start m runtime d = .ok v) :
    ∃ file, m.assignments line.configFile = .ok file ∧
      (v.hideErrorStack = true ↔
        (settled m line file).get .environment = .string "production".toList) := by
  obtain ⟨file, server, hfile, hserver, hreads⟩ := deployed_of_run hdaemon hrun
  obtain ⟨port, -, hstart⟩ := Fallible.bind_eq_ok.mp hstart
  obtain ⟨root, -, hstart⟩ := Fallible.bind_eq_ok.mp hstart
  obtain ⟨rackApplication, -, hstart⟩ := Fallible.bind_eq_ok.mp hstart
  obtain rfl := Fallible.pure_eq_ok.mp hstart
  have henvironment := hreads.environment
  rw [get_of_server (k := .environment) hserver (by decide) (by decide) (by decide)
    (.inl rfl)] at henvironment
  refine ⟨file, hfile, ?_⟩
  rw [hreads.hideErrorStack]
  cases hvalue : (settled m line file).get .environment with
  | string env =>
    rw [hvalue] at henvironment
    obtain rfl : env = d.environment := Except.ok.inj henvironment
    rw [Value.string.injEq]
    by_cases hproduction : d.environment = "production".toList
    · rw [if_pos hproduction]
      exact iff_of_true rfl hproduction
    · rw [if_neg hproduction]
      exact iff_of_false Bool.false_ne_true hproduction
  | nil | bool b | int n | object id =>
    rw [hvalue] at henvironment
    cases henvironment

/-! ## A request that fails -/

section

open RackApplication

variable {σ : Type*} {app : RackApplication σ} {e : Raised} {response t : σ}

/-- What a request raised in the blocking code, and what the response was
then: the application raised, or `respond` did. -/
inductive FailsWith (app : RackApplication σ) (response : σ) :
    Jubilee.Outcome → Bool → Raised → Exchange σ → Prop
  | call (e : Raised) (multiThreaded : Bool) :
    FailsWith app response (.raises e) multiThreaded e ⟨response, []⟩
  | respond {result : AppResult} {e : Raised} {s : Exchange σ} :
    app.respond result ⟨response, []⟩ = (.error e, s) →
      FailsWith app response (.returns result) false e s

/-- What the client is told. -/
def failure (app : RackApplication σ) (e : Raised) : JString :=
  if app.hideErrorStack then "Internal error.".toList
  else "Jubilee caught this error: ".toList ++ app.getMessage e ++ ['\n'] ++ app.printStackTrace e

/-- **What fails is failed**, whichever way. -/
theorem call_of_failsWith {contentLength : Option JString} {io : RackInput.RubyIORackInput}
    (hio : RackInput.RubyIORackInput.new contentLength = .ok io)
    {outcome : Jubilee.Outcome} {multiThreaded : Bool} {s : Exchange σ}
    (h : FailsWith app response outcome multiThreaded e s) :
    app.call contentLength outcome multiThreaded ⟨response, []⟩ = (app.fail e s).2 := by
  cases h with
  | call => exact call_raises hio _ _
  | respond hrespond => exact call_blocking_of_error hio hrespond

theorem response_fail (s : Exchange σ) (ht : app.vertx.setStatusCode 500 s.response = (.ok (), t)) :
    (app.fail e s).2.response = (app.vertx.end_ (some (failure app e)) t).2 := by
  have hset : Exchange.on (app.vertx.setStatusCode 500) s = (.ok (), { s with response := t }) := by
    rw [Exchange.on, ht]
  rw [RackApplication.fail, Act.bind_of_ok hset, failure]
  rfl

/-- **What a client is told of a failure** that reaches `fail`: the text of
its `end` is `Internal error.` just where the environment that was set
last, by a switch or in the file, is `production`, and else it has the
message and the stack. -/
theorem failed_response (hdaemon : .daemon ∉ line.flags)
    (hrun : CLI.run m line = .ok (.started rackEnv vertx d))
    (hstart : JubileeVerticle.start m runtime d = .ok v) (vertxResponse : VertxResponse σ)
    (lineSeparator : Response.LineSeparator) (decoders : Response.Decoders)
    (getMessage printStackTrace : Raised → JString) {contentLength : Option JString}
    {io : RackInput.RubyIORackInput} (hio : RackInput.RubyIORackInput.new contentLength = .ok io)
    {outcome : Jubilee.Outcome} {multiThreaded : Bool} {s : Exchange σ}
    (hfails : FailsWith (v.app vertxResponse lineSeparator decoders getMessage printStackTrace)
      response outcome multiThreaded e s) :
    ∃ file t, m.assignments line.configFile = .ok file ∧
      vertxResponse.setStatusCode 500 s.response = (.ok (), t) ∧
      ((v.app vertxResponse lineSeparator decoders getMessage printStackTrace).call contentLength
          outcome multiThreaded ⟨response, []⟩).response =
        (vertxResponse.end_ (some
          (if (settled m line file).get .environment = .string "production".toList then
            "Internal error.".toList
          else "Jubilee caught this error: ".toList ++ getMessage e ++ ['\n'] ++
            printStackTrace e)) t).2 := by
  obtain ⟨file, hfile, hhidden⟩ := hideErrorStack_iff hdaemon hrun hstart
  obtain ⟨t, ht⟩ := vertxResponse.setStatusCode_500 s.response
  refine ⟨file, t, hfile, ht, ?_⟩
  rw [call_of_failsWith hio hfails, response_fail s ht, failure, Verticle.app]
  simp only [hhidden]

end

/-! ## In production -/

/-- A runtime whose scripts return. -/
def anyRuntime : Runtime Unit := ⟨fun _ => .ok "/srv".toList, fun _ => .ok ()⟩

/-- A file that asks for production, after a switch that asks for
development. -/
def productionFile : Machine := localMachine [.environment (.string "production".toList)]

/-- `-e development -c jubilee.conf.rb`. -/
def developmentLine : CommandLine :=
  .ofFlags [.environment "development".toList, .config "jubilee.conf.rb".toList] []

/-- What they deploy. -/
def hiddenErrors : DeploymentOptions :=
  { noSettings with environment := "production".toList, hideErrorStack := some true }

/-- The verticle that is started with it. -/
def productionVerticle : Verticle Unit :=
  ⟨⟨8080, "0.0.0.0".toList, 10000, false, none⟩, "/srv".toList, (), false, true, none⟩

/-- Its application, on the response that records. -/
def productionApp : RackApplication Sent :=
  productionVerticle.app RackApplication.onRecorder.vertx .lf ⟨bytewise, fun _ _ => []⟩
    (fun _ => "boom".toList) fun _ => []

theorem failed_response_production :
    (productionApp.call none (.raises (.other false)) true ⟨.fresh, []⟩).response =
      (RackApplication.onRecorder.vertx.end_ (some "Internal error.".toList)
        { Sent.fresh with status := 500 }).2 := by
  have hdaemon : .daemon ∉ developmentLine.flags := by
    simp [developmentLine, CommandLine.ofFlags]
  have hrun : CLI.run productionFile developmentLine =
      .ok (.started (.string "development".toList) ⟨6000000000, none⟩ hiddenErrors) := by
    decide +kernel
  have hstart : JubileeVerticle.start productionFile anyRuntime hiddenErrors =
      .ok productionVerticle := rfl
  have hio : RackInput.RubyIORackInput.new none = .ok ⟨0, true⟩ := rfl
  have hfails : FailsWith productionApp Sent.fresh (.raises (.other false)) true
      (.other false) ⟨.fresh, []⟩ := .call _ _
  obtain ⟨file, t, hfile, ht, hresponse⟩ := failed_response hdaemon hrun hstart _ _ _ _ _ hio hfails
  obtain rfl : [(Key.environment, Value.string "production".toList)] = file := Except.ok.inj hfile
  obtain rfl : { Sent.fresh with status := 500 } = t := (Prod.mk.inj ht).2
  exact hresponse

end Startup

end Jubilee
