import Mathlib.Logic.Function.Basic
import Jubilee.Startup.Address
/-!
# Start-up — flags, directives and what is started

`CLI` puts the flags of the command line into a hash of options, a
`Configuration` adds what the directives of a file set, a `Server` adds
what is left, and the platform manager reads the hash when it is made and
when it deploys.
-/

namespace Jubilee

namespace Startup

/-! ## Options -/

/-- The symbols options are kept under. -/
inductive Key
  | debug
  | daemon
  | deamon
  | ssl
  | port
  | host
  | instances
  | quiet
  | environment
  | configFile
  | root
  | sslKeystore
  | sslPassword
  | eventbusPrefix
  | eventbusInbound
  | eventbusOutbound
  | clustered
  | clusterHost
  | clusterPort
  | rackup
  | pid
  | stderrPath
  | stdoutPath
  deriving DecidableEq

/-- The options: a hash. -/
abbrev Options := Key → Option Value

namespace Options

/-- `[]=`. -/
def set (o : Options) (k : Key) (v : Value) : Options := Function.update o k (some v)

/-- `delete`. -/
def delete (o : Options) (k : Key) : Options := Function.update o k none

/-- `[]`. -/
def get (o : Options) (k : Key) : Value := (o k).getD .nil

variable {o : Options} {k k' : Key} {v : Value}

@[simp] theorem set_self : o.set k v k = some v := Function.update_self ..

@[simp] theorem set_of_ne (h : k' ≠ k) : o.set k v k' = o k' := Function.update_of_ne h ..

theorem get_congr {o' : Options} (h : o' k = o k) : o'.get k = o.get k := by rw [get, get, h]

@[simp] theorem delete_of_ne (h : k' ≠ k) : o.delete k k' = o k' := Function.update_of_ne h ..

end Options

namespace Value

/-- `isTrue`. -/
def isTrue : Value → Bool
  | .nil | .bool false => false
  | _ => true

/-- `asJavaString`. -/
def asJavaString : Value → Except Raised JString
  | .string s => .ok s
  | _ => .error .typeError

/-- `RubyNumeric.num2int`. -/
def num2int : Value → Except Raised ℤ
  | .int n => Jubilee.num2int (.int n)
  | _ => .error .typeError

/-- `to_i`, which `nil` has as well. -/
def toI : Value → Except Raised ℤ
  | .nil => .ok 0
  | .int n => .ok n
  | .string s => .ok (Startup.toI s)
  | .bool _ | .object _ => .error (.other false)

/-- An integer is narrowed to itself, or refused. -/
theorem num2int_int_eq_ok {n n' : ℤ} (h : (Value.int n).num2int = .ok n') : n' = n := by
  rw [num2int, Jubilee.num2int] at h
  split at h
  next => exact (Except.ok.inj h).symm
  next => cases h

end Value

/-! ## The directives of a configuration file -/

/-- A line of the file. -/
inductive Directive
  | listen (address : Value)
  | workingDirectory (path : Value)
  | environment (env : Value)
  | eventbus (path inbound outbound : Value)
  | clustering (address : Value)
  | debug (bool : Value)
  | daemonize (bool : Value)
  | ssl (keystore password : Value)
  | pid (path : Value)
  | stderrPath (path : Value)
  | stdoutPath (path : Value)

/-- What the program is started on. -/
structure Machine where
  /-- The property `java.runtime.version`. -/
  javaVersion : JString
  /-- `ENV["RACK_ENV"]`. -/
  rackEnv : Option JString
  socket : Socket
  /-- `File.expand_path`. -/
  expandPath : JString → Except Raised JString
  /-- `File.read`: the lines of the file. -/
  read : JString → Except Raised (List Directive)
  /-- `VertxOptions.setClusterPort`: the port that is set. -/
  setClusterPort : ℤ → Except Raised ℤ
  /-- `HttpServerOptions.setPort`: the port that is set. -/
  setPort : ℤ → Except Raised ℤ
  getDefaultAddress : Option JString

/-- `set_path`. -/
def setPath (o : Options) (var : Key) : Value → Except Raised Options
  | .nil => .ok (o.set var .nil)
  | .string path => .ok (o.set var (.string path))
  | _ => .error argumentError

/-- `set_bool`. -/
def setBool (o : Options) (var : Key) : Value → Except Raised Options
  | .bool bool => .ok (o.set var (.bool bool))
  | _ => .error argumentError

/-- The directives. -/
def Directive.eval (m : Machine) (o : Options) : Directive → Except Raised Options
  | .listen address => do
    let (host, port) ← expandAddr m.socket address
    pure ((o.set .host (.string host)).set .port port)
  | .workingDirectory (.string path) => do
    let path ← m.expandPath path
    pure (o.set .root (.string path))
  | .workingDirectory _ => .error .typeError
  | .environment env => .ok (o.set .environment env)
  | .eventbus path inbound outbound =>
    .ok (((o.set .eventbusPrefix path).set .eventbusInbound inbound).set .eventbusOutbound outbound)
  | .clustering address =>
    -- `:clustered` is not set in either branch
    if address = .bool true then .ok (o.set .clusterHost (.string "0.0.0.0".toList))
    else do
      let (host, port) ← expandAddr m.socket address
      pure ((o.set .clusterHost (.string host)).set .clusterPort port)
  | .debug bool => setBool o .debug bool
  -- `:deamon`, as it is spelt in the source
  | .daemonize bool => setBool o .deamon bool
  | .ssl keystore password => do
    let o ← setPath o .sslKeystore keystore
    pure ((o.set .sslPassword password).set .ssl (.bool true))
  | .pid path => setPath o .pid path
  | .stderrPath path => setPath o .stderrPath path
  | .stdoutPath path => setPath o .stdoutPath path

namespace Configuration

/-- `rackup`. -/
def rackup (o : Options) : Value :=
  if (o.get .rackup).isTrue then o.get .rackup else .string "config.ru".toList

/-- `instance_eval(File.read(config_file), config_file) if config_file`. -/
def evalFile (m : Machine) (configFile : Value) (o : Options) : Except Raised Options :=
  match configFile with
  | .nil | .bool false => .ok o
  | .string path => do
    let directives ← m.read path
    directives.foldlM (Directive.eval m) o
  | _ => .error .typeError

/-- `reload`. -/
def reload (m : Machine) (configFile : Value) (o : Options) : Except Raised Options := do
  let o ← evalFile m configFile o
  pure (o.set .rackup (rackup o))

/-- `Configuration.new`: its options. -/
def new (m : Machine) (o : Options) : Except Raised Options :=
  reload m (o.get .configFile) (o.delete .configFile)

end Configuration

/-! ## The flags of the command line -/

/-- A switch with its argument. -/
inductive Flag
  | config (path : JString)
  | daemon
  | dir (dir : JString)
  | port (port : JString)
  | host (host : JString)
  | environment (env : JString)
  | instances (num : JString)
  | ssl
  | sslKeystore (path : JString)
  | sslPassword (pass : JString)
  | eventbus (path : JString)
  | cluster
  | clusterPort (port : JString)
  | clusterHost (host : JString)
  | verbose
  | quiet

/-- The blocks of `setup_options`. -/
def Flag.apply (o : Options) : Flag → Options
  | .config arg => o.set .configFile (.string arg)
  | .daemon => o.set .daemon (.bool true)
  | .dir arg => o.set .root (.string arg)
  | .port arg => o.set .port (.int (toI arg))
  | .host arg => o.set .host (.string arg)
  | .environment arg => o.set .environment (.string arg)
  | .instances arg => o.set .instances (.int (toI arg))
  | .ssl => o.set .ssl (.bool true)
  | .sslKeystore arg => o.set .sslKeystore (.string arg)
  | .sslPassword arg => o.set .sslPassword (.string arg)
  | .eventbus arg => o.set .eventbusPrefix (.string arg)
  | .cluster => o.set .clustered (.bool true)
  | .clusterPort arg => o.set .clusterPort (.int (toI arg))
  | .clusterHost arg => o.set .clusterHost (.string arg)
  | .verbose => o.set .debug (.bool true)
  | .quiet => o.set .quiet (.bool true)

/-- The words of a command line, the switches `OptionParser` finds in them,
and the words it leaves. -/
structure CommandLine where
  argv : List JString
  flags : List Flag
  rest : List JString
  rest_eq_nil : argv = [] → rest = []

/-- The words of a switch. -/
def Flag.words : Flag → List JString
  | .config arg => ["--config".toList, arg]
  | .daemon => ["--daemon".toList]
  | .dir arg => ["--dir".toList, arg]
  | .port arg => ["--port".toList, arg]
  | .host arg => ["--host".toList, arg]
  | .environment arg => ["--environment".toList, arg]
  | .instances arg => ["--instances".toList, arg]
  | .ssl => ["--ssl".toList]
  | .sslKeystore arg => ["--ssl-keystore".toList, arg]
  | .sslPassword arg => ["--ssl-password".toList, arg]
  | .eventbus arg => ["--eventbus".toList, arg]
  | .cluster => ["--cluster".toList]
  | .clusterPort arg => ["--cluster-port".toList, arg]
  | .clusterHost arg => ["--cluster-host".toList, arg]
  | .verbose => ["--verbose".toList]
  | .quiet => ["--quiet".toList]

/-- The command line with these switches and then these words. -/
def CommandLine.ofFlags (flags : List Flag) (rest : List JString) : CommandLine :=
  ⟨flags.flatMap Flag.words ++ rest, flags, rest, fun h => (List.append_eq_nil_iff.mp h).2⟩

namespace CLI

/-- `setup_options`: the options before the command line is read. -/
def setupOptions (m : Machine) : Options
  | .debug | .daemon | .ssl | .quiet => some (.bool false)
  | .port => some (.int 8080)
  | .instances => some (.int 4)
  | .environment => some (.string (m.rackEnv.getD "development".toList))
  | _ => none

/-- `parse_options`. -/
def parseOptions (line : CommandLine) (o : Options) : Options :=
  let o := line.flags.foldl Flag.apply o
  if line.argv ≠ [] then o.set .rackup ((line.rest.head?).elim .nil .string) else o

/-- `test_java_version!`. It leaves by an exception. -/
def testJavaVersion (version : JString) : Except Raised Unit :=
  if version.take 3 < "1.8".toList then .error (.other false) else .ok ()

end CLI

/-! ## The server -/

namespace Server

/-- The options a server has if they are not given. -/
def defaults : Options
  | .host => some (.string "0.0.0.0".toList)
  | .port => some (.int 8080)
  | .ssl => some (.bool false)
  | .instances => some (.int 1)
  | .environment => some (.string "development".toList)
  | .quiet => some (.bool true)
  | _ => none

/-- `Server.new`: the options the platform manager is made with. -/
def new (opts : Options) : Except Raised Options := do
  let options : Options := fun k => (opts k).or (defaults k)
  if (options.get .ssl).isTrue ∧ options.get .sslKeystore = .nil then .error argumentError
  else do
    let port ← (options.get .port).toI
    pure (options.set .port (.int port))

end Server

/-! ## The platform manager -/

/-- `VertxOptions`, as far as they are set. -/
structure VertxOptions where
  maxEventLoopExecuteTime : ℕ
  /-- The host and the port, if it is clustered. -/
  cluster : Option (Option JString × ℤ)
  deriving DecidableEq

/-- The configuration in `DeploymentOptions`. -/
@[ext] structure DeploymentOptions where
  host : JString
  port : ℤ
  instances : ℤ
  root : Option JString
  rackup : JString
  quiet : Bool
  environment : JString
  hideErrorStack : Option Bool
  keystorePath : Option JString
  keystorePassword : Option JString
  ssl : Bool
  eventBus : Option JString
  deriving DecidableEq

namespace PlatformManager

/-- An option as a string, if there is such an option. -/
def stringOf? (options : Options) (k : Key) : Except Raised (Option JString) :=
  match options k with
  | some v => some <$> v.asJavaString
  | none => pure none

/-- `PlatformManager.new`: the options Vert.x is made with. -/
def new (m : Machine) (options : Options) : Except Raised VertxOptions :=
  if (options.get .clustered).isTrue then do
    let clusterPort ←
      match options .clusterPort with
      | some port => port.num2int
      | none => pure 0
    let clusterHost ← stringOf? options .clusterHost
    let clusterPort ← m.setClusterPort clusterPort
    pure ⟨6000000000, some (clusterHost.or m.getDefaultAddress, clusterPort)⟩
  else pure ⟨6000000000, none⟩

/-- `parseOptions`. -/
def parseOptions (options : Options) : Except Raised DeploymentOptions := do
  let host ← (options.get .host).asJavaString
  let port ← (options.get .port).num2int
  let instances ← (options.get .instances).num2int
  let root ← stringOf? options .root
  let rackup ← (options.get .rackup).asJavaString
  let environment ← (options.get .environment).asJavaString
  let ssl := (options.get .ssl).isTrue
  let keystorePath ←
    (if ssl then some <$> (options.get .sslKeystore).asJavaString else .ok none)
  let keystorePassword ← (if ssl then stringOf? options .sslPassword else .ok none)
  let eventBus ← stringOf? options .eventbusPrefix
  pure {
    host, port, instances, root, rackup, environment, keystorePath, keystorePassword, ssl, eventBus
    quiet := (options.get .quiet).isTrue
    hideErrorStack := if environment = "production".toList then some true else none }

end PlatformManager

/-! ## What is read -/

namespace PlatformManager

variable {options : Options} {k : Key}

theorem stringOf?_congr {options' : Options} (h : options' k = options k) :
    stringOf? options' k = stringOf? options k := by rw [stringOf?, stringOf?, h]

/-- What `parseOptions` reads where. -/
structure Reads (options : Options) (d : DeploymentOptions) : Prop where
  host : (options.get .host).asJavaString = .ok d.host
  port : (options.get .port).num2int = .ok d.port
  instances : (options.get .instances).num2int = .ok d.instances
  root : stringOf? options .root = .ok d.root
  rackup : (options.get .rackup).asJavaString = .ok d.rackup
  environment : (options.get .environment).asJavaString = .ok d.environment
  ssl : d.ssl = (options.get .ssl).isTrue
  keystorePath : (if d.ssl then some <$> (options.get .sslKeystore).asJavaString else .ok none) =
    .ok d.keystorePath
  keystorePassword : (if d.ssl then stringOf? options .sslPassword else .ok none) =
    .ok d.keystorePassword
  eventBus : stringOf? options .eventbusPrefix = .ok d.eventBus
  quiet : d.quiet = (options.get .quiet).isTrue
  hideErrorStack :
    d.hideErrorStack = if d.environment = "production".toList then some true else none

theorem parseOptions_eq_ok {d : DeploymentOptions} (h : parseOptions options = .ok d) :
    Reads options d := by
  obtain ⟨host, hhost, h⟩ := Fallible.bind_eq_ok.mp h
  obtain ⟨port, hport, h⟩ := Fallible.bind_eq_ok.mp h
  obtain ⟨instances, hinstances, h⟩ := Fallible.bind_eq_ok.mp h
  obtain ⟨root, hroot, h⟩ := Fallible.bind_eq_ok.mp h
  obtain ⟨rackup, hrackup, h⟩ := Fallible.bind_eq_ok.mp h
  obtain ⟨environment, henvironment, h⟩ := Fallible.bind_eq_ok.mp h
  obtain ⟨keystorePath, hkeystorePath, h⟩ := Fallible.bind_eq_ok.mp h
  obtain ⟨keystorePassword, hkeystorePassword, h⟩ := Fallible.bind_eq_ok.mp h
  obtain ⟨eventBus, heventBus, h⟩ := Fallible.bind_eq_ok.mp h
  obtain rfl := Fallible.pure_eq_ok.mp h
  exact ⟨hhost, hport, hinstances, hroot, hrackup, henvironment, rfl, hkeystorePath,
    hkeystorePassword, heventBus, rfl, rfl⟩

end PlatformManager

namespace Server

variable {opts options : Options}

/-- A server that is made has the options it is given, the defaults, and a
number for its port. -/
theorem new_eq_ok (h : new opts = .ok options) :
    ∃ port, (((opts .port).or (defaults .port)).getD .nil).toI = .ok port ∧
      options .port = some (.int port) ∧
        ∀ k, k ≠ .port → options k = (opts k).or (defaults k) := by
  unfold new at h
  dsimp only at h
  split at h
  next => cases h
  next =>
    obtain ⟨port, hport, h⟩ := Fallible.bind_eq_ok.mp h
    obtain rfl := Fallible.pure_eq_ok.mp h
    exact ⟨port, hport, Options.set_self, fun k hk => Options.set_of_ne hk⟩

end Server

/-! ## The run -/

/-- What is run, and the environment it is run in. -/
inductive Outcome
  | daemonized (rackEnv : Value) (argv : List JString)
  | started (rackEnv : Value) (vertx : VertxOptions) (deployment : DeploymentOptions)
  deriving DecidableEq

/-- `CLI#run`, until the server is started. -/
def CLI.run (m : Machine) (line : CommandLine) : Except Raised Outcome := do
  testJavaVersion m.javaVersion
  let options := parseOptions line (setupOptions m)
  let rackEnv := options.get .environment
  if (options.get .daemon).isTrue then
    pure (.daemonized rackEnv (line.argv.removeAll ["-d".toList, "--daemon".toList]))
  else do
    let config ← Configuration.new m options
    let server ← Server.new config
    let vertx ← PlatformManager.new m server
    let deployment ← PlatformManager.parseOptions server
    pure (.started rackEnv vertx deployment)

/-- **A run that is accepted** is handed to a daemon or starts a server. -/
theorem CLI.run_eq_ok {m : Machine} {line : CommandLine} {outcome : Outcome}
    (h : run m line = .ok outcome) :
    let options := parseOptions line (setupOptions m)
    ((options.get .daemon).isTrue = true ∧ ∃ rackEnv argv, outcome = .daemonized rackEnv argv) ∨
    ∃ config server vertx deployment rackEnv, Configuration.new m options = .ok config ∧
      Server.new config = .ok server ∧ PlatformManager.new m server = .ok vertx ∧
        PlatformManager.parseOptions server = .ok deployment ∧
          outcome = .started rackEnv vertx deployment := by
  intro options
  obtain ⟨-, -, h⟩ := Fallible.bind_eq_ok.mp h
  dsimp only at h
  split at h
  next hdaemon =>
    obtain rfl := Fallible.pure_eq_ok.mp h
    exact Or.inl ⟨hdaemon, _, _, rfl⟩
  next =>
    obtain ⟨config, hconfig, h⟩ := Fallible.bind_eq_ok.mp h
    obtain ⟨server, hserver, h⟩ := Fallible.bind_eq_ok.mp h
    obtain ⟨vertx, hvertx, h⟩ := Fallible.bind_eq_ok.mp h
    obtain ⟨deployment, hdeployment, h⟩ := Fallible.bind_eq_ok.mp h
    obtain rfl := Fallible.pure_eq_ok.mp h
    exact Or.inr ⟨config, server, vertx, deployment, _, hconfig, hserver, hvertx, hdeployment, rfl⟩

end Startup

end Jubilee
