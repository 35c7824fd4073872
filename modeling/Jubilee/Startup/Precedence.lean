import Jubilee.Common.Assign
import Jubilee.Startup.Settings
/-!
# Start-up — the last setting counts

Switches, the word for the rackup file and directives assign options, one
after the other (`Directive.eval_eq`, `CLI.parseOptions_eq`). Whether a
directive is accepted does not depend on the options. So what is started
depends on the last value that each option was assigned, and on nothing
else of the command line and the file (`run_eq_of_last`).
-/

namespace Jubilee

namespace Startup

/-! ## What is assigned -/

/-- An option and a value for it. -/
abbrev Assignment := Key × Value

/-- The assignment of a switch. -/
def Flag.assignment : Flag → Assignment
  | .config arg => (.configFile, .string arg)
  | .daemon => (.daemon, .bool true)
  | .dir arg => (.root, .string arg)
  | .port arg => (.port, .int (toI arg))
  | .host arg => (.host, .string arg)
  | .environment arg => (.environment, .string arg)
  | .instances arg => (.instances, .int (toI arg))
  | .ssl => (.ssl, .bool true)
  | .sslKeystore arg => (.sslKeystore, .string arg)
  | .sslPassword arg => (.sslPassword, .string arg)
  | .eventbus arg => (.eventbusPrefix, .string arg)
  | .cluster => (.clustered, .bool true)
  | .clusterPort arg => (.clusterPort, .int (toI arg))
  | .clusterHost arg => (.clusterHost, .string arg)
  | .verbose => (.debug, .bool true)
  | .quiet => (.quiet, .bool true)

/-- Those of a command line. -/
def CommandLine.assignments (line : CommandLine) : List Assignment :=
  line.flags.map Flag.assignment ++
    if line.argv ≠ [] then [(.rackup, line.rest.head?.elim .nil .string)] else []

/-- A path, for `set_path`. -/
def pathOf : Value → Except Raised Value
  | .nil => .ok .nil
  | .string path => .ok (.string path)
  | _ => .error argumentError

/-- A Boolean, for `set_bool`. -/
def boolOf : Value → Except Raised Value
  | .bool bool => .ok (.bool bool)
  | _ => .error argumentError

/-- The assignments of a directive, if it is accepted. -/
def Directive.assignments (m : Machine) : Directive → Except Raised (List Assignment)
  | .listen address => do
    let (host, port) ← expandAddr m.socket address
    pure [(.host, .string host), (.port, port)]
  | .workingDirectory (.string path) => do
    let path ← m.expandPath path
    pure [(.root, .string path)]
  | .workingDirectory _ => .error .typeError
  | .environment env => pure [(.environment, env)]
  | .eventbus path inbound outbound =>
    pure [(.eventbusPrefix, path), (.eventbusInbound, inbound), (.eventbusOutbound, outbound)]
  | .clustering address =>
    if address = .bool true then pure [(.clusterHost, .string "0.0.0.0".toList)]
    else do
      let (host, port) ← expandAddr m.socket address
      pure [(.clusterHost, .string host), (.clusterPort, port)]
  | .debug bool => do
    let bool ← boolOf bool
    pure [(.debug, bool)]
  | .daemonize bool => do
    let bool ← boolOf bool
    pure [(.deamon, bool)]
  | .ssl keystore password => do
    let keystore ← pathOf keystore
    pure [(.sslKeystore, keystore), (.sslPassword, password), (.ssl, .bool true)]
  | .pid path => do
    let path ← pathOf path
    pure [(.pid, path)]
  | .stderrPath path => do
    let path ← pathOf path
    pure [(.stderrPath, path)]
  | .stdoutPath path => do
    let path ← pathOf path
    pure [(.stdoutPath, path)]

/-- Those of directives, if all are accepted. -/
def assignmentsOf (m : Machine) : List Directive → Except Raised (List Assignment)
  | [] => .ok []
  | d :: ds => do
    let ws ← d.assignments m
    let rest ← assignmentsOf m ds
    pure (ws ++ rest)

/-- Those of the file that a value names. -/
def Machine.assignments (m : Machine) (configFile : Value) : Except Raised (List Assignment) :=
  match configFile with
  | .nil | .bool false => .ok []
  | .string path => do
    let directives ← m.read path
    assignmentsOf m directives
  | _ => .error .typeError

/-! ## The code assigns them -/

variable {m : Machine} {o : Options}

theorem setPath_eq (var : Key) (path : Value) :
    setPath o var path = (pathOf path).map fun v => o.set var v := by
  cases path <;> rfl

theorem setBool_eq (var : Key) (bool : Value) :
    setBool o var bool = (boolOf bool).map fun v => o.set var v := by
  cases bool <;> rfl

/-- **A directive** assigns what it does whatever the options are. -/
theorem Directive.eval_eq (m : Machine) (o : Options) (d : Directive) :
    d.eval m o = (d.assignments m).map (assign o) := by
  cases d with
  | listen address =>
    rw [eval, assignments]
    cases expandAddr m.socket address <;> rfl
  | workingDirectory path =>
    cases path with
    | string path =>
      rw [eval, assignments]
      cases m.expandPath path <;> rfl
    | nil | bool b | int n | object id => rfl
  | environment env | eventbus path inbound outbound => rfl
  | clustering address =>
    rw [eval, assignments]
    split
    · rfl
    · cases expandAddr m.socket address <;> rfl
  | debug bool | daemonize bool =>
    rw [eval, setBool_eq, assignments]
    cases boolOf bool <;> rfl
  | ssl keystore password =>
    rw [eval, setPath_eq, assignments]
    cases pathOf keystore <;> rfl
  | pid path | stderrPath path | stdoutPath path =>
    rw [eval, setPath_eq, assignments]
    cases pathOf path <;> rfl

theorem foldlM_eval_eq (ds : List Directive) (o : Options) :
    ds.foldlM (Directive.eval m) o = (assignmentsOf m ds).map (assign o) := by
  induction ds generalizing o with
  | nil => rfl
  | cons d ds ih =>
    rw [List.foldlM_cons, Directive.eval_eq, assignmentsOf]
    cases d.assignments m with
    | error e => rfl
    | ok ws =>
      change ds.foldlM (Directive.eval m) (assign o ws) = _
      rw [ih]
      cases assignmentsOf m ds with
      | error e => rfl
      | ok rest => exact congrArg Except.ok assign_append.symm

/-- **A file.** -/
theorem evalFile_eq (configFile : Value) (o : Options) :
    Configuration.evalFile m configFile o = (m.assignments configFile).map (assign o) := by
  cases configFile with
  | string path =>
    rw [Configuration.evalFile, Machine.assignments]
    cases m.read path with
    | error e => rfl
    | ok directives => exact foldlM_eval_eq directives o
  | bool b => cases b <;> rfl
  | nil | int n | object id => rfl

theorem Flag.apply_eq (o : Options) (f : Flag) :
    f.apply o = o.set f.assignment.1 f.assignment.2 := by
  cases f <;> rfl

theorem foldl_apply_eq (flags : List Flag) (o : Options) :
    flags.foldl Flag.apply o = assign o (flags.map Flag.assignment) := by
  induction flags generalizing o with
  | nil => rfl
  | cons f flags ih =>
    rw [List.foldl_cons, ih, Flag.apply_eq]
    rfl

/-- **A command line.** -/
theorem CLI.parseOptions_eq (line : CommandLine) (o : Options) :
    CLI.parseOptions line o = assign o line.assignments := by
  rw [CLI.parseOptions, CommandLine.assignments, assign_append, ← foldl_apply_eq]
  split
  · rfl
  · rfl

/-! ## The configuration -/

variable {line line' : CommandLine} {file file' : List Assignment} {k : Key}

/-- The value of `config_file`. -/
def CommandLine.configFile (line : CommandLine) : Value :=
  (lastTo line.assignments .configFile).getD .nil

/-- The last value that an option was assigned, on the command line and in
the file. -/
def lastSetting (line : CommandLine) (file : List Assignment) : Options :=
  lastTo (line.assignments ++ file)

/-- The options at the end: what was assigned last, and else what
`setup_options` has. -/
def settled (m : Machine) (line : CommandLine) (file : List Assignment) : Options := fun k =>
  (lastSetting line file k).or (CLI.setupOptions m k)

/-- The configuration that they make. -/
def configured (m : Machine) (line : CommandLine) (file : List Assignment) : Options :=
  let o := (settled m line file).delete .configFile
  o.set .rackup (Configuration.rackup o)

/-- No directive sets `config_file`. -/
theorem Directive.assignments_ne {d : Directive} {ws : List Assignment}
    (h : d.assignments m = .ok ws) : ∀ w ∈ ws, w.1 ≠ .configFile ∧ w.1 ≠ .daemon := by
  cases d with
  | listen address =>
    obtain ⟨⟨host, port⟩, -, h⟩ := Fallible.bind_eq_ok.mp h
    obtain rfl := Fallible.pure_eq_ok.mp h
    simp
  | workingDirectory path =>
    cases path with
    | string path =>
      obtain ⟨path, -, h⟩ := Fallible.bind_eq_ok.mp h
      obtain rfl := Fallible.pure_eq_ok.mp h
      simp
    | nil | bool b | int n | object id => cases h
  | environment env | eventbus path inbound outbound =>
    obtain rfl := Except.ok.inj h
    simp
  | clustering address =>
    rw [assignments] at h
    split at h
    · obtain rfl := Except.ok.inj h
      simp
    · obtain ⟨⟨host, port⟩, -, h⟩ := Fallible.bind_eq_ok.mp h
      obtain rfl := Fallible.pure_eq_ok.mp h
      simp
  | debug v | daemonize v | ssl v password | pid v | stderrPath v | stdoutPath v =>
    obtain ⟨v, -, h⟩ := Fallible.bind_eq_ok.mp h
    obtain rfl := Fallible.pure_eq_ok.mp h
    simp

theorem assignmentsOf_ne {ds : List Directive} (h : assignmentsOf m ds = .ok file) :
    ∀ w ∈ file, w.1 ≠ .configFile ∧ w.1 ≠ .daemon := by
  induction ds generalizing file with
  | nil =>
    obtain rfl := Except.ok.inj h
    simp
  | cons d ds ih =>
    obtain ⟨ws, hws, h⟩ := Fallible.bind_eq_ok.mp h
    obtain ⟨rest, hrest, h⟩ := Fallible.bind_eq_ok.mp h
    obtain rfl := Fallible.pure_eq_ok.mp h
    exact List.forall_mem_append.mpr ⟨Directive.assignments_ne hws, ih hrest⟩

theorem file_ne {configFile : Value} (h : m.assignments configFile = .ok file) :
    ∀ w ∈ file, w.1 ≠ .configFile ∧ w.1 ≠ .daemon := by
  cases configFile with
  | string path =>
    obtain ⟨directives, -, h⟩ := Fallible.bind_eq_ok.mp h
    exact assignmentsOf_ne h
  | bool b =>
    cases b with
    | false =>
      obtain rfl := Except.ok.inj h
      simp
    | true => cases h
  | nil =>
    obtain rfl := Except.ok.inj h
    simp
  | int n | object id => cases h

theorem parseOptions_apply (k : Key) :
    CLI.parseOptions line (CLI.setupOptions m) k =
      (lastTo line.assignments k).or (CLI.setupOptions m k) := by
  rw [CLI.parseOptions_eq, assign_apply]

/-- **The options in the end**, but for the one that is taken out first. -/
theorem assign_parseOptions (hfile : ∀ w ∈ file, w.1 ≠ .configFile ∧ w.1 ≠ .daemon) :
    assign ((CLI.parseOptions line (CLI.setupOptions m)).delete .configFile) file =
      (settled m line file).delete .configFile := by
  funext k
  rw [assign_apply]
  by_cases hk : k = .configFile
  · -- deleted, and no directive sets it again
    subst hk
    rw [lastTo_eq_none fun w hw => (hfile w hw).1]
    simp [Options.delete]
  · rw [Options.delete_of_ne hk, Options.delete_of_ne hk, parseOptions_apply, settled, lastSetting,
      lastTo_append, Option.or_assoc]

/-- **The configuration** is made of the last settings, if the file is
accepted. -/
theorem Configuration.new_eq (m : Machine) (line : CommandLine) :
    Configuration.new m (CLI.parseOptions line (CLI.setupOptions m)) =
      (m.assignments line.configFile).map (configured m line) := by
  have hconfigFile : (CLI.parseOptions line (CLI.setupOptions m)).get .configFile =
      line.configFile := by
    rw [Options.get, parseOptions_apply, CommandLine.configFile]
    exact congrArg (Option.getD · _) Option.or_none
  rw [Configuration.new, Configuration.reload, hconfigFile, evalFile_eq]
  cases hfile : m.assignments line.configFile with
  | error e => rfl
  | ok file =>
    have hassign : assign ((CLI.parseOptions line (CLI.setupOptions m)).delete .configFile) file =
        (settled m line file).delete .configFile := assign_parseOptions (file_ne hfile)
    change Except.ok
      (Options.set (assign _ file) .rackup (Configuration.rackup (assign _ file))) = _
    rw [hassign]
    rfl

/-! ## The run -/

/-- No `--daemon`, no daemon. -/
theorem daemon_parseOptions (h : .daemon ∉ line.flags) :
    (CLI.parseOptions line (CLI.setupOptions m)).get .daemon = .bool false := by
  have hnone : lastTo line.assignments .daemon = none := by
    refine lastTo_eq_none fun w hw => ?_
    rcases List.mem_append.mp hw with hw | hw
    · obtain ⟨f, hf, rfl⟩ := List.mem_map.mp hw
      cases f with
      | daemon => exact absurd hf h
      | _ => simp [Flag.assignment]
    · split at hw
      · obtain rfl := List.mem_singleton.mp hw
        simp
      · cases hw
  rw [Options.get, parseOptions_apply, hnone]
  rfl

/-- What a run makes of a configuration. -/
def launch (m : Machine) (rackEnv : Value) (config : Options) : Except Raised Outcome := do
  let server ← Server.new config
  let vertx ← PlatformManager.new m server
  let deployment ← PlatformManager.parseOptions server
  pure (.started rackEnv vertx deployment)

/-- **A run that asks for no daemon** launches what was settled. -/
theorem run_eq (h : .daemon ∉ line.flags) :
    CLI.run m line = (do
      CLI.testJavaVersion m.javaVersion
      let file ← m.assignments line.configFile
      launch m ((settled m line []).get .environment) (configured m line file)) := by
  have henvironment : (CLI.parseOptions line (CLI.setupOptions m)).get .environment =
      (settled m line []).get .environment := by
    rw [Options.get, parseOptions_apply, Options.get, settled, lastSetting, List.append_nil]
  rw [CLI.run]
  dsimp only
  rw [daemon_parseOptions h, henvironment, Configuration.new_eq]
  cases CLI.testJavaVersion m.javaVersion with
  | error e => rfl
  | ok v =>
    cases m.assignments line.configFile with
    | error e => rfl
    | ok file => rfl

/-- What is settled but for `config_file` settles the configuration. -/
theorem configured_congr
    (h : ∀ k, k ≠ .configFile → lastSetting line' file' k = lastSetting line file k) :
    configured m line' file' = configured m line file := by
  have hsettled : (settled m line' file').delete .configFile =
      (settled m line file).delete .configFile := by
    funext k
    by_cases hk : k = .configFile
    · simp [hk, Options.delete]
    · rw [Options.delete_of_ne hk, Options.delete_of_ne hk, settled, settled, h k hk]
  rw [configured, configured, hsettled]

/-- **The last setting counts**: runs without a daemon whose files are
accepted are the same where each option was assigned the same value last,
and the environment by the same switch. -/
theorem run_eq_of_last (hdaemon : .daemon ∉ line.flags) (hdaemon' : .daemon ∉ line'.flags)
    (hfile : m.assignments line.configFile = .ok file)
    (hfile' : m.assignments line'.configFile = .ok file')
    (henvironment : lastSetting line' [] .environment = lastSetting line [] .environment)
    (hlast : ∀ k, k ≠ .configFile → lastSetting line' file' k = lastSetting line file k) :
    CLI.run m line' = CLI.run m line := by
  rw [run_eq hdaemon, run_eq hdaemon', hfile, hfile', Options.get, Options.get, settled, settled,
    henvironment]
  have hconfigured := configured_congr (m := m) hlast
  cases CLI.testJavaVersion m.javaVersion with
  | error e => rfl
  | ok v => exact congrArg (launch m _) hconfigured

/-- A file that says `listen 3000`. -/
def listenFile : Machine := localMachine [.listen (.int 3000)]

/-- `--host example.org -c jubilee.conf.rb`. -/
def hostLine : CommandLine :=
  .ofFlags [.host "example.org".toList, .config "jubilee.conf.rb".toList] []

/-- `-c jubilee.conf.rb --port 1`. -/
def portLine : CommandLine := .ofFlags [.config "jubilee.conf.rb".toList, .port "1".toList] []

/-- The file comes after every switch, also after those behind `-c`. -/
theorem run_eq_of_last_listen : CLI.run listenFile hostLine = CLI.run listenFile portLine := by
  have hdaemon : .daemon ∉ portLine.flags := by simp [portLine, CommandLine.ofFlags]
  have hdaemon' : .daemon ∉ hostLine.flags := by simp [hostLine, CommandLine.ofFlags]
  have hfile : ∀ line ∈ [hostLine, portLine], listenFile.assignments line.configFile =
      .ok [(.host, .string "0.0.0.0".toList), (.port, .int 3000)] := by
    decide +kernel
  have hlast : ∀ k, k ≠ .configFile →
      lastSetting hostLine [(.host, .string "0.0.0.0".toList), (.port, .int 3000)] k =
        lastSetting portLine [(.host, .string "0.0.0.0".toList), (.port, .int 3000)] k := by
    intro k _
    cases k <;> rfl
  exact run_eq_of_last hdaemon hdaemon' (hfile _ (by simp)) (hfile _ (by simp)) rfl hlast

end Startup

end Jubilee
