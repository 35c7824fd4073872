import Jubilee.Startup.Configuration
/-!
# Start-up — settings that can be written both ways

A setting has flags and has a directive. `settings_agree` follows a
sequence of settings down both ways, through `CLI`, `Configuration`,
`Server` and the platform manager, to what Vert.x is made with and what is
deployed.
-/

namespace Jubilee

namespace Startup

/-! ## Settings -/

/-- An address that can be written both ways. -/
inductive Address
  /-- A port alone, which the directive is given as an Integer. -/
  | integer (text : JString)
  /-- A port alone, as a string, which may start with `*:`. -/
  | port (text : JString) (isPort : IsPort text) (star : Bool)
  /-- A host with a port. The host may be written in brackets. -/
  | hostPort (name text : JString) (isPort : IsPort text) (brackets : Bool)

namespace Address

/-- The host, for a flag. -/
def host : Address → JString
  | .integer _ | .port .. => "0.0.0.0".toList
  | .hostPort name .. => name

/-- The port, for a flag. -/
def portText : Address → JString
  | .integer text | .port text .. | .hostPort _ text .. => text

/-- The whole, for a directive. -/
def value : Address → Value
  | .integer text => .int (toI text)
  | .port text _ star => .string (if star then '*' :: ':' :: text else text)
  | .hostPort name text _ brackets =>
    .string ((if brackets then '[' :: name ++ [']'] else name) ++ ':' :: text)

end Address

/-- A setting. -/
inductive Setting
  | address (address : Address)
  | workingDirectory (dir : JString)
  | environment (env : JString)
  | ssl (keystore password : JString)
  | eventbus (path : JString)
  | clustering (address : Option Address)
  | daemon
  | debug

namespace Setting

/-- Its flags. -/
def flags : Setting → List Flag
  | .address a => [.host a.host, .port a.portText]
  | .workingDirectory dir => [.dir dir]
  | .environment env => [.environment env]
  | .ssl keystore password => [.sslKeystore keystore, .sslPassword password, .ssl]
  | .eventbus path => [.eventbus path]
  | .clustering none => [.cluster, .clusterHost "0.0.0.0".toList]
  | .clustering (some a) => [.cluster, .clusterHost a.host, .clusterPort a.portText]
  | .daemon => [.daemon]
  | .debug => [.verbose]

/-- Its directive. -/
def directive : Setting → Directive
  | .address a => .listen a.value
  | .workingDirectory dir => .workingDirectory (.string dir)
  | .environment env => .environment (.string env)
  | .ssl keystore password => .ssl (.string keystore) (.string password)
  | .eventbus path => .eventbus (.string path) .nil .nil
  | .clustering none => .clustering (.bool true)
  | .clustering (some a) => .clustering a.value
  | .daemon => .daemonize (.bool true)
  | .debug => .debug (.bool true)

end Setting

/-! ## What the two ways have in common -/

/-- The options, by how far the two ways agree on them. -/
inductive Part
  | shared
  | address
  | root
  | cluster
  | fixed
  | unread

/-- The part an option belongs to. -/
def Key.part : Key → Part
  | .debug | .ssl | .instances | .quiet | .environment | .sslKeystore | .sslPassword
  | .eventbusPrefix => .shared
  | .host | .port => .address
  | .root => .root
  | .clustered | .clusterHost | .clusterPort => .cluster
  | .daemon | .configFile | .rackup => .fixed
  | .deamon | .eventbusInbound | .eventbusOutbound | .pid | .stderrPath | .stdoutPath => .unread

variable (m : Machine) (settings : List Setting)

/-- The address of the second is what that of the first expands to. -/
def Expanded (host port host' port' : Option Value) : Prop :=
  ∃ a h p, .address a ∈ settings ∧ host = some (.string a.host) ∧
    port = some (.int (toI a.portText)) ∧ expandAddr m.socket a.value = .ok (h, p) ∧
      host' = some (.string h) ∧ port' = some p

/-- The options agree on one part. Those that are fixed are as they were at
the start. -/
def AgreeOn (start start' o o' : Options) : Part → Prop
  | .shared => ∀ k, k.part = .shared → o' k = o k
  | .address => ((∀ a, .address a ∉ settings) ∧ o' .host = o .host ∧ o' .port = o .port) ∨
    Expanded m settings (o .host) (o .port) (o' .host) (o' .port)
  | .root => (o .root = none ∧ o' .root = none) ∨ ∃ dir dir', o .root = some (.string dir) ∧
    m.expandPath dir = .ok dir' ∧ o' .root = some (.string dir')
  | .cluster => (∀ a, .clustering a ∉ settings) → ∀ k, k.part = .cluster → o' k = o k
  | .fixed => ∀ k, k.part = .fixed → o k = start k ∧ o' k = start' k
  | .unread => True

/-- They agree on every part. -/
def Agree (start start' o o' : Options) : Prop := ∀ part, AgreeOn m settings start start' o o' part

variable {m settings} {start start' o o' o₁ o₁' : Options} {k k' : Key} {v v' : Value}

/-! ## One option is set -/

theorem Options.set_of_part (h : k'.part ≠ k.part) : o.set k v k' = o k' :=
  Options.set_of_ne fun heq => h (congrArg Key.part heq)

/-- What both set to one value they agree on. -/
theorem Options.set_eq_set (h : o' k' = o k') : o'.set k v k' = o.set k v k' := by
  by_cases hk : k' = k
  · rw [hk, Options.set_self, Options.set_self]
  · rw [Options.set_of_ne hk, Options.set_of_ne hk, h]

/-- Whether they agree on a part depends on the options of that part. -/
theorem AgreeOn.congr {part : Part} (h : AgreeOn m settings start start' o o' part)
    (hframe : ∀ k, k.part = part → o₁ k = o k ∧ o₁' k = o' k) :
    AgreeOn m settings start start' o₁ o₁' part := by
  cases part with
  | shared =>
    intro k hk
    rw [(hframe k hk).1, (hframe k hk).2]
    exact h k hk
  | address =>
    obtain ⟨hhost, hhost'⟩ := hframe .host rfl
    obtain ⟨hport, hport'⟩ := hframe .port rfl
    unfold AgreeOn
    rw [hhost, hhost', hport, hport']
    exact h
  | root =>
    obtain ⟨hroot, hroot'⟩ := hframe .root rfl
    unfold AgreeOn
    rw [hroot, hroot']
    exact h
  | cluster =>
    intro hcluster k hk
    rw [(hframe k hk).1, (hframe k hk).2]
    exact h hcluster k hk
  | fixed =>
    intro k hk
    rw [(hframe k hk).1, (hframe k hk).2]
    exact h k hk
  | unread => trivial

/-- The start counts for what is fixed only. -/
theorem AgreeOn.restart {part : Part} {start₁ start₁' : Options}
    (h : AgreeOn m settings start start' o o' part) (hpart : part ≠ .fixed) :
    AgreeOn m settings start₁ start₁' o o' part := by
  cases part with
  | shared | address | root | cluster | unread => exact h
  | fixed => exact absurd rfl hpart

/-- One more setting leaves a part as it is, the address if it is none. -/
theorem AgreeOn.more {part : Part} {s : Setting}
    (h : AgreeOn m settings start start' o o' part)
    (hs : part ≠ .address ∨ ∀ a, s ≠ .address a) :
    AgreeOn m (settings ++ [s]) start start' o o' part := by
  cases part with
  | shared | root | fixed | unread => exact h
  | cluster => exact fun hnone => h fun a ha => hnone a (List.mem_append_left _ ha)
  | address =>
    have hs := hs.resolve_left (not_not.mpr rfl)
    refine h.imp (fun h => ⟨fun a ha => ?_, h.2⟩) ?_
    · rcases List.mem_append.mp ha with ha | ha
      · exact h.1 a ha
      · exact hs a (List.mem_singleton.mp ha).symm
    · rintro ⟨a, host, port, ha, hrest⟩
      exact ⟨a, host, port, List.mem_append_left _ ha, hrest⟩

/-- **A step that changes one part** has that part to answer for. -/
theorem agree_of_part {part : Part}
    (h : ∀ part', part' ≠ part → AgreeOn m settings start start' o o' part')
    (hframe : ∀ k, k.part ≠ part → o₁ k = o k ∧ o₁' k = o' k)
    (hpart : AgreeOn m settings start start' o₁ o₁' part) :
    Agree m settings start start' o₁ o₁' := by
  intro part'
  by_cases heq : part' = part
  · exact heq ▸ hpart
  · exact (h part' heq).congr fun k hk => hframe k (hk ▸ heq)

theorem Agree.update (h : Agree m settings start start' o o') {part : Part}
    (hframe : ∀ k, k.part ≠ part → o₁ k = o k ∧ o₁' k = o' k)
    (hpart : AgreeOn m settings start start' o₁ o₁' part) :
    Agree m settings start start' o₁ o₁' := agree_of_part (fun part' _ => h part') hframe hpart

/-- A shared option may be set on both sides. -/
theorem Agree.set_both (h : Agree m settings start start' o o') (hk : k.part = .shared) :
    Agree m settings start start' (o.set k v) (o'.set k v) := by
  have hframe : ∀ (o : Options) (k' : Key), k'.part ≠ .shared → o.set k v k' = o k' :=
    fun o k' hk' => Options.set_of_part (hk ▸ hk')
  have hpart : AgreeOn m settings start start' (o.set k v) (o'.set k v) .shared := fun k' hk' =>
    Options.set_eq_set (h .shared k' hk')
  exact h.update (fun k' hk' => ⟨hframe o k' hk', hframe o' k' hk'⟩) hpart

/-- An option that is not read may be set on one side. -/
theorem Agree.set_unread (h : Agree m settings start start' o o') (hk : k.part = .unread) :
    Agree m settings start start' o (o'.set k v) := by
  have hpart : AgreeOn m settings start start' o (o'.set k v) .unread := trivial
  exact h.update (fun k' hk' => ⟨rfl, Options.set_of_part (hk ▸ hk')⟩) hpart

/-! ## One setting -/

/-- `clustering` sets what belongs to the cluster. -/
theorem eval_clustering {address : Value}
    (h : (Directive.clustering address).eval m o = .ok o₁) (hk : k.part ≠ .cluster) :
    o₁ k = o k := by
  rw [Directive.eval] at h
  split at h
  next =>
    obtain rfl := Except.ok.inj h
    exact Options.set_of_part hk
  next =>
    obtain ⟨⟨host, port⟩, -, h⟩ := Fallible.bind_eq_ok.mp h
    obtain rfl := Fallible.pure_eq_ok.mp h
    exact (Options.set_of_part hk).trans (Options.set_of_part hk)

/-- **What one setting keeps**, written both ways. -/
theorem agree_setting {s : Setting} (hdaemon : s ≠ .daemon)
    (h : Agree m settings start start' o o') (hok : s.directive.eval m o' = .ok o₁') :
    Agree m (settings ++ [s]) start start' (s.flags.foldl Flag.apply o) o₁' := by
  have hs : s ∈ settings ++ [s] := List.mem_append_right _ (List.mem_singleton.mpr rfl)
  have hmore : (∀ a, s ≠ .address a) → Agree m (settings ++ [s]) start start' o o' :=
    fun hne part => (h part).more (.inr hne)
  cases s with
  | address a =>
    -- host and port are set together, whatever they were
    obtain ⟨⟨host', port'⟩, hexpand, hok⟩ := Fallible.bind_eq_ok.mp hok
    obtain rfl := Fallible.pure_eq_ok.mp hok
    have hpart : AgreeOn m (settings ++ [.address a]) start start'
        ((o.set .host (.string a.host)).set .port (.int (toI a.portText)))
        ((o'.set .host (.string host')).set .port port') .address :=
      Or.inr ⟨a, host', port', hs, by simp, by simp, hexpand, by simp, by simp⟩
    exact agree_of_part (fun part hne => (h part).more (.inl hne))
      (fun k hk => ⟨(Options.set_of_part hk).trans (Options.set_of_part hk),
        (Options.set_of_part hk).trans (Options.set_of_part hk)⟩) hpart
  | workingDirectory dir =>
    obtain ⟨dir', hexpand, hok⟩ := Fallible.bind_eq_ok.mp hok
    obtain rfl := Fallible.pure_eq_ok.mp hok
    have hpart : AgreeOn m (settings ++ [.workingDirectory dir]) start start'
        (o.set .root (.string dir)) (o'.set .root (.string dir')) .root :=
      Or.inr ⟨dir, dir', Options.set_self, hexpand, Options.set_self⟩
    exact (hmore nofun).update
      (fun k hk => ⟨Options.set_of_part hk, Options.set_of_part hk⟩) hpart
  | environment env =>
    obtain rfl := Except.ok.inj hok
    exact (hmore nofun).set_both rfl
  | ssl keystore password =>
    -- the flags are written in the order in which the directive sets the three
    obtain rfl := Fallible.pure_eq_ok.mp hok
    exact Agree.set_both (Agree.set_both (Agree.set_both (hmore nofun) rfl) rfl) rfl
  | eventbus path =>
    -- the two filters are set by the directive only
    obtain rfl := Except.ok.inj hok
    exact Agree.set_unread (Agree.set_unread (Agree.set_both (hmore nofun) rfl) rfl) rfl
  | clustering a =>
    -- only the first way says that it is clustered
    have hpart : ∀ o₁ : Options,
        AgreeOn m (settings ++ [.clustering a]) start start' o₁ o₁' .cluster :=
      fun o₁ hnone => absurd hs (hnone a)
    cases a with
    | none =>
      exact (hmore nofun).update
        (fun k hk => ⟨(Options.set_of_part hk).trans (Options.set_of_part hk),
          eval_clustering hok hk⟩) (hpart _)
    | some a =>
      refine (hmore nofun).update (fun k hk => ⟨?_, eval_clustering hok hk⟩) (hpart _)
      exact ((Options.set_of_part hk).trans (Options.set_of_part hk)).trans
        (Options.set_of_part hk)
  | daemon => exact absurd rfl hdaemon
  | debug =>
    obtain rfl := Except.ok.inj hok
    exact (hmore nofun).set_both rfl

/-- **What a sequence of settings keeps.** -/
theorem agree_settings (hdaemon : .daemon ∉ settings) {start start' : Options}
    (h : Agree m [] start start' o o')
    (hok : (settings.map Setting.directive).foldlM (Directive.eval m) o' = .ok o₁') :
    Agree m settings start start' ((settings.flatMap Setting.flags).foldl Flag.apply o) o₁' := by
  refine Fallible.foldlM_related (R := fun done => Agree m done start start')
    (fun done s hs o o' o₁' h hok => ?_) h hok
  have hne : s ≠ .daemon := by
    rintro rfl
    exact hdaemon hs
  exact agree_setting hne h hok

/-! ## From the command line to the configuration -/

/-- Before any setting they agree. -/
theorem agree_start (hstart : ∀ k, k.part ≠ .fixed → start' k = start k)
    (hroot : start .root = none) : Agree m [] start start' start start' := by
  intro part
  cases part with
  | shared => exact fun k hk => hstart k (by simp [hk])
  | address =>
    exact Or.inl ⟨nofun, hstart .host (by simp [Key.part]), hstart .port (by simp [Key.part])⟩
  | root => exact Or.inl ⟨hroot, (hstart .root (by simp [Key.part])).trans hroot⟩
  | cluster => exact fun _ k hk => hstart k (by simp [hk])
  | fixed => exact fun k _ => ⟨rfl, rfl⟩
  | unread => trivial

/-- What `parse_options` notes besides the flags. -/
theorem rackup_parseOptions (line : CommandLine)
    (h : (line.flags.foldl Flag.apply o) .rackup = none) :
    Configuration.rackup (CLI.parseOptions line o) =
      line.rest.head?.elim (.string "config.ru".toList) .string := by
  unfold CLI.parseOptions
  dsimp only
  by_cases hargv : line.argv = []
  · rw [if_neg (not_not.mpr hargv), line.rest_eq_nil hargv, Configuration.rackup, Options.get, h]
    rfl
  · rw [if_pos hargv, Configuration.rackup, Options.get, Options.set_self]
    cases line.rest.head? with
    | none => rfl
    | some rest => rfl

theorem parseOptions_of_ne (line : CommandLine) (hk : k ≠ .rackup) :
    CLI.parseOptions line o k = (line.flags.foldl Flag.apply o) k := by
  unfold CLI.parseOptions
  split
  next => exact Options.set_of_ne hk
  next => rfl

theorem rackup_congr (h : o' .rackup = o .rackup) :
    Configuration.rackup o' = Configuration.rackup o := by
  rw [Configuration.rackup, Configuration.rackup, Options.get_congr h]

/-- Without a file nothing but the rackup is added. -/
theorem new_of_none (h : o .configFile = none) (hok : Configuration.new m o = .ok o₁) :
    o₁ .rackup = some (Configuration.rackup o) ∧ ∀ k, k.part ≠ .fixed → o₁ k = o k := by
  rw [Configuration.new, Options.get, h] at hok
  obtain rfl := Except.ok.inj hok
  refine ⟨?_, fun k hk => (Options.set_of_part hk).trans (Options.delete_of_ne ?_)⟩
  · rw [Options.set_self, rackup_congr (Options.delete_of_ne (by decide))]
  · rintro rfl
    exact hk rfl

/-- With one its directives are. -/
theorem new_of_path {path : JString} {directives : List Directive}
    (h : o .configFile = some (.string path)) (hread : m.read path = .ok directives)
    (hok : Configuration.new m o = .ok o₁) :
    ∃ o₂, directives.foldlM (Directive.eval m) (o.delete .configFile) = .ok o₂ ∧
      o₁ .rackup = some (Configuration.rackup o₂) ∧ ∀ k, k.part ≠ .fixed → o₁ k = o₂ k := by
  rw [Configuration.new, Options.get, h] at hok
  obtain ⟨o₂, hfold, hok⟩ := Fallible.bind_eq_ok.mp hok
  obtain rfl := Fallible.pure_eq_ok.mp hok
  obtain ⟨directives', hread', hfold⟩ := Fallible.bind_eq_ok.mp hfold
  obtain rfl := Except.ok.inj (hread'.symm.trans hread)
  exact ⟨o₂, hfold, Options.set_self, fun k hk => Options.set_of_part hk⟩

variable {line line' : CommandLine} {path : JString} {c c' s s' : Options}

/-- A command line that names a file, and no more, sets what is fixed. -/
theorem parseOptions_of_path (hpath : line.flags = [.config path]) :
    CLI.parseOptions line o .configFile = some (.string path) ∧
      ∀ k, k.part ≠ .fixed → CLI.parseOptions line o k = o k := by
  have hfile : line.flags.foldl Flag.apply o = o.set .configFile (.string path) := by
    rw [hpath]
    rfl
  constructor
  · rw [parseOptions_of_ne line (by decide), hfile, Options.set_self]
  · intro k hk
    have hrackup : k ≠ .rackup := by
      rintro rfl
      exact hk rfl
    rw [parseOptions_of_ne line hrackup, hfile, Options.set_of_part hk]

/-- The file is run from there. -/
theorem agree_file (hdaemon : .daemon ∉ settings) (hpath : line.flags = [.config path])
    (hread : m.read path = .ok (settings.map Setting.directive))
    (hnew : Configuration.new m (CLI.parseOptions line (CLI.setupOptions m)) = .ok c) :
    ∃ o, Agree m settings (CLI.setupOptions m)
        ((CLI.parseOptions line (CLI.setupOptions m)).delete .configFile)
        ((settings.flatMap Setting.flags).foldl Flag.apply (CLI.setupOptions m)) o ∧
      c .rackup = some (Configuration.rackup o) ∧ ∀ k, k.part ≠ .fixed → c k = o k := by
  obtain ⟨hconfigFile, hframe⟩ := parseOptions_of_path (o := CLI.setupOptions m) hpath
  obtain ⟨o, hfold, hrackup, hframe'⟩ := new_of_path hconfigFile hread hnew
  refine ⟨o, agree_settings hdaemon (agree_start (fun k hk => ?_) rfl) hfold, hrackup, hframe'⟩
  have hne : k ≠ .configFile := by
    rintro rfl
    exact hk rfl
  rw [Options.delete_of_ne hne, hframe k hk]

/-- **The two configurations agree**, and on the rackup as well. -/
theorem agree_config (hdaemon : .daemon ∉ settings)
    (hflags : line.flags = settings.flatMap Setting.flags) (hpath : line'.flags = [.config path])
    (hrest : line'.rest = line.rest) (hread : m.read path = .ok (settings.map Setting.directive))
    (hnew : Configuration.new m (CLI.parseOptions line (CLI.setupOptions m)) = .ok c)
    (hnew' : Configuration.new m (CLI.parseOptions line' (CLI.setupOptions m)) = .ok c') :
    Agree m settings c c' c c' ∧ c' .rackup = c .rackup := by
  obtain ⟨o', hagree, hrackup', hframe'⟩ := agree_file hdaemon hpath hread hnew'
  rw [← hflags] at hagree
  have hnone : CLI.parseOptions line (CLI.setupOptions m) .configFile = none := by
    rw [parseOptions_of_ne line (by decide), (hagree .fixed .configFile rfl).1]
    rfl
  obtain ⟨hrackup, hframe⟩ := new_of_none hnone hnew
  refine ⟨fun part => ?_, ?_⟩
  · by_cases hpart : part = .fixed
    · rw [hpart]
      exact fun k _ => ⟨rfl, rfl⟩
    · refine ((hagree part).congr fun k hk => ?_).restart hpart
      have hk' : k.part ≠ .fixed := hk ▸ hpart
      refine ⟨(hframe k hk').trans (parseOptions_of_ne line ?_), hframe' k hk'⟩
      rintro rfl
      exact hk' rfl
  · -- no directive and no switch sets it, so it is what the words say
    have hrackup₁ : Configuration.rackup (CLI.parseOptions line (CLI.setupOptions m)) =
        line.rest.head?.elim (.string "config.ru".toList) .string :=
      rackup_parseOptions line (hagree .fixed .rackup rfl).1
    have hrackup₂ : Configuration.rackup (CLI.parseOptions line' (CLI.setupOptions m)) =
        line'.rest.head?.elim (.string "config.ru".toList) .string :=
      rackup_parseOptions line' (by rw [hpath]; rfl)
    have hfixed : o' .rackup = CLI.parseOptions line' (CLI.setupOptions m) .rackup :=
      (hagree .fixed .rackup rfl).2.trans (Options.delete_of_ne (by decide))
    rw [hrackup', hrackup, rackup_congr hfixed, hrackup₁, hrackup₂, hrest]

/-! ## From the configuration to the server -/

/-- Servers made of configurations that agree do too, but for the address,
which they read. -/
theorem agreeOn_server {part : Part} (hpart : part ≠ .address)
    (h : Agree m settings c c' c c') (hserver : Server.new c = .ok s)
    (hserver' : Server.new c' = .ok s') : AgreeOn m settings s s' s s' part := by
  obtain ⟨-, -, -, hframe⟩ := Server.new_eq_ok hserver
  obtain ⟨-, -, -, hframe'⟩ := Server.new_eq_ok hserver'
  have hne : ∀ {k : Key}, k.part = part → k ≠ .port := by
    rintro k hk rfl
    exact hpart hk.symm
  cases part with
  | shared =>
    intro k hk
    rw [hframe k (hne hk), hframe' k (hne hk), h .shared k hk]
  | address => exact absurd rfl hpart
  | root =>
    refine (h .root).imp ?_ ?_
    · rintro ⟨hroot, hroot'⟩
      rw [hframe .root (hne rfl), hframe' .root (hne rfl), hroot, hroot']
      exact ⟨rfl, rfl⟩
    · rintro ⟨dir, dir', hroot, hexpand, hroot'⟩
      rw [hframe .root (hne rfl), hframe' .root (hne rfl), hroot, hroot']
      exact ⟨dir, dir', rfl, hexpand, rfl⟩
  | cluster =>
    intro hnone k hk
    rw [hframe k (hne hk), hframe' k (hne hk), h .cluster hnone k hk]
  | fixed => exact fun k _ => ⟨rfl, rfl⟩
  | unread => trivial

/-- The addresses they listen at. -/
theorem address_server (h : Agree m settings c c' c c') (hserver : Server.new c = .ok s)
    (hserver' : Server.new c' = .ok s') :
    ((∀ a, .address a ∉ settings) ∧ s' .host = s .host ∧ s' .port = s .port) ∨
    ∃ a host port n, .address a ∈ settings ∧ s .host = some (.string a.host) ∧
      s .port = some (.int (toI a.portText)) ∧ expandAddr m.socket a.value = .ok (host, port) ∧
        s' .host = some (.string host) ∧ port.toI = .ok n ∧ s' .port = some (.int n) := by
  obtain ⟨n, hn, hport, hframe⟩ := Server.new_eq_ok hserver
  obtain ⟨n', hn', hport', hframe'⟩ := Server.new_eq_ok hserver'
  have hne : Key.host ≠ .port := by decide
  rcases h .address with ⟨hnone, hhost, hsame⟩ |
    ⟨a, host, port, ha, hhost, hsame, hexpand, hhost', hsame'⟩
  · refine Or.inl ⟨hnone, by rw [hframe .host hne, hframe' .host hne, hhost], ?_⟩
    rw [hsame, hn] at hn'
    rw [hport, hport', Except.ok.inj hn']
  · rw [hsame] at hn
    rw [hsame'] at hn'
    refine Or.inr ⟨a, host, port, n', ha, ?_, ?_, hexpand, ?_, hn', hport'⟩
    · rw [hframe .host hne, hhost]
      rfl
    · obtain rfl : toI a.portText = n := Except.ok.inj hn
      exact hport
    · rw [hframe' .host hne, hhost']
      rfl

/-! ## What is started -/

/-- The second deployment is the first, but for a root that is expanded
and, where an address was set, for the host and the port that are made of
those of the first. A TCP port is what it was. -/
structure SameDeployment (m : Machine) (settings : List Setting) (d d' : DeploymentOptions) :
    Prop where
  rest : d' = { d with host := d'.host, port := d'.port, root := d'.root }
  root : d.root.mapM m.expandPath = .ok d'.root
  address : ((∀ a, .address a ∉ settings) ∧ d'.host = d.host ∧ d'.port = d.port) ∨
    ∃ a port, .address a ∈ settings ∧ d.host = a.host ∧ d.port = toI a.portText ∧
      expandAddr m.socket a.value = .ok (d'.host, port) ∧ port.toI = .ok d'.port
  port : d.port ≤ 65535 → d'.port = d.port

variable {d d' : DeploymentOptions}

/-- What is no address and no root is read alike. -/
theorem rest_of_reads (h : AgreeOn m settings s s' s s' .shared) (hrackup : s' .rackup = s .rackup)
    (hreads : PlatformManager.Reads s d) (hreads' : PlatformManager.Reads s' d') :
    d' = { d with host := d'.host, port := d'.port, root := d'.root } := by
  have hget : ∀ k : Key, k.part = .shared → s'.get k = s.get k := fun k hk =>
    Options.get_congr (h k hk)
  have hinstances : d'.instances = d.instances :=
    Fallible.ok_unique hreads.instances hreads'.instances (by rw [hget .instances rfl])
  have hrackup' : d'.rackup = d.rackup :=
    Fallible.ok_unique hreads.rackup hreads'.rackup (by rw [Options.get_congr hrackup])
  have henvironment : d'.environment = d.environment :=
    Fallible.ok_unique hreads.environment hreads'.environment (by rw [hget .environment rfl])
  have hssl : d'.ssl = d.ssl := by rw [hreads.ssl, hreads'.ssl, hget .ssl rfl]
  have hkeystorePath : d'.keystorePath = d.keystorePath :=
    Fallible.ok_unique hreads.keystorePath hreads'.keystorePath
      (by rw [hssl, hget .sslKeystore rfl])
  have hkeystorePassword : d'.keystorePassword = d.keystorePassword :=
    Fallible.ok_unique hreads.keystorePassword hreads'.keystorePassword
      (by rw [hssl, PlatformManager.stringOf?_congr (h .sslPassword rfl)])
  have heventBus : d'.eventBus = d.eventBus :=
    Fallible.ok_unique hreads.eventBus hreads'.eventBus
      (PlatformManager.stringOf?_congr (h .eventbusPrefix rfl))
  have hquiet : d'.quiet = d.quiet := by rw [hreads.quiet, hreads'.quiet, hget .quiet rfl]
  have hhideErrorStack : d'.hideErrorStack = d.hideErrorStack := by
    rw [hreads.hideErrorStack, hreads'.hideErrorStack, henvironment]
  exact DeploymentOptions.ext rfl rfl hinstances rfl hrackup' hquiet henvironment hhideErrorStack
    hkeystorePath hkeystorePassword hssl heventBus

/-- The root is expanded. -/
theorem root_of_reads (h : AgreeOn m settings s s' s s' .root)
    (hreads : PlatformManager.Reads s d) (hreads' : PlatformManager.Reads s' d') :
    d.root.mapM m.expandPath = .ok d'.root := by
  have hroot := hreads.root
  have hroot' := hreads'.root
  rcases h with ⟨hnone, hnone'⟩ | ⟨dir, dir', hdir, hexpand, hdir'⟩
  · rw [PlatformManager.stringOf?, hnone] at hroot
    rw [PlatformManager.stringOf?, hnone'] at hroot'
    rw [← Fallible.pure_eq_ok.mp hroot, ← Fallible.pure_eq_ok.mp hroot']
    rfl
  · rw [PlatformManager.stringOf?, hdir] at hroot
    rw [PlatformManager.stringOf?, hdir'] at hroot'
    obtain hdir : some dir = d.root := Except.ok.inj hroot
    obtain hdir' : some dir' = d'.root := Except.ok.inj hroot'
    rw [← hdir, ← hdir', Option.mapM_some, hexpand]
    rfl

/-- The port of an address that is expanded. -/
theorem toI_port_of_expandAddr (hsocket : m.socket.KeepsPort) {a : Address} {host : JString}
    {port : Value} (h : expandAddr m.socket a.value = .ok (host, port))
    (hle : toI a.portText ≤ 65535) : port.toI = .ok (toI a.portText) := by
  cases a with
  | integer text =>
    obtain ⟨-, rfl⟩ := expandAddr_int h
    rfl
  | port text isPort star =>
    have hbare : barePort (if star then '*' :: ':' :: text else text) = some text := by
      cases star with
      | true => exact barePort_eq_some_iff.mpr ⟨isPort, Or.inr rfl⟩
      | false => exact barePort_eq_some_iff.mpr ⟨isPort, Or.inl rfl⟩
    rw [Address.value, expandAddr_of_barePort hbare] at h
    obtain ⟨-, rfl⟩ := Prod.mk.inj (Except.ok.inj h)
    rfl
  | hostPort name text isPort brackets =>
    rcases port_of_expandAddr hsocket isPort hle h with rfl | rfl
    · rfl
    · rfl

/-- **What servers that agree deploy.** -/
theorem sameDeployment (hsocket : m.socket.KeepsPort) (h : Agree m settings c c' c c')
    (hrackup : c' .rackup = c .rackup) (hserver : Server.new c = .ok s)
    (hserver' : Server.new c' = .ok s') (hdeploy : PlatformManager.parseOptions s = .ok d)
    (hdeploy' : PlatformManager.parseOptions s' = .ok d') : SameDeployment m settings d d' := by
  have hreads := PlatformManager.parseOptions_eq_ok hdeploy
  have hreads' := PlatformManager.parseOptions_eq_ok hdeploy'
  obtain ⟨-, -, -, hframe⟩ := Server.new_eq_ok hserver
  obtain ⟨-, -, -, hframe'⟩ := Server.new_eq_ok hserver'
  have hrackup' : s' .rackup = s .rackup := by
    rw [hframe .rackup (by decide), hframe' .rackup (by decide), hrackup]
  have hrest := rest_of_reads (agreeOn_server nofun h hserver hserver') hrackup' hreads hreads'
  have hroot := root_of_reads (agreeOn_server nofun h hserver hserver') hreads hreads'
  have hhost := hreads.host
  have hhost' := hreads'.host
  have hport := hreads.port
  have hport' := hreads'.port
  rcases address_server h hserver hserver' with ⟨hnone, hsame, hsame'⟩ |
    ⟨a, host, port, n, ha, hsome, hsome', hexpand, hexpanded, htoI, hexpanded'⟩
  · -- no address was set
    have heq : d'.host = d.host :=
      Fallible.ok_unique hhost hhost' (by rw [Options.get_congr hsame])
    have heq' : d'.port = d.port :=
      Fallible.ok_unique hport hport' (by rw [Options.get_congr hsame'])
    exact ⟨hrest, hroot, Or.inl ⟨hnone, heq, heq'⟩, fun _ => heq'⟩
  · rw [Options.get, hsome] at hhost
    rw [Options.get, hsome'] at hport
    rw [Options.get, hexpanded] at hhost'
    rw [Options.get, hexpanded'] at hport'
    obtain rfl : host = d'.host := Except.ok.inj hhost'
    obtain rfl : d'.port = n := Value.num2int_int_eq_ok hport'
    have hd : d.port = toI a.portText := Value.num2int_int_eq_ok hport
    refine ⟨hrest, hroot, Or.inr ⟨a, port, ha, ?_, hd, hexpand, htoI⟩, fun hle => ?_⟩
    · exact (Except.ok.inj hhost).symm
    · rw [hd] at hle ⊢
      exact Except.ok.inj (htoI.symm.trans (toI_port_of_expandAddr hsocket hexpand hle))

/-- What Vert.x is made with depends on the options of the cluster. -/
theorem platformManager_congr (h : ∀ k, k.part = .cluster → s' k = s k) :
    PlatformManager.new m s' = PlatformManager.new m s := by
  rw [PlatformManager.new, PlatformManager.new, Options.get_congr (h .clustered rfl),
    h .clusterPort rfl, PlatformManager.stringOf?_congr (h .clusterHost rfl)]

/-- No switch but `--daemon` asks for a daemon. -/
theorem foldl_apply_daemon {flags : List Flag} (h : .daemon ∉ flags) :
    (flags.foldl Flag.apply o) .daemon = o .daemon := by
  induction flags generalizing o with
  | nil => rfl
  | cons f fs ih =>
    rw [List.foldl_cons, ih fun hmem => h (List.mem_cons_of_mem f hmem)]
    cases f with
    | daemon => exact absurd List.mem_cons_self h
    | _ => exact Options.set_of_ne (by decide)

theorem daemon_notMem_flags (h : .daemon ∉ settings) :
    .daemon ∉ settings.flatMap Setting.flags := by
  rw [List.mem_flatMap]
  rintro ⟨s, hs, hmem⟩
  cases s with
  | daemon => exact h hs
  | clustering a => cases a <;> simp [Setting.flags] at hmem
  | _ => simp [Setting.flags] at hmem

/-- A run without that switch starts a server. -/
theorem started_of_run {outcome : Outcome} (h : .daemon ∉ line.flags)
    (hrun : CLI.run m line = .ok outcome) :
    ∃ config server vertx d rackEnv,
      Configuration.new m (CLI.parseOptions line (CLI.setupOptions m)) = .ok config ∧
        Server.new config = .ok server ∧ PlatformManager.new m server = .ok vertx ∧
          PlatformManager.parseOptions server = .ok d ∧ outcome = .started rackEnv vertx d := by
  rcases CLI.run_eq_ok hrun with ⟨hdaemon, -⟩ | hstarted
  · have hfalse : CLI.parseOptions line (CLI.setupOptions m) .daemon = some (.bool false) := by
      rw [parseOptions_of_ne line (by decide), foldl_apply_daemon h]
      rfl
    rw [Options.get, hfalse] at hdaemon
    cases hdaemon
  · exact hstarted

/-- **Settings mean the same both ways**, where both are accepted and no
daemon is asked for: both start a server, and deploy the same but for a
root and a host that the directives expand. -/
theorem settings_agree (hsocket : m.socket.KeepsPort) (hdaemon : .daemon ∉ settings)
    (hflags : line.flags = settings.flatMap Setting.flags) (hpath : line'.flags = [.config path])
    (hrest : line'.rest = line.rest) (hread : m.read path = .ok (settings.map Setting.directive))
    {outcome outcome' : Outcome} (hrun : CLI.run m line = .ok outcome)
    (hrun' : CLI.run m line' = .ok outcome') :
    ∃ rackEnv vertx d rackEnv' vertx' d', outcome = .started rackEnv vertx d ∧
      outcome' = .started rackEnv' vertx' d' ∧ SameDeployment m settings d d' ∧
        ((∀ a, .clustering a ∉ settings) → vertx' = vertx) := by
  obtain ⟨c, s, vertx, d, rackEnv, hnew, hserver, hvertx, hdeploy, rfl⟩ :=
    started_of_run (hflags ▸ daemon_notMem_flags hdaemon) hrun
  obtain ⟨c', s', vertx', d', rackEnv', hnew', hserver', hvertx', hdeploy', rfl⟩ :=
    started_of_run (by simp [hpath]) hrun'
  obtain ⟨hagree, hrackup⟩ := agree_config hdaemon hflags hpath hrest hread hnew hnew'
  refine ⟨rackEnv, vertx, d, rackEnv', vertx', d', rfl, rfl,
    sameDeployment hsocket hagree hrackup hserver hserver' hdeploy hdeploy', fun hnone => ?_⟩
  have hcluster : AgreeOn m settings s s' s s' .cluster :=
    agreeOn_server nofun hagree hserver hserver'
  exact Fallible.ok_unique hvertx hvertx' (platformManager_congr (hcluster hnone))

/-- Where the root and the host are expanded already, nothing differs. -/
theorem SameDeployment.eq (h : SameDeployment m settings d d') (hport : d.port ≤ 65535)
    (hroot : ∀ dir ∈ d.root, m.expandPath dir = .ok dir)
    (hhost : ∀ a host port, .address a ∈ settings →
      expandAddr m.socket a.value = .ok (host, port) → host = a.host) : d' = d := by
  have hroot' : d'.root = d.root := by
    have hmap := h.root
    cases hdir : d.root with
    | none =>
      rw [hdir] at hmap
      exact (Fallible.pure_eq_ok.mp hmap).symm
    | some dir =>
      rw [hdir, Option.mapM_some, hroot dir hdir] at hmap
      exact (Fallible.pure_eq_ok.mp hmap).symm
  have hhost' : d'.host = d.host := by
    rcases h.address with ⟨-, hsame, -⟩ | ⟨a, port, ha, hd, -, hexpand, -⟩
    · exact hsame
    · rw [hd]
      exact hhost a d'.host port ha hexpand
  rw [h.rest, h.port hport, hroot', hhost']

/-! ## On one machine -/

/-- A machine whose working directory is `/srv`, with one file. -/
def localMachine (directives : List Directive) : Machine where
  javaVersion := "1.8.0_66".toList
  rackEnv := none
  socket := localSocket
  expandPath path := .ok (if path.head? = some '/' then path else "/srv/".toList ++ path)
  read _ := .ok directives
  setClusterPort port := if 0 ≤ port ∧ port ≤ 65535 then .ok port else .error .illegalArgument
  setPort port := if 0 ≤ port ∧ port ≤ 65535 then .ok port else .error .illegalArgument
  getDefaultAddress := none

/-- The settings as flags. -/
def runFlags (settings : List Setting) : Except Raised Outcome :=
  CLI.run (localMachine (settings.map Setting.directive))
    (.ofFlags (settings.flatMap Setting.flags) [])

/-- The settings as directives. -/
def runFile (settings : List Setting) : Except Raised Outcome :=
  CLI.run (localMachine (settings.map Setting.directive))
    (.ofFlags [.config "jubilee.conf.rb".toList] [])

/-- `localhost:3000`. -/
def localhost : Address := .hostPort "localhost".toList "3000".toList (by decide) false

/-- What is deployed without any setting. -/
def noSettings : DeploymentOptions where
  host := "0.0.0.0".toList
  port := 8080
  instances := 4
  root := none
  rackup := "config.ru".toList
  quiet := false
  environment := "development".toList
  hideErrorStack := none
  keystorePath := none
  keystorePassword := none
  ssl := false
  eventBus := none

/-- A server that is started on `localMachine`. -/
def started (cluster : Option (Option JString × ℤ)) (d : DeploymentOptions) : Outcome :=
  .started (.string "development".toList) ⟨6000000000, cluster⟩ d

/-- Settings of each kind but for clustering and the daemon. -/
def production : List Setting :=
  [.workingDirectory "app".toList, .address localhost, .environment "production".toList,
    .ssl "keystore.jks".toList "secret".toList, .eventbus "/eb".toList, .debug]

/-- What they deploy, with this root and at this host. -/
def productionAt (root host : JString) : DeploymentOptions :=
  { noSettings with
    host, port := 3000, root := some root, environment := "production".toList
    hideErrorStack := some true, keystorePath := some "keystore.jks".toList
    keystorePassword := some "secret".toList, ssl := true, eventBus := some "/eb".toList }

theorem settings_agree_production :
    SameDeployment (localMachine (production.map Setting.directive)) production
      (productionAt "app".toList "localhost".toList)
      (productionAt "/srv/app".toList "127.0.0.1".toList) := by
  have hrun : runFlags production = .ok (.started (.string "production".toList) ⟨6000000000, none⟩
      (productionAt "app".toList "localhost".toList)) := by decide +kernel
  have hrun' : runFile production = .ok (.started (.string "development".toList) ⟨6000000000, none⟩
      (productionAt "/srv/app".toList "127.0.0.1".toList)) := by decide +kernel
  have hdaemon : .daemon ∉ production := by simp [production]
  have hsocket : (localMachine (production.map Setting.directive)).socket.KeepsPort :=
    localSocket_keepsPort
  have hflags : (CommandLine.ofFlags (production.flatMap Setting.flags) []).flags =
      production.flatMap Setting.flags := rfl
  have hpath : (CommandLine.ofFlags [.config "jubilee.conf.rb".toList] []).flags =
      [.config "jubilee.conf.rb".toList] := rfl
  obtain ⟨_, _, d, _, _, d', heq, heq', hsame, -⟩ :=
    settings_agree hsocket hdaemon hflags hpath rfl rfl hrun hrun'
  obtain ⟨-, -, rfl⟩ := Outcome.started.inj heq
  obtain ⟨-, -, rfl⟩ := Outcome.started.inj heq'
  exact hsame

/-- A directive expands a root and a host, and a flag does not. What
`clustering` sets is not read without the flag `--cluster`, and what
`daemonize` sets is not read at all. -/
theorem settings_differ :
    (runFlags [.workingDirectory "app".toList] =
        .ok (started none { noSettings with root := some "app".toList }) ∧
      runFile [.workingDirectory "app".toList] =
        .ok (started none { noSettings with root := some "/srv/app".toList })) ∧
    (runFlags [.address localhost] =
        .ok (started none { noSettings with host := "localhost".toList, port := 3000 }) ∧
      runFile [.address localhost] =
        .ok (started none { noSettings with host := "127.0.0.1".toList, port := 3000 })) ∧
    (runFlags [.clustering none] =
        .ok (started (some (some "0.0.0.0".toList, 0)) noSettings) ∧
      runFile [.clustering none] = .ok (started none noSettings)) ∧
    runFlags [.daemon] = .ok (.daemonized (.string "development".toList) []) ∧
      runFile [.daemon] = .ok (started none noSettings) := by
  decide +kernel

end Startup

end Jubilee
