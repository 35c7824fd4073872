import Jubilee.Common.Quote
import Jubilee.Runtime.Java
/-!
# Start-up — the generated scripts

`JubileeVerticle` puts two paths of its configuration into Ruby scripts,
one into a single-quoted literal and one into a `%q` literal, as they
are. `scripts_iff` says for which paths Ruby reads the script that was
meant.
-/

namespace Jubilee

namespace Startup

open Quote

/-! ## The scripts -/

/-- The entries of the configuration that the scripts are made from. -/
structure Config where
  rackup : JString
  quiet : Bool
  environment : JString
  root : Option JString

/-- The root directory, which is `.` by default. -/
def Config.rootPath (config : Config) : JString := config.root.getD ".".toList

/-- The logger is put before the application. -/
def Config.logs (config : Config) : Bool :=
  !config.quiet && config.environment == "development".toList

/-- The script of `initRackApplication`. -/
def rackScript (config : Config) : JString :=
  let rackScript := "require 'rack'\n".toList ++ "require 'jubilee'\n".toList ++
    "app, _ = Rack::Builder.parse_file('".toList ++ config.rackup ++ "')\n".toList
  let rackScript :=
    if config.logs then
      rackScript ++ ("logger = STDOUT\n".toList ++
        "app = Rack::CommonLogger.new(app, logger)\n".toList)
    else rackScript
  rackScript ++ "Jubilee::Application.new(app)\n".toList

/-- The script of `start`. -/
def expandScript (config : Config) : JString :=
  "File.expand_path(%q(".toList ++ config.rootPath ++ "))".toList

/-! ## The programs that are meant -/

/-- Ruby's `'...'`. -/
def singleQuoted : Literal Char where
  first := '\''
  more := []
  marks :=
    { esc := '\\'
      close := '\''
      opens := none
      close_ne_esc := by decide
      opens_ne_esc := by decide
      opens_ne_close := by decide }

/-- Ruby's `%q(...)`. -/
def percentQ : Literal Char where
  first := '%'
  more := ['q', '(']
  marks :=
    { esc := '\\'
      close := ')'
      opens := some '('
      close_ne_esc := by decide
      opens_ne_esc := by decide
      opens_ne_close := by decide }

/-- Code, character by character. -/
def code (text : JString) : List (Token Char) := text.map .code

/-- What follows the path in the script. -/
def rackTail (config : Config) : JString :=
  ")\n".toList ++
    ((if config.logs then
        "logger = STDOUT\n".toList ++ "app = Rack::CommonLogger.new(app, logger)\n".toList
      else []) ++
      "Jubilee::Application.new(app)\n".toList)

/-- The template, with the path for the argument of `parse_file`. -/
def rackProgram (config : Config) : List (Token Char) :=
  code "require ".toList ++ .literal "rack".toList ::
    (code "\nrequire ".toList ++ .literal "jubilee".toList ::
      (code "\napp, _ = Rack::Builder.parse_file(".toList ++ .literal config.rackup ::
        code (rackTail config)))

/-- The template, with the path for the argument of `File.expand_path`. -/
def expandProgram (config : Config) : List (Token Char) :=
  code "File.expand_path(".toList ++ .literal config.rootPath :: code ")".toList

/-! ## Where they are read -/

variable {config : Config} {t : JString}

theorem rackScript_eq (config : Config) :
    rackScript config = "require ".toList ++ (singleQuoted.opening ++ ("rack".toList ++
      singleQuoted.marks.close :: ("\nrequire ".toList ++ (singleQuoted.opening ++
        ("jubilee".toList ++ singleQuoted.marks.close ::
          ("\napp, _ = Rack::Builder.parse_file(".toList ++ (singleQuoted.opening ++
            (config.rackup ++ singleQuoted.marks.close :: rackTail config)))))))) := by
  unfold rackScript rackTail
  cases config.logs with
  | true => simp only [if_true, List.append_assoc]; rfl
  | false => simp only [Bool.false_eq_true, if_false, List.append_assoc]; rfl

theorem first_notMem_rackTail (config : Config) : singleQuoted.first ∉ rackTail config := by
  unfold rackTail
  cases config.logs with
  | true => decide
  | false => decide

/-- The first script is the one that was meant where the literal holds the
path as it stands. -/
theorem lexes_rackScript (config : Config) :
    Lexes singleQuoted (rackScript config) (rackProgram config) ↔
      Verbatim singleQuoted.marks 0 config.rackup := by
  have hrack : Verbatim singleQuoted.marks 0 "rack".toList :=
    verbatim_of_not_mem (by decide) (by decide) fun _ _ h => nomatch h
  have hjubilee : Verbatim singleQuoted.marks 0 "jubilee".toList :=
    verbatim_of_not_mem (by decide) (by decide) fun _ _ h => nomatch h
  rw [rackScript_eq, rackProgram]
  unfold code
  rw [lexes_codes (by decide), lexes_verbatim hrack, lexes_codes (by decide),
    lexes_verbatim hjubilee, lexes_codes (by decide),
    lexes_literal_iff (first_notMem_rackTail config)]

/-- And so is the second. -/
theorem lexes_expandScript (config : Config) :
    Lexes percentQ (expandScript config) (expandProgram config) ↔
      Verbatim percentQ.marks 0 config.rootPath := by
  have hscript : expandScript config = "File.expand_path(".toList ++
      (percentQ.opening ++ (config.rootPath ++ percentQ.marks.close :: ")".toList)) := by
    unfold expandScript
    rw [List.append_assoc]
    rfl
  rw [hscript, expandProgram]
  unfold code
  rw [lexes_codes (by decide), lexes_literal_iff (by decide)]

/-- In a single-quoted literal nothing is nested, and a quote and a
backslash are all that can be escaped. -/
theorem verbatim_singleQuoted_iff : Verbatim singleQuoted.marks 0 t ↔
    '\'' ∉ t ∧ ¬ ['\\', '\\'] <:+: t ∧ t.getLast? ≠ some '\\' := by
  rw [verbatim_iff]
  refine Iff.trans (and_congr_left fun _ => balanced_iff_of_no_opens rfl)
    (and_congr_right fun hquote => ?_)
  constructor
  · exact fun h => ⟨h.followed '\\' (Or.inl rfl), h.last⟩
  · rintro ⟨hbackslash, hlast⟩
    refine ⟨fun c hc hin => ?_, hlast⟩
    rcases hc with rfl | rfl | hopens
    · exact hbackslash hin
    · exact hquote (hin.subset (List.mem_cons_of_mem _ List.mem_cons_self))
    · cases hopens

/-- In a `%q` literal parentheses are nested, and can be escaped. -/
theorem verbatim_percentQ_iff : Verbatim percentQ.marks 0 t ↔
    Balanced percentQ.marks t ∧
      (∀ c ∈ ['\\', '(', ')'], ¬ ['\\', c] <:+: t) ∧ t.getLast? ≠ some '\\' := by
  rw [verbatim_iff]
  refine and_congr_right fun _ => ?_
  constructor
  · intro h
    refine ⟨fun c hc => h.followed c ?_, h.last⟩
    rcases List.mem_cons.mp hc with rfl | hc
    · exact Or.inl rfl
    · rcases List.mem_cons.mp hc with rfl | hc
      · exact Or.inr (Or.inr rfl)
      · exact Or.inr (Or.inl (List.mem_singleton.mp hc))
  · rintro ⟨hfollowed, hlast⟩
    refine ⟨fun c hc => hfollowed c ?_, hlast⟩
    rcases hc with rfl | rfl | hopens
    · decide
    · decide
    · cases hopens
      decide

/-- **Exactly which paths the scripts name.** Ruby reads the first script as
the template with the rackup file for its argument if and only if the path
has no quote in it, no two backslashes in a row, and none at its end; and
the second, with the root directory, if and only if the parentheses of the
path match, and every backslash is followed by a character that is neither
one nor a parenthesis. -/
theorem scripts_iff (config : Config) :
    (Lexes singleQuoted (rackScript config) (rackProgram config) ↔
      '\'' ∉ config.rackup ∧ ¬ ['\\', '\\'] <:+: config.rackup ∧
        config.rackup.getLast? ≠ some '\\') ∧
    (Lexes percentQ (expandScript config) (expandProgram config) ↔
      Balanced percentQ.marks config.rootPath ∧
        (∀ c ∈ ['\\', '(', ')'], ¬ ['\\', c] <:+: config.rootPath) ∧
        config.rootPath.getLast? ≠ some '\\') :=
  ⟨(lexes_rackScript config).trans verbatim_singleQuoted_iff,
    (lexes_expandScript config).trans verbatim_percentQ_iff⟩

/-- A path with a quote, and one with a parenthesis that matches no other. -/
def quoted : Config := ⟨"it's.ru".toList, true, "development".toList, some "a)b".toList⟩

/-- **Neither is named.** -/
theorem quoted_not_named : ¬ Lexes singleQuoted (rackScript quoted) (rackProgram quoted) ∧
    ¬ Lexes percentQ (expandScript quoted) (expandProgram quoted) := by
  refine ⟨fun h => ?_, fun h => ?_⟩
  · obtain ⟨hquote, -⟩ := verbatim_singleQuoted_iff.mp ((lexes_rackScript quoted).mp h)
    exact hquote (by decide)
  · obtain ⟨hbalanced, -⟩ := verbatim_percentQ_iff.mp ((lexes_expandScript quoted).mp h)
    exact absurd hbalanced (by decide)

end Startup

end Jubilee
