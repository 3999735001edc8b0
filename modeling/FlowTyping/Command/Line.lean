/-!
The command line: what its arguments ask for. Arguments are taken from the left, and
the first one that asks for help, for the version, or for nothing known decides.
-/

namespace FlowTyping

inductive OutputFormat where
  | text | json
  deriving DecidableEq, Repr

inductive Command where
  | check (checker program : String) (config : Option String) (format : OutputFormat)
      (sequential : Bool)
  | cfg (program unit : String)
  | verify (checker : String) (format : OutputFormat)
  deriving DecidableEq, Repr

/-- The commands by name. -/
inductive CommandName where
  | check | cfg | verify
  deriving DecidableEq, Repr

/-- What help is asked for. -/
inductive HelpTopic where
  | program
  | command (name : CommandName)
  | help
  deriving DecidableEq, Repr

inductive Request where
  | run (command : Command)
  | help (topic : HelpTopic)
  | version
  deriving DecidableEq, Repr

namespace CommandName

def all : List CommandName := [check, cfg, verify]

def text : CommandName → String
  | check => "check"
  | cfg => "cfg"
  | verify => "verify"

def ofText? (s : String) : Option CommandName := all.find? fun c => c.text = s

/-- The options of a command that take a value. -/
def options : CommandName → List String
  | check => ["checker", "program", "config", "format"]
  | cfg => ["program", "unit"]
  | verify => ["checker", "format"]

/-- The options of a command that take none, apart from those of every command. -/
def flags : CommandName → List String
  | check => ["sequential"]
  | _ => []

end CommandName

namespace OutputFormat

def ofText? : String → Option OutputFormat
  | "text" => some text
  | "json" => some json
  | _ => none

end OutputFormat

namespace Request

/-- An option is a path, a format, or the name of a unit. A path is not empty, and a
format is a known one. -/
def acceptsValue (option value : String) : Bool :=
  match option with
  | "format" => (OutputFormat.ofText? value).isSome
  | "unit" => true
  | _ => value ≠ ""

/-- Whether a word can be the value of the option before it. -/
def isValue (word : String) : Bool := !word.startsWith "-" || word = "-"

/-- What a group of one-letter options asks for at once, if anything. `none` stands
for an unknown one. -/
def shortFlags (help : Request) (version : Option Request) :
    List Char → Option (Option Request)
  | [] => some none
  | 'v' :: rest => shortFlags help version rest
  | 'h' :: _ => some (some help)
  | 'V' :: _ => version.map some
  | _ => none

/-- The given options of a command, once each. -/
structure Given where
  values : List (String × String)
  flags : List String
  deriving DecidableEq, Repr

namespace Given

def empty : Given := ⟨[], []⟩

def value? (g : Given) (option : String) : Option String :=
  (g.values.find? fun v => v.1 = option).map Prod.snd

def setValue? (g : Given) (option value : String) : Option Given :=
  if (g.value? option).isSome || !acceptsValue option value then none
  else some { g with values := (option, value) :: g.values }

def setFlag? (g : Given) (name : String) : Option Given :=
  if name ∈ g.flags then none else some { g with flags := name :: g.flags }

def format (g : Given) : OutputFormat :=
  ((g.value? "format").bind OutputFormat.ofText?).getD .text

/-- The command with its options, if none that it needs is missing. -/
def command? (g : Given) : CommandName → Option Command
  | .check => do
      let checker ← g.value? "checker"
      let program ← g.value? "program"
      return .check checker program (g.value? "config") g.format ("sequential" ∈ g.flags)
  | .cfg => do
      let program ← g.value? "program"
      let unit ← g.value? "unit"
      return .cfg program unit
  | .verify => do
      let checker ← g.value? "checker"
      return .verify checker g.format

end Given

/-- The name of a long option, and the value that is written with it. -/
def splitOption (word : String) : String × Option String :=
  let body := (word.toList.drop 2)
  let name := String.ofList (body.takeWhile (· ≠ '='))
  match body.dropWhile (· ≠ '=') with
  | [] => (name, none)
  | _ :: value => (name, some (String.ofList value))

/-- What the arguments after the name of a command ask for. -/
def ofOptions? (name : CommandName) : Given → List String → Option Request
  | given, [] => (given.command? name).map run
  | given, ["--"] => (given.command? name).map run
  | given, word :: rest =>
      let help := Request.help (.command name)
      if word.startsWith "--" then
        match splitOption word, rest with
        | ("help", none), _ => some help
        | ("verbose", none), rest => ofOptions? name given rest
        | (option, some value), rest =>
            if option ∈ name.options then
              match given.setValue? option value with
              | some given => ofOptions? name given rest
              | none => none
            else none
        | (option, none), rest =>
            if option ∈ name.flags then
              match given.setFlag? option with
              | some given => ofOptions? name given rest
              | none => none
            else if option ∈ name.options then
              match rest with
              | [] => none
              | value :: rest =>
                  if isValue value then
                    match given.setValue? option value with
                    | some given => ofOptions? name given rest
                    | none => none
                  else none
            else none
      else if isValue word then none
      else
        match shortFlags help none (word.toList.drop 1) with
        | some none => ofOptions? name given rest
        | some (some request) => some request
        | none => none

/-- The topic that the arguments after `help` name. -/
def helpTopic? : List String → Option HelpTopic
  | [] => some .program
  | ["help"] => some .help
  | [name] => (CommandName.ofText? name).map .command
  | _ => none

/-- What the arguments ask for. There is no request in arguments that break the rules
of the command line. -/
def ofArguments? : List String → Option Request
  | [] => none
  | "--help" :: _ => some (help .program)
  | "--version" :: _ => some version
  | "--verbose" :: rest => ofArguments? rest
  | "help" :: topics => (helpTopic? topics).map help
  | word :: rest =>
      if isValue word then
        match CommandName.ofText? word with
        | some name => ofOptions? name .empty rest
        | none => none
      else if word.startsWith "--" then none
      else
        match shortFlags (help .program) (some version) (word.toList.drop 1) with
        | some none => ofArguments? rest
        | some (some request) => some request
        | none => none

end Request

/-!
What the command line says about itself.
-/

namespace Command

def programName : String := "qualflow"

def versionText : String := programName ++ " 0.4.0\n"

private def lineText (lines : List String) : String := String.join (lines.map (· ++ "\n"))

/-- The ways to call the program that the reader of an error is shown. -/
def usage (arguments : String) : String := "Usage: " ++ programName ++ " " ++ arguments

def programHelp : String :=
  lineText ["Flow-sensitive type-qualifier checker", "", usage "[OPTIONS] <COMMAND>", "",
    "Commands:",
    "  check   Analyze every unit of a program",
    "  cfg     Print the control flow graph of one unit",
    "  verify  Check the lattice laws of a checker's hierarchy",
    "  help    Print this message or the help of the given subcommand(s)", "",
    "Options:",
    "  -v, --verbose...  Raise log output to debug (-v) or trace (-vv)",
    "  -h, --help        Print help",
    "  -V, --version     Print version"]

def commandHelp : CommandName → String
  | .check =>
      lineText ["Analyze every unit of a program", "",
        usage "check [OPTIONS] --checker <CHECKER> --program <PROGRAM>", "",
        "Options:",
        "      --checker <CHECKER>  Checker declaration (JSON)",
        "  -v, --verbose...         Raise log output to debug (-v) or trace (-vv)",
        "      --program <PROGRAM>  Lowered program (JSON)",
        "      --config <CONFIG>    Batch and solver settings (JSON)",
        "      --format <FORMAT>    [default: text] [possible values: text, json]",
        "      --sequential         Analyze units one after another",
        "  -h, --help               Print help"]
  | .cfg =>
      lineText ["Print the control flow graph of one unit", "",
        usage "cfg [OPTIONS] --program <PROGRAM> --unit <UNIT>", "",
        "Options:",
        "      --program <PROGRAM>  ",
        "  -v, --verbose...         Raise log output to debug (-v) or trace (-vv)",
        "      --unit <UNIT>        ",
        "  -h, --help               Print help"]
  | .verify =>
      lineText ["Check the lattice laws of a checker's hierarchy", "",
        usage "verify [OPTIONS] --checker <CHECKER>", "",
        "Options:",
        "      --checker <CHECKER>  Checker declaration (JSON)",
        "  -v, --verbose...         Raise log output to debug (-v) or trace (-vv)",
        "      --format <FORMAT>    [default: text] [possible values: text, json]",
        "  -h, --help               Print help"]

def helpText : HelpTopic → String
  | .program => programHelp
  | .command name => commandHelp name
  | .help =>
      lineText ["Print this message or the help of the given subcommand(s)", "",
        usage "help [COMMAND]...", "", "Arguments:",
        "  [COMMAND]...  Print help for the subcommand(s)"]

def usageError : String :=
  lineText ["error: the arguments do not form a command", "", usage "[OPTIONS] <COMMAND>", "",
    "For more information, try '--help'."]

end Command

end FlowTyping
