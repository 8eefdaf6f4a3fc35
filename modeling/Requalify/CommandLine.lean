import Requalify.Project.Run

/-!
The words of a command line and what they can ask for: one run of a tool, a page of help, or the
version.
-/

namespace Requalify.CommandLine

def programName : String := "nsfix"

def versionLine : String := programName ++ " 0.1.0\n"

inductive Flag where
  | root
  | config
  | logLevel
  | format
  | overwrite
  | dump
  | diff
  | help
  | version
  deriving DecidableEq

namespace Flag

def name : Flag → String
  | root => "root"
  | config => "config"
  | logLevel => "log-level"
  | format => "format"
  | overwrite => "overwrite"
  | dump => "dump"
  | diff => "diff"
  | help => "help"
  | version => "version"

/-- The flag is followed by a value. -/
def takesValue : Flag → Bool
  | root => true
  | config => true
  | logLevel => true
  | format => true
  | _ => false

/-- The values that can be chosen; none listed means that every text but the empty one will do. -/
def choices : Flag → List String
  | logLevel => ["trace", "debug", "info", "warn", "error"]
  | format => ["text", "json"]
  | _ => []

def acceptsValue (flag : Flag) (value : String) : Bool :=
  if flag.choices.isEmpty then !value.isEmpty else flag.choices.contains value

/-- Flags that stand before or after the name of the tool. -/
def shared : List Flag := [root, config, logLevel, help]

def ofProgram : List Flag := shared ++ [version]

def ofTool : List Flag := shared ++ [format, overwrite, dump, diff]

end Flag

inductive Word where
  | plain (text : String)
  | endOfFlags
  | long (name : String) (value : Option String)
  | short (letters : List Char)
  deriving DecidableEq

/-- A value may be written behind the name of a long flag, after the first `=`. -/
def Word.ofText (text : String) : Word :=
  match text.toList with
  | ['-', '-'] => .endOfFlags
  | '-' :: '-' :: rest =>
      let name := rest.takeWhile (· != '=')
      .long (String.ofList name) ((rest.drop name.length).tail?.map String.ofList)
  | '-' :: letter :: rest => .short (letter :: rest)
  | _ => .plain text

inductive Page where
  | overview
  | ofTool (tool : Tool)
  | ofHelp
  deriving DecidableEq

/-- Why a command line cannot be understood. -/
inductive Misuse where
  | unknownFlag (text : String)
  | unknownCommand (text : String)
  | missingCommand
  | missingValue (flag : Flag)
  | badValue (flag : Flag) (value : String)
  | unwantedValue (flag : Flag) (value : String)
  | repeatedFlag (flag : Flag)
  | emptyFile
  deriving DecidableEq

def Misuse.message : Misuse → String
  | unknownFlag text => s!"error: unexpected argument '{text}' found\n"
  | unknownCommand text => s!"error: unrecognized subcommand '{text}'\n"
  | missingCommand => "error: a subcommand is required but one was not provided\n"
  | missingValue flag => s!"error: a value is required for '--{flag.name}' but none was supplied\n"
  | badValue flag value => s!"error: invalid value '{value}' for '--{flag.name}'\n"
  | unwantedValue flag value =>
      s!"error: unexpected value '{value}' for '--{flag.name}' found; no more were expected\n"
  | repeatedFlag flag => s!"error: the argument '--{flag.name}' cannot be used multiple times\n"
  | emptyFile => "error: a value is required for '[FILES]...' but none was supplied\n"

inductive SummaryFormat where
  | text
  | json
  deriving DecidableEq

/-- One run of a tool as it was asked for. -/
structure Invocation where
  tool : Tool
  root : Option String
  settings : Option String
  files : List String
  mode : Project.OutputMode
  format : SummaryFormat
  deriving DecidableEq

/-- What a command line asks for if it does not ask for a run. -/
inductive Stop where
  | help (page : Page) (detailed : Bool)
  | version
  | misuse (cause : Misuse)
  deriving DecidableEq

end Requalify.CommandLine
