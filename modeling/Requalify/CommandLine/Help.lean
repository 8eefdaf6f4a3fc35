import Requalify.CommandLine

/-!
The pages of help. A short page gives each flag a line; a detailed page gives it a paragraph, with a
line for each value that needs an explanation.
-/

namespace Requalify.CommandLine

/-- What a page tells about a flag. -/
structure Entry where
  spelling : String
  about : String
  standard : Option String
  /-- Values to choose from, each with an explanation if it needs one. -/
  choices : List (String × String)

namespace Entry

def rootEntry : Entry := ⟨"    --root <ROOT>", "Project root directory (default: current directory)", none, []⟩

def configEntry : Entry :=
  ⟨"    --config <CONFIG>", "Configuration file (default: .nsfix/config.toml in the root)", none, []⟩

def logLevelEntry : Entry :=
  ⟨"    --log-level <LOG_LEVEL>", "Log level for tracing output", some "warn",
    Flag.logLevel.choices.map (·, "")⟩

def overwriteEntry : Entry := ⟨"    --overwrite", "Write rewritten files in place", none, []⟩

def dumpEntry : Entry := ⟨"    --dump", "Print every rewritten file to stdout", none, []⟩

def diffEntry : Entry :=
  ⟨"    --diff", "Print a unified diff of every rewritten file to stdout", none, []⟩

def formatEntry : Entry :=
  ⟨"    --format <FORMAT>", "Format of the run summary", some "text",
    Flag.format.choices.zip ["Human-readable lines on stderr", "JSON on stdout"]⟩

def helpEntry (hint : String) : Entry := ⟨"-h, --help", "Print help" ++ hint, none, []⟩

def versionEntry : Entry := ⟨"-V, --version", "Print version", none, []⟩

def explains (entry : Entry) : Bool :=
  entry.choices.any (!·.2.isEmpty)

def standardNote (entry : Entry) : List String :=
  (entry.standard.map fun value => s!"[default: {value}]").toList

def choicesNote (entry : Entry) : List String :=
  if entry.choices.isEmpty then []
  else ["[possible values: " ++ ", ".intercalate (entry.choices.map (·.1)) ++ "]"]

def padded (width : Nat) (text : String) : String :=
  text ++ String.ofList (List.replicate (width - text.length) ' ')

/-- The entry as one line, with explanations that start in one column. -/
def line (width : Nat) (entry : Entry) : String :=
  let notes := entry.standardNote ++ entry.choicesNote
  "  " ++ padded width entry.spelling ++ "  " ++ " ".intercalate (entry.about :: notes)

def margin : String := "          "

def paragraph (entry : Entry) : String :=
  let notes := entry.standardNote ++ if entry.explains then [] else entry.choicesNote
  let explained := if entry.explains then
      ["", margin ++ "Possible values:"] ++
        entry.choices.map fun (value, about) => margin ++ s!"- {value}: {about}"
    else []
  let about := margin ++ entry.about
  let noted := if notes.isEmpty then [] else margin :: notes.map (margin ++ ·)
  "\n".intercalate (["  " ++ entry.spelling, about] ++ explained ++ noted)

end Entry

open Entry

def helpAbout : String := "Print this message or the help of the given subcommand(s)"

def toolAbout : Tool → String
  | .inlineNamespaces => "Qualify std and boost references, then remove their using-statements"
  | .disambiguateSymbols =>
      "Name anonymous namespaces after their file and qualify uses outside them"

def overviewPage : String :=
  let commands := [Tool.inlineNamespaces, .disambiguateSymbols].map fun tool =>
    (tool.name, toolAbout tool)
  let entries := [rootEntry, configEntry, logLevelEntry, helpEntry "", versionEntry]
  "\n".intercalate
    (["Namespace rewriting for large C++ codebases", "",
      s!"Usage: {programName} [OPTIONS] <COMMAND>", "", "Commands:"] ++
    (commands ++ [("help", helpAbout)]).map (fun (name, about) => s!"  {padded 20 name}  {about}") ++
    ["", "Options:"] ++ entries.map (·.line 27) ++ [""])

def toolUsage (tool : Tool) : List String :=
  [toolAbout tool, "", s!"Usage: {programName} {tool.name} [OPTIONS] [FILES]...", "", "Arguments:"]

def filesAbout : String := "Files to process (default: every accepted file under the root)"

def toolEntries (hint : String) : List Entry :=
  [overwriteEntry, rootEntry, configEntry, dumpEntry, diffEntry, logLevelEntry, formatEntry,
    helpEntry hint]

def toolPage (tool : Tool) : String :=
  "\n".intercalate (toolUsage tool ++ ["  [FILES]...  " ++ filesAbout, "", "Options:"] ++
    (toolEntries " (see more with '--help')").map (·.line 27) ++ [""])

def detailedToolPage (tool : Tool) : String :=
  "\n".intercalate (toolUsage tool ++ ["  [FILES]...", margin ++ filesAbout, "", "Options:"]) ++ "\n" ++
    "\n\n".intercalate ((toolEntries " (see a summary with '-h')").map paragraph) ++ "\n"

def pageOfHelp : String :=
  "\n".intercalate [helpAbout, "", s!"Usage: {programName} help [COMMAND]...", "", "Arguments:",
    "  [COMMAND]...  Print help for the subcommand(s)", ""]

def Page.text (page : Page) (detailed : Bool) : String :=
  match page with
  | .overview => overviewPage
  | .ofTool tool => if detailed then detailedToolPage tool else toolPage tool
  | .ofHelp => pageOfHelp

end Requalify.CommandLine
