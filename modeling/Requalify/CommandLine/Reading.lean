import Requalify.CommandLine

/-!
Reading a command line. Words are taken one by one, and the first that asks for help or the version, or
that makes no sense, decides. The value of a flag is checked when the next flag is met or the words end.
-/

namespace Requalify.CommandLine

/-- The words read so far of the program, or of the tool that it is to run. -/
structure Line where
  /-- Flags with their values, which have been checked. -/
  given : List (Flag × String)
  /-- The last flag that takes a value, with the value if that has been met. -/
  pending : Option (Flag × Option String)
  files : List String
  /-- The end of the flags has been met. -/
  onlyFiles : Bool

namespace Line

def empty : Line := ⟨[], none, [], false⟩

def give (line : Line) (flag : Flag) (value : String) : Except Stop Line :=
  if (line.given.lookup flag).isSome then .error (.misuse (.repeatedFlag flag))
  else if flag.takesValue && !flag.acceptsValue value then
    .error (.misuse (.badValue flag value))
  else .ok { line with given := line.given ++ [(flag, value)] }

/-- Check the flag that is pending. -/
def settle (line : Line) : Except Stop Line :=
  match line.pending with
  | none => .ok line
  | some (flag, none) => .error (.misuse (.missingValue flag))
  | some (flag, some value) => { line with pending := none }.give flag value

def addFile (line : Line) (file : String) : Except Stop Line := do
  let line ← line.settle
  if file.isEmpty then throw (.misuse .emptyFile)
  return { line with files := line.files ++ [file] }

def awaitsValue (line : Line) : Bool :=
  match line.pending with
  | some (_, none) => !line.onlyFiles
  | _ => false

/-- Take a flag, given the page that explains it and the value that is attached to it. -/
def takeFlag (line : Line) (page : Page) (flag : Flag) (value : Option String) :
    Except Stop Line := do
  if flag.takesValue then
    let line ← line.settle
    match value with
    | some value => line.give flag value
    | none => return { line with pending := some (flag, none) }
  else
    match value with
    | some value => throw (.misuse (.unwantedValue flag value))
    | none =>
        let line ← line.settle
        match flag with
        | .help => throw (.help page true)
        | .version => throw .version
        | _ => line.give flag ""

/-- Take a word that can be no command, where `flags` are known and explained on `page`. -/
def takeWord (line : Line) (flags : List Flag) (page : Page) (word : String) : Except Stop Line :=
  if line.onlyFiles then line.addFile word
  else
    match Word.ofText word, line.pending with
    | .plain value, some (flag, none) => .ok { line with pending := some (flag, some value) }
    | .plain file, _ => line.addFile file
    | .endOfFlags, _ => .ok { line with onlyFiles := true }
    | .long name value, _ =>
        match flags.find? (·.name == name) with
        | some flag => line.takeFlag page flag value
        | none => .error (.misuse (.unknownFlag word))
    | .short letters, _ =>
        match letters.head? with
        | some 'h' => do
            let _ ← line.settle
            throw (.help page false)
        | some 'V' => do
            if !flags.contains .version then throw (.misuse (.unknownFlag word))
            let _ ← line.settle
            throw .version
        | _ => .error (.misuse (.unknownFlag word))

end Line

/-- The page that the words after the command for help name. -/
def helpPage : List String → Except Stop Page
  | [] => .ok .overview
  | [word] =>
      match Tool.ofName? word with
      | some tool => .ok (.ofTool tool)
      | none =>
          if word = Flag.help.name then .ok .ofHelp else .error (.misuse (.unknownCommand word))
  | _ :: word :: _ => .error (.misuse (.unknownCommand word))

/-- Flags behind the name of the tool count before those in front of it. -/
def invocation (tool : Tool) (outer inner : Line) : Invocation :=
  let value := fun flag => (inner.given.lookup flag).or (outer.given.lookup flag)
  { tool := tool
    root := value .root
    settings := value .config
    files := inner.files
    mode := ⟨(value .overwrite).isSome, (value .dump).isSome, (value .diff).isSome⟩
    format := if value .format = some "json" then .json else .text }

def readTool (tool : Tool) (words : List String) : Except Stop Line := do
  (← words.foldlM (fun line word => line.takeWord Flag.ofTool (.ofTool tool) word) Line.empty).settle

/-- Read on in front of the name of the tool. -/
def readFrom (line : Line) : List String → Except Stop Invocation
  | [] => do
      let _ ← line.settle
      throw (.misuse .missingCommand)
  | word :: rest =>
      let commands := !line.awaitsValue && !line.onlyFiles
      match if commands then Tool.ofName? word else none with
      | some tool => do
          let inner ← readTool tool rest
          return invocation tool (← line.settle) inner
      | none => do
          if commands && word == Flag.help.name then throw (.help (← helpPage rest) true)
          let next ← line.takeWord Flag.ofProgram .overview word
          if !next.files.isEmpty then throw (.misuse (.unknownCommand word))
          readFrom next rest

def read (words : List String) : Except Stop Invocation :=
  readFrom Line.empty words

end Requalify.CommandLine
