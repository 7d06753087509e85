import KernelIL.Compile
import KernelIL.Files
import KernelIL.Program.Document

/-!
# The command line

The arguments of the command are read into an invocation, and the response to an
invocation is a function of the texts it refers to. Flags take their value from
the next argument, after an equals sign, or, in their short form, from the rest
of the argument. Short flags can be joined, no flag may be given twice, and two
dashes end the flags.
-/

namespace KernelIL.CommandLine

inductive Flag where
  | script
  | config
  | threads
  | wavefront
  | profile
  | json
  | verbose
  | version
deriving DecidableEq, Repr

namespace Flag

def all : List Flag :=
  [script, config, threads, wavefront, profile, json, verbose, version]

def long : Flag → String
  | script => "expr"
  | config => "config"
  | threads => "threads"
  | wavefront => "wavefront"
  | profile => "profile"
  | json => "json"
  | verbose => "verbose"
  | version => "version"

def short : Flag → Char
  | script => 'e'
  | config => 'c'
  | threads => 't'
  | wavefront => 'w'
  | profile => 'p'
  | json => 'j'
  | verbose => 'v'
  | version => 'V'

def takesValue : Flag → Bool
  | json | verbose | version => false
  | _ => true

end Flag

structure Invocation where
  file : Option String := none
  script : Option String := none
  configFile : Option String := none
  threads : Option Nat := none
  wavefront : Option Nat := none
  profile : Option Profile := none
  json : Bool := false
  verbose : Bool := false
deriving DecidableEq, Repr

/-- A 32-bit number in decimal, with an optional sign. -/
def readNumber? (text : String) : Option Nat :=
  let digits? (digits : List Char) : Option Nat :=
    let value := Decimal.ofDigits digits
    if digits ≠ [] && digits.all Char.isDigit && value < 0x100000000 then
      some value
    else none
  match text.toList with
  | '+' :: digits => digits? digits
  | '-' :: digits => (digits? digits).filter (· = 0)
  | digits => digits? digits

/-- A field that has not been set, set. -/
def setOnce {α : Type} (old : Option α) (new : Option α) : Option (Option α) :=
  match old, new with
  | none, some value => some (some value)
  | _, _ => none

namespace Invocation

def setValue? (invocation : Invocation) (flag : Flag) (value : String) : Option Invocation :=
  match flag with
  | .script => do
      return { invocation with script := ← setOnce invocation.script value }
  | .config => do
      return { invocation with
        configFile := ← setOnce invocation.configFile value }
  | .threads => do
      return { invocation with
        threads := ← setOnce invocation.threads (readNumber? value) }
  | .wavefront => do
      return { invocation with
        wavefront := ← setOnce invocation.wavefront (readNumber? value) }
  | .profile => do
      return { invocation with
        profile := ← setOnce invocation.profile (Profile.parse? value) }
  | _ => none

def setSwitch? (invocation : Invocation) (flag : Flag) : Option Invocation :=
  match flag, invocation.json, invocation.verbose with
  | .json, false, _ => some { invocation with json := true }
  | .verbose, _, false => some { invocation with verbose := true }
  | _, _, _ => none

def setFile? (invocation : Invocation) (file : String) : Option Invocation :=
  do return { invocation with file := ← setOnce invocation.file file }

end Invocation

inductive Request where
  | compile (invocation : Invocation)
  | version
  | invalid
deriving DecidableEq, Repr

inductive ArgumentStep where
  | next (invocation : Invocation)
  /-- The next argument is the value of a flag. -/
  | needsValue (flag : Flag) (invocation : Invocation)
  | version
  | invalid
deriving DecidableEq, Repr

def ArgumentStep.ofInvocation? : Option Invocation → ArgumentStep
  | some invocation => .next invocation
  | none => .invalid

def readShort (invocation : Invocation) : List Char → ArgumentStep
  | [] => .next invocation
  | letter :: rest =>
    match Flag.all.find? (·.short == letter) with
    | none => .invalid
    | some .version => .version
    | some flag =>
      if flag.takesValue then
        match rest with
        | [] => .needsValue flag invocation
        | '=' :: value => .ofInvocation? (invocation.setValue? flag (String.ofList value))
        | value => .ofInvocation? (invocation.setValue? flag (String.ofList value))
      else
        match invocation.setSwitch? flag with
        | some invocation => readShort invocation rest
        | none => .invalid

/-- Reads a long flag, which may carry its value after an equals sign. -/
def readLong (invocation : Invocation) (text : List Char) : ArgumentStep :=
  let name := String.ofList (text.takeWhile (· ≠ '='))
  let attached := text.dropWhile (· ≠ '=')
  match Flag.all.find? (·.long == name), attached with
  | none, _ => .invalid
  | some .version, [] => .version
  | some flag, [] =>
    if flag.takesValue then .needsValue flag invocation
    else .ofInvocation? (invocation.setSwitch? flag)
  | some flag, _ :: value =>
    if flag.takesValue then
      .ofInvocation? (invocation.setValue? flag (String.ofList value))
    else .invalid

/-- Reads one argument. A dash alone is a file name. -/
def readArgument (invocation : Invocation) (argument : String) :
    ArgumentStep :=
  match argument.toList with
  | '-' :: '-' :: text => readLong invocation text
  | '-' :: letter :: rest => readShort invocation (letter :: rest)
  | _ => .ofInvocation? (invocation.setFile? argument)

/-- Whether an argument cannot be the value of the flag before it. -/
def looksLikeFlag (argument : String) : Bool :=
  match argument.toList with
  | '-' :: _ :: _ => true
  | _ => false

def readFiles (invocation : Invocation) (files : List String) : Request :=
  match files.foldlM Invocation.setFile? invocation with
  | some invocation => .compile invocation
  | none => .invalid

def readArguments (invocation : Invocation) : List String → Request
  | [] => .compile invocation
  | argument :: rest =>
    if argument = "--" then readFiles invocation rest
    else
      match readArgument invocation argument with
      | .invalid => .invalid
      | .version => .version
      | .next invocation => readArguments invocation rest
      | .needsValue flag invocation =>
        match rest with
        | [] => .invalid
        | value :: rest =>
          if looksLikeFlag value then .invalid
          else
            match invocation.setValue? flag value with
            | some invocation => readArguments invocation rest
            | none => .invalid

def Request.ofArguments (arguments : List String) : Request :=
  readArguments {} arguments

structure Response where
  code : UInt32
  stdout : String := ""
  stderr : String := ""
deriving DecidableEq, Repr

def Response.failure (what message stdout : String) : Response :=
  ⟨1, stdout, what ++ ": " ++ message ++ "\n"⟩

/-- Texts that an invocation refers to: files by path, and the standard input.
Each of them may be unreadable. -/
structure Texts where
  file : String → Except ReadFailure String
  stdin : Except ReadFailure String

namespace Invocation

/-- The script: given directly, in a file, or on the standard input. -/
def source (invocation : Invocation) (texts : Texts) : Except Response String :=
  match invocation.script, invocation.file with
  | some script, _ => .ok script
  | none, some file =>
    (texts.file file).mapError fun reason =>
      .failure "Error" s!"Failed to read file '{file}': {reason.message}" ""
  | none, none =>
    texts.stdin.mapError fun reason =>
      .failure "Error" s!"Failed to read stdin: {reason.message}" ""

/-- The settings before the script is known. -/
def baseConfig (invocation : Invocation) (texts : Texts) : Except Response Config :=
  match invocation.configFile with
  | none => .ok {}
  | some file =>
    match texts.file file with
    | .error reason =>
      .error (.failure "Error" s!"Failed to read config '{file}': {reason.message}" "")
    | .ok text =>
      match Config.parse? text with
      | some config => .ok config
      | none => .error (.failure "Config error" (Error.generation .invalidConfig).message "")

/-- Settings with those given as flags in place of others. -/
def configure (invocation : Invocation) (config : Config) : Config :=
  { config with
    threadsPerGroup := invocation.threads.getD config.threadsPerGroup
    wavefrontSize := invocation.wavefront.getD config.wavefrontSize
    profile := invocation.profile.getD config.profile }

def banner (config : Config) : String :=
  String.join (
    ["Kernel Script to IL Compiler", "".pushn '=' 35, "",
      s!"Target: {config.profile.name} ({config.threadsPerGroup} threads " ++
        s!"per group, wavefront {config.wavefrontSize})", ""].map (· ++ "\n"))

def programText (invocation : Invocation) (program : Program) : String :=
  if invocation.json then program.document ++ "\n"
  else if invocation.verbose then program.summary ++ "\n" ++ program.text
  else program.text

/-- The response to an invocation, or the failure that ends it. Settings in the
script replace those of the settings file, and flags replace both. -/
def run (invocation : Invocation) (texts : Texts) :
    Except Response Response := do
  let source ← invocation.source texts
  let base ← invocation.baseConfig texts
  let script ← (analyze source).mapError fun error => .failure "Compilation error" error.message ""
  let config := invocation.configure (script.configure base)
  let opening := if invocation.verbose then banner config else ""
  let program ← (Script.Generator.generate { config } script).1.mapError
    fun error => .failure "Code generation error" error.message opening
  return ⟨0, opening ++ invocation.programText program, ""⟩

end Invocation

def versionText : String := "expr2il 0.1.0\n"

def Request.respond (request : Request) (texts : Texts) : Response :=
  match request with
  | .invalid => ⟨2, "", "error: invalid arguments\n"⟩
  | .version => ⟨0, versionText, ""⟩
  | .compile invocation =>
    match invocation.run texts with
    | .ok response => response
    | .error response => response

end KernelIL.CommandLine
