import KernelIL.CommandLine

/-!
# The command

Reads what an invocation refers to, and prints the response.
-/

namespace KernelIL.CommandLine

/-- The cause of a failed read. Numbers are reported with either sign. -/
def readFailure : IO.Error → ReadFailure
  | .noFileOrDirectory _ code reason | .inappropriateType _ code reason
  | .invalidArgument _ code reason
  | .permissionDenied _ code reason | .resourceExhausted _ code reason
  | .alreadyExists _ code reason | .noSuchThing _ code reason
  | .interrupted _ code reason | .otherError code reason
  | .resourceBusy code reason | .resourceVanished code reason
  | .unsupportedOperation code reason | .hardwareFault code reason
  | .unsatisfiedConstraints code reason | .illegalOperation code reason
  | .protocolError code reason | .timeExpired code reason => .ofCode (min code (-code)).toNat reason
  | .unexpectedEof => .other "unexpected end of file" 0
  | .userError reason => .other reason 0

def readText (bytes : IO ByteArray) : IO (Except ReadFailure String) := do
  try
    match String.fromUTF8? (← bytes) with
    | some text => return .ok text
    | none => return .error .notText
  catch error => return .error (readFailure error)

def readTexts (request : Request) : IO Texts := do
  let .compile invocation := request
    | return ⟨fun _ => .error .missing, .ok ""⟩
  let sourceFile :=
    if invocation.script.isSome then none else invocation.file
  let names := sourceFile.toList ++ invocation.configFile.toList
  let contents ← names.mapM fun (name : String) =>
    return (name, ← readText (IO.FS.readBinFile name))
  let stdin ←
    if invocation.script.isNone && invocation.file.isNone then
      readText (do (← IO.getStdin).readBinToEnd)
    else pure (.ok "")
  return ⟨fun name => (contents.lookup name).getD (.error .missing), stdin⟩

end KernelIL.CommandLine

open KernelIL.CommandLine

def main (arguments : List String) : IO UInt32 := do
  let request := Request.ofArguments arguments
  let response := request.respond (← readTexts request)
  IO.print response.stdout
  IO.eprint response.stderr
  return response.code
