/-!
# Files

Texts that are kept in files, and how a path leads to one of them. A place is
the list of names on the way from the root. Directories are not stored: a place
is a directory if the working directory or a file lies below it, or if it is
the working directory itself.

A path is followed name by name, and the first name that leads nowhere decides
why a file cannot be read. Lengths of names and paths are counted in bytes.
-/

namespace KernelIL

/-- Why a file cannot be read. -/
inductive ReadFailure where
  /-- A name that does not exist, or an empty path. -/
  | missing
  /-- A path that goes on after a file. -/
  | notDirectory
  /-- A path that ends at a directory. -/
  | isDirectory
  | nameTooLong
  /-- Contents that are not text. -/
  | notText
  /-- Anything else, with the number that the system gives it. -/
  | other (reason : String) (code : Nat)
deriving DecidableEq, Repr

def ReadFailure.message : ReadFailure → String
  | missing => "No such file or directory (os error 2)"
  | notDirectory => "Not a directory (os error 20)"
  | isDirectory => "Is a directory (os error 21)"
  | nameTooLong => "File name too long (os error 36)"
  | notText => "stream did not contain valid UTF-8"
  | other reason code => s!"{reason} (os error {code})"

def ReadFailure.ofCode (code : Nat) (reason : String) : ReadFailure :=
  match code with
  | 2 => missing
  | 20 => notDirectory
  | 21 => isDirectory
  | 36 => nameTooLong
  | _ => other reason code

/-- Texts by the places of their files. -/
structure Files where
  /-- Place from which paths are followed unless they start at the root. -/
  workingDirectory : List String := []
  texts : List (List String × String) := []
deriving DecidableEq, Repr

namespace Files

def maxNameSize : Nat := 255

def maxPathSize : Nat := 4095

def text? (files : Files) (place : List String) : Option String :=
  files.texts.lookup place

def isDirectory (files : Files) (place : List String) : Bool :=
  place.isPrefixOf files.workingDirectory ||
    files.texts.any fun (file, _) => place.isPrefixOf file && place != file

/-- The place that a name in a place leads to. An empty name and a dot lead
nowhere else, two dots lead to the directory above, which at the root is the
root. -/
def enter (files : Files) (place : List String) (name : String) :
    Except ReadFailure (List String) :=
  let inner := place ++ [name]
  if !files.isDirectory place then .error .notDirectory
  else if name = "" || name = "." then .ok place
  else if name = ".." then .ok place.dropLast
  else if name.utf8ByteSize > maxNameSize then .error .nameTooLong
  else if files.isDirectory inner || (files.text? inner).isSome then .ok inner
  else .error .missing

def follow (files : Files) (path : String) : Except ReadFailure (List String) :=
  let start := if path.startsWith "/" then [] else files.workingDirectory
  (path.splitOn "/").foldlM files.enter start

def read (files : Files) (path : String) : Except ReadFailure String :=
  if path = "" then .error .missing
  else if path.utf8ByteSize > maxPathSize then .error .nameTooLong
  else do
    match files.text? (← files.follow path) with
    | some text => return text
    | none => .error .isDirectory

end Files

end KernelIL
