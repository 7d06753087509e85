/-!
# JSON values and their text

Values keep numerals as they are written and the members of an object in order,
repeated keys included. The writer puts every item of an array and every member
of an object on a line of its own, indented by two spaces a level.
-/

namespace KernelIL

inductive Json where
  | null
  | bool (value : Bool)
  /-- A number, by its numeral. -/
  | number (numeral : String)
  /-- A string; `none` if its escapes name half of a surrogate pair, so that it
  spells no text. -/
  | string (text : Option String)
  | array (items : List Json)
  | object (members : List (Option String × Json))

namespace Json

def ofNat (n : Nat) : Json := .number (toString n)

def ofString (text : String) : Json := .string (some text)

def record (fields : List (String × Json)) : Json :=
  .object (fields.map fun field => (some field.1, field.2))

def hexUnit (n : Nat) : List Char :=
  let digits := Nat.toDigits 16 n
  List.replicate (4 - digits.length) '0' ++ digits

/-- A character inside a string. Quotes, backslashes and control characters
are escaped. -/
def escape (c : Char) : List Char :=
  if c = '"' then ['\\', '"']
  else if c = '\\' then ['\\', '\\']
  else if c = '\x08' then ['\\', 'b']
  else if c = '\x0c' then ['\\', 'f']
  else if c = '\n' then ['\\', 'n']
  else if c = '\r' then ['\\', 'r']
  else if c = '\t' then ['\\', 't']
  else if c.toNat < 0x20 then '\\' :: 'u' :: hexUnit c.toNat
  else [c]

def quoted (text : String) : List Char :=
  '"' :: text.toList.flatMap escape ++ ['"']

def newLine (level : Nat) : List Char :=
  '\n' :: List.replicate (2 * level) ' '

mutual

def render (level : Nat) : Json → List Char
  | null => "null".toList
  | bool value => (if value then "true" else "false").toList
  | number numeral => numeral.toList
  | string text => quoted (text.getD "")
  | array [] => ['[', ']']
  | array (first :: rest) =>
    '[' :: newLine (level + 1) ++ render (level + 1) first ++
      renderItems (level + 1) rest ++ newLine level ++ [']']
  | object [] => ['\x7b', '\x7d']
  | object ((key, first) :: rest) =>
    '\x7b' :: newLine (level + 1) ++ quoted (key.getD "") ++ [':', ' '] ++
      render (level + 1) first ++ renderMembers (level + 1) rest ++
      newLine level ++ ['\x7d']

def renderItems (level : Nat) : List Json → List Char
  | [] => []
  | first :: rest => ',' :: newLine level ++ render level first ++ renderItems level rest

def renderMembers (level : Nat) : List (Option String × Json) → List Char
  | [] => []
  | (key, first) :: rest =>
    ',' :: newLine level ++ quoted (key.getD "") ++ [':', ' '] ++
      render level first ++ renderMembers level rest

end

def text (json : Json) : String :=
  String.ofList (json.render 0)

end Json

end KernelIL
