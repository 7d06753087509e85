import KernelIL.Json.Reader
import KernelIL.Program

/-!
# Stored programs and settings

Settings and programs are stored as JSON. A record is written as an object with
its fields in order. It is read from an object, whose unknown members are
ignored and whose known ones may not be repeated, or from an array of the fields
in order. Settings that are left out have their usual values; everything else
has to be there. Numbers are natural numbers of a fixed width.
-/

namespace KernelIL

namespace Json

/-- The natural number below a bound that a value is. -/
def natBelow? (bound : Nat) : Json → Option Nat
  | number numeral =>
    let digits := numeral.toList
    let value := digits.foldl (fun n c => 10 * n + (c.toNat - '0'.toNat)) 0
    if digits.all Char.isDigit && value < bound then some value else none
  | _ => none

def nat8? : Json → Option Nat := natBelow? 0x100

def nat32? : Json → Option Nat := natBelow? 0x100000000

def nat64? : Json → Option Nat := natBelow? 0x10000000000000000

def text? : Json → Option String
  | string text => text
  | _ => none

def list? {α : Type} (item : Json → Option α) : Json → Option (List α)
  | array items => items.mapM item
  | _ => none

/-- The name that a value is: a string, or the key of an object with one
member that is null. -/
def name? : Json → Option String
  | string text => text
  | object [(key, null)] => key
  | _ => none

def named? {α : Type} (ofName : String → Option α) (json : Json) : Option α :=
  json.name?.bind ofName

/-- The fields of a record with the given field names, in order. -/
def fields? (names : List String) : Json → Option (List (Option Json))
  | object members => do
      let keyed ← members.mapM fun (key, value) => key.map (·, value)
      guard (names.all fun name => keyed.countP (·.1 == name) ≤ 1)
      return names.map fun name => keyed.lookup name
  | array items => do
      guard (items.length ≤ names.length)
      return items.map some ++
        List.replicate (names.length - items.length) none
  | _ => none

end Json

namespace Config

def fieldNames : List String :=
  ["profile", "threads_per_group", "wavefront_size", "max_registers", "max_literals"]

def toJson (config : Config) : Json :=
  .record (fieldNames.zip
    [.ofString config.profile.name, .ofNat config.threadsPerGroup,
      .ofNat config.wavefrontSize, .ofNat config.maxRegisters,
      .ofNat config.maxLiterals])

/-- A field that may be left out. -/
def optional? {α : Type} (usual : α) (read : Json → Option α) :
    Option Json → Option α
  | none => some usual
  | some json => read json

def ofJson? (json : Json) : Option Config := do
  let usual : Config := {}
  let [profile, threads, wavefront, registers, literals] ←
    json.fields? fieldNames | none
  return {
    profile := ← optional? usual.profile (·.named? Profile.ofName?) profile
    threadsPerGroup := ← optional? usual.threadsPerGroup Json.nat32? threads
    wavefrontSize := ← optional? usual.wavefrontSize Json.nat32? wavefront
    maxRegisters := ← optional? usual.maxRegisters Json.nat32? registers
    maxLiterals := ← optional? usual.maxLiterals Json.nat32? literals }

def text (config : Config) : String :=
  config.toJson.text

def parse? (text : String) : Option Config := do
  ofJson? (← Json.parse? text)

end Config

namespace TypeTag

def fieldNames : List String := ["scalar", "count"]

def toJson (tag : TypeTag) : Json :=
  .record (fieldNames.zip [.ofString tag.scalar.name, .ofNat tag.count])

def ofJson? (json : Json) : Option TypeTag := do
  let [some scalar, some count] ← json.fields? fieldNames | none
  return {
    scalar := ← scalar.named? ScalarKind.ofName?
    count := ← count.nat8? }

end TypeTag

namespace ResourceDecl

def fieldNames : List String := ["slot", "dim", "element"]

def toJson (r : ResourceDecl TypeTag) : Json :=
  .record (fieldNames.zip [.ofNat r.slot, .ofString r.dimension.label, r.element.toJson])

def ofJson? (json : Json) : Option (ResourceDecl TypeTag) := do
  let [some slot, some dimension, some element] ←
    json.fields? fieldNames | none
  return {
    slot := ← slot.nat32?
    dimension := ← dimension.named? Dimension.ofLabel?
    element := ← TypeTag.ofJson? element }

end ResourceDecl

namespace UavDecl

def fieldNames : List String := ["id", "kind", "element"]

def toJson (u : UavDecl TypeTag) : Json :=
  .record (fieldNames.zip [.ofNat u.id, .ofString u.kind.label, u.element.toJson])

def ofJson? (json : Json) : Option (UavDecl TypeTag) := do
  let [some id, some kind, some element] ← json.fields? fieldNames | none
  return {
    id := ← id.nat32?
    kind := ← kind.named? UavKind.ofLabel?
    element := ← TypeTag.ofJson? element }

end UavDecl

namespace LdsDecl

def fieldNames : List String := ["id", "element", "count"]

def toJson (s : LdsDecl TypeTag) : Json :=
  .record (fieldNames.zip [.ofNat s.id, s.element.toJson, .ofNat s.count])

def ofJson? (json : Json) : Option (LdsDecl TypeTag) := do
  let [some id, some element, some count] ← json.fields? fieldNames | none
  return {
    id := ← id.nat32?
    element := ← TypeTag.ofJson? element
    count := ← count.nat32? }

end LdsDecl

namespace IndexedDecl

def fieldNames : List String := ["id", "element", "len"]

def toJson (a : IndexedDecl TypeTag) : Json :=
  .record (fieldNames.zip [.ofNat a.id, a.element.toJson, .ofNat a.length])

def ofJson? (json : Json) : Option (IndexedDecl TypeTag) := do
  let [some id, some element, some length] ← json.fields? fieldNames | none
  return {
    id := ← id.nat32?
    element := ← TypeTag.ofJson? element
    length := ← length.nat32? }

end IndexedDecl

namespace ArgumentLayout

def fieldNames : List String :=
  ["name", "ty", "cb", "index", "component", "byte_offset", "size"]

def toJson (a : ArgumentLayout TypeTag) : Json :=
  .record (fieldNames.zip
    [.ofString a.name, a.type.toJson, .ofNat a.buffer, .ofNat a.index,
      .ofNat a.component, .ofNat a.byteOffset, .ofNat a.size])

def ofJson? (json : Json) : Option (ArgumentLayout TypeTag) := do
  let [some name, some type, some buffer, some index, some component,
      some byteOffset, some size] ← json.fields? fieldNames | none
  return {
    name := ← name.text?
    type := ← TypeTag.ofJson? type
    buffer := ← buffer.nat32?
    index := ← index.nat32?
    component := ← component.nat8?
    byteOffset := ← byteOffset.nat32?
    size := ← size.nat32? }

end ArgumentLayout

namespace Declarations

def fieldNames : List String :=
  ["resources", "uavs", "lds", "indexed", "args", "cb_size"]

def toJson (d : Declarations TypeTag) : Json :=
  .record (fieldNames.zip
    [.array (d.resources.map ResourceDecl.toJson), .array (d.uavs.map UavDecl.toJson),
      .array (d.stores.map LdsDecl.toJson),
      .array (d.arrays.map IndexedDecl.toJson),
      .array (d.arguments.map ArgumentLayout.toJson),
      .ofNat d.bufferSize])

def ofJson? (json : Json) : Option (Declarations TypeTag) := do
  let [some resources, some uavs, some stores, some arrays, some arguments,
      some bufferSize] ← json.fields? fieldNames | none
  return {
    resources := ← resources.list? ResourceDecl.ofJson?
    uavs := ← uavs.list? UavDecl.ofJson?
    stores := ← stores.list? LdsDecl.ofJson?
    arrays := ← arrays.list? IndexedDecl.ofJson?
    arguments := ← arguments.list? ArgumentLayout.ofJson?
    bufferSize := ← bufferSize.nat32? }

end Declarations

namespace ProgramStats

def fieldNames : List String :=
  ["instructions", "registers", "literals", "functions"]

def toJson (s : ProgramStats) : Json :=
  .record (fieldNames.zip
    [.ofNat s.instructions, .ofNat s.registers, .ofNat s.literals, .ofNat s.functions])

def ofJson? (json : Json) : Option ProgramStats := do
  let [some instructions, some registers, some literals, some functions] ←
    json.fields? fieldNames | none
  return {
    instructions := ← instructions.nat64?
    registers := ← registers.nat32?
    literals := ← literals.nat64?
    functions := ← functions.nat64? }

end ProgramStats

namespace Program

def fieldNames : List String := ["config", "lines", "declarations", "stats"]

def toJson (p : Program) : Json :=
  .record (fieldNames.zip
    [p.config.toJson, .array (p.lines.map .ofString), p.declarations.toJson, p.stats.toJson])

def ofJson? (json : Json) : Option Program := do
  let [some config, some lines, some declarations, some stats] ←
    json.fields? fieldNames | none
  return {
    config := ← Config.ofJson? config
    lines := ← lines.list? Json.text?
    declarations := ← Declarations.ofJson? declarations
    stats := ← ProgramStats.ofJson? stats }

def document (p : Program) : String :=
  p.toJson.text

def parse? (text : String) : Option Program := do
  ofJson? (← Json.parse? text)

end Program

end KernelIL
