import KernelIL.Config
import KernelIL.Error

/-!
# Declarations

What a kernel declares in its header: input resources, unordered-access views,
local data stores, indexed arrays and the placement of its arguments in the
constant buffer. The records are parametric in how element types are written,
because a stored program may name types that no kernel can be built with.
-/

namespace KernelIL

/-- A sampled input. -/
structure ResourceDecl (τ : Type) where
  slot : Nat
  dimension : Dimension
  element : τ
deriving DecidableEq, Repr

/-- An unordered-access view. -/
structure UavDecl (τ : Type) where
  id : Nat
  kind : UavKind
  element : τ
deriving DecidableEq, Repr

/-- A local data store. -/
structure LdsDecl (τ : Type) where
  id : Nat
  element : τ
  count : Nat
deriving DecidableEq, Repr

/-- An indexed array of temporaries. -/
structure IndexedDecl (τ : Type) where
  id : Nat
  element : τ
  length : Nat
deriving DecidableEq, Repr

/-- Placement of a kernel argument in the constant buffer. -/
structure ArgumentLayout (τ : Type) where
  name : String
  type : τ
  buffer : Nat
  index : Nat
  /-- First lane within the register. -/
  component : Nat
  byteOffset : Nat
  size : Nat
deriving DecidableEq, Repr

/-- An argument as an operand: lanes of a constant buffer register. -/
def ArgumentLayout.operand (layout : ArgumentLayout ValueType) : Operand :=
  { base := .constant layout.index
    lanes := (Lane.all.drop layout.component).take layout.type.lanes }

/-- All declarations, each list in order of declaration. -/
structure Declarations (τ : Type) where
  resources : List (ResourceDecl τ) := []
  uavs : List (UavDecl τ) := []
  stores : List (LdsDecl τ) := []
  arrays : List (IndexedDecl τ) := []
  arguments : List (ArgumentLayout τ) := []
  /-- Bytes of the constant buffer up to the end of the last argument. -/
  bufferSize : Nat := 0
deriving DecidableEq, Repr

def bytesPerRegister : Nat := 16

/-- The least multiple of `unit` that is at least `n`. -/
def roundUp (n unit : Nat) : Nat :=
  (n + (unit - 1)) / unit * unit

namespace Declarations

variable {τ σ : Type}

def map (f : τ → σ) (d : Declarations τ) : Declarations σ where
  resources := d.resources.map fun r => { r with element := f r.element }
  uavs := d.uavs.map fun u => { u with element := f u.element }
  stores := d.stores.map fun s => { s with element := f s.element }
  arrays := d.arrays.map fun a => { a with element := f a.element }
  arguments := d.arguments.map fun a => { a with type := f a.type }
  bufferSize := d.bufferSize

/-- Registers of the constant buffer that hold all arguments. -/
def bufferRegisters (d : Declarations τ) : Nat :=
  (d.bufferSize + (bytesPerRegister - 1)) / bytesPerRegister

def argument? (d : Declarations τ) (name : String) : Option (ArgumentLayout τ) :=
  d.arguments.find? (·.name == name)

def addResource (d : Declarations ValueType) (slot : Nat)
    (dimension : Dimension) (element : ValueType) :
    Except Error (Declarations ValueType) :=
  if d.resources.any (·.slot == slot) then
    .error (.duplicate (.resource slot))
  else .ok { d with resources := d.resources ++ [⟨slot, dimension, element⟩] }

def addUav (d : Declarations ValueType) (id : Nat) (kind : UavKind)
    (element : ValueType) : Except Error (Declarations ValueType) :=
  if d.uavs.any (·.id == id) then .error (.duplicate (.uav id))
  else .ok { d with uavs := d.uavs ++ [⟨id, kind, element⟩] }

def addStore (d : Declarations ValueType) (id : Nat) (element : ValueType)
    (count : Nat) : Except Error (Declarations ValueType) :=
  if d.stores.any (·.id == id) then .error (.duplicate (.lds id))
  else .ok { d with stores := d.stores ++ [⟨id, element, count⟩] }

def addArray (d : Declarations ValueType) (id : Nat) (element : ValueType)
    (length : Nat) : Except Error (Declarations ValueType) :=
  if d.arrays.any (·.id == id) then .error (.duplicate (.indexed id))
  else .ok { d with arrays := d.arrays ++ [⟨id, element, length⟩] }

/-- Placement of the next argument: after the previous ones, aligned to its own
size. -/
def place (d : Declarations ValueType) (name : String) (type : ValueType) :
    ArgumentLayout ValueType :=
  let offset := roundUp d.bufferSize type.byteSize
  { name, type
    buffer := 0
    index := offset / bytesPerRegister
    component := offset % bytesPerRegister / 4
    byteOffset := offset
    size := type.byteSize }

def addArgument (d : Declarations ValueType) (name : String) (type : ValueType) :
    Except Error (ArgumentLayout ValueType × Declarations ValueType) :=
  if (d.argument? name).isSome then .error (.duplicate (.name name))
  else
    let layout := d.place name type
    .ok (layout,
      { d with
        arguments := d.arguments ++ [layout]
        bufferSize := layout.byteOffset + layout.size })

/-- Declares what a view needs; `length` is the number of elements of a local
data store or an indexed array. The global buffer needs nothing. -/
def addView (d : Declarations ValueType) (view : View) (length : Nat) :
    Except Error (Declarations ValueType) :=
  match view.kind with
  | .input slot dimension => d.addResource slot dimension view.element
  | .global => .ok d
  | .indexed id => d.addArray id view.element length
  | .lds id => d.addStore id view.element length
  | .uav id kind _ => d.addUav id kind view.element

end Declarations

def ResourceDecl.line (r : ResourceDecl ValueType) : String :=
  let format := r.element.scalar.formatName
  s!"dcl_resource_id({r.slot})_type({r.dimension.text},unnorm)" ++
    s!"_fmtx({format})_fmty({format})_fmtz({format})_fmtw({format})"

def UavDecl.line (u : UavDecl ValueType) : String :=
  match u.kind with
  | .raw => s!"dcl_raw_uav_id({u.id})"
  | .structured => s!"dcl_struct_uav_id({u.id}) {u.element.byteSize}"
  | .typed => s!"dcl_typed_uav_id({u.id})_type(buffer)_fmtx(" ++ u.element.scalar.formatName ++ ")"

def LdsDecl.line (s : LdsDecl ValueType) : String :=
  s!"dcl_struct_lds_id({s.id}) {s.element.byteSize},{s.count}"

def IndexedDecl.line (a : IndexedDecl ValueType) : String :=
  s!"dcl_indexed_temp_array x{a.id}[{a.length}]"

/-- Header lines of a program, up to its literals. -/
def Declarations.header (d : Declarations ValueType) (config : Config) : List String :=
  let buffer :=
    if d.arguments.isEmpty then [] else [s!"dcl_cb cb0[{d.bufferRegisters}]"]
  let threads :=
    match config.profile with
    | .compute => [s!"dcl_num_thread_per_group {config.threadsPerGroup}"]
    | .pixel => []
  config.profile.header :: buffer ++ threads ++ d.stores.map LdsDecl.line ++
    d.arrays.map IndexedDecl.line ++ d.resources.map ResourceDecl.line ++
    d.uavs.map UavDecl.line

end KernelIL
