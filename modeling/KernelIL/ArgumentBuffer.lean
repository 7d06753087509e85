import KernelIL.Declarations

/-!
# Argument buffers

The host keeps an image of the constant buffer, laid out as the kernel declared
its arguments. Preparing a launch copies into the mapped buffer what has changed
since the last time; the first time it copies the whole image.
-/

namespace KernelIL

/-- A range of bytes, without its end. -/
structure ByteRange where
  start : Nat
  stop : Nat
deriving DecidableEq, Repr

namespace ByteRange

def read (range : ByteRange) (bytes : List UInt8) : List UInt8 :=
  (bytes.drop range.start).take (range.stop - range.start)

def write (range : ByteRange) (value bytes : List UInt8) : List UInt8 :=
  bytes.take range.start ++ value ++ bytes.drop range.stop

end ByteRange

def ArgumentLayout.range {τ : Type} (layout : ArgumentLayout τ) : ByteRange :=
  ⟨layout.byteOffset, layout.byteOffset + layout.size⟩

/-- An argument, and whether it has changed since it was last copied. -/
structure ArgumentSlot where
  layout : ArgumentLayout ValueType
  dirty : Bool := false
deriving DecidableEq, Repr

/-- The host's image of the constant buffer. -/
structure ArgumentBuffer where
  slots : List ArgumentSlot
  image : List UInt8
  /-- Whether the image has been copied as a whole. -/
  uploaded : Bool := false
deriving DecidableEq, Repr

namespace ArgumentBuffer

/-- An image of zeros for the declared arguments. -/
def ofDeclarations (d : Declarations ValueType) : ArgumentBuffer where
  slots := d.arguments.map fun layout => { layout }
  image := List.replicate (d.bufferRegisters * bytesPerRegister) 0

def slot? (buffer : ArgumentBuffer) (name : String) : Option ArgumentSlot :=
  buffer.slots.find? (·.layout.name == name)

def markDirty (buffer : ArgumentBuffer) (name : String) : ArgumentBuffer :=
  { buffer with
    slots := buffer.slots.map fun slot =>
      if slot.layout.name == name then { slot with dirty := true } else slot }

/-- Sets the bytes of an argument, and says whether they changed. -/
def set (buffer : ArgumentBuffer) (name : String) (value : List UInt8) :
    Except Error (Bool × ArgumentBuffer) :=
  match buffer.slot? name with
  | none => .error (.binding (.unknownArgument name))
  | some ⟨layout, _⟩ =>
    if value.length ≠ layout.size then
      .error (.binding (.size name layout.type layout.size value.length))
    else if layout.range.read buffer.image = value then .ok (false, buffer)
    else
      .ok (true,
        { buffer with image := layout.range.write value buffer.image }
          |>.markDirty name)

def get? (buffer : ArgumentBuffer) (name : String) : Option (List UInt8) :=
  (buffer.slot? name).map fun slot => slot.layout.range.read buffer.image

def isDirty (buffer : ArgumentBuffer) : Bool :=
  !buffer.uploaded || buffer.slots.any (·.dirty)

def pending (buffer : ArgumentBuffer) : List ByteRange :=
  if buffer.uploaded then
    (buffer.slots.filter (·.dirty)).map (·.layout.range)
  else [⟨0, buffer.image.length⟩]

def settled (buffer : ArgumentBuffer) : ArgumentBuffer :=
  { buffer with
    uploaded := true
    slots := buffer.slots.map fun slot => { slot with dirty := false } }

/-- Copies what has changed into a mapped buffer. Returns the copied ranges, the
mapped buffer and the argument buffer. -/
def prepare (buffer : ArgumentBuffer) (mapped : List UInt8) :
    Except Error (List ByteRange × List UInt8 × ArgumentBuffer) :=
  if mapped.length < buffer.image.length then
    .error (.binding (.mapped mapped.length buffer.image.length))
  else
    let copy (mapped : List UInt8) (range : ByteRange) : List UInt8 :=
      range.write (range.read buffer.image) mapped
    .ok (buffer.pending, buffer.pending.foldl copy mapped, buffer.settled)

end ArgumentBuffer

end KernelIL
