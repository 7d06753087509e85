import KernelIL.Program.Document
import KernelIL.Proofs.Documents.Json
import Mathlib.Data.List.Nodup

/-!
# Stored programs are read back

A record is written as an object with all its fields, each under a name of its
own, so that the fields are found again by their names.  Numbers are read back
as far as they have the width of their field, and lists, names and texts
always.  So programs and settings are read back, whatever characters their lines
and names are made of.
-/

namespace KernelIL

open List

variable {α : Type} {json : Json} {v : α}

/-- A value that is written as JSON and read back. -/
structure Stored (json : Json) (read : Json → Option α) (v : α) : Prop where
  plain : json.Plain
  read : read json = some v

namespace Json

/-! ## Numbers, names and lists -/

theorem stored_natBelow {n bound : Nat} (h : n < bound) : Stored (ofNat n) (natBelow? bound) n := by
  obtain ⟨c, cs, hdigits, hc, hcs, hv⟩ := Script.exists_digits n
  have htext : (toString n).toList = c :: cs := Nat.toList_repr.trans hdigits
  have hall : (c :: cs).all Char.isDigit = true := all_eq_true.mpr (forall_mem_cons.mpr ⟨hc, hcs⟩)
  constructor
  · exact .ofNat n
  · unfold ofNat natBelow?
    have hfold : (c :: cs).foldl (fun n c => 10 * n + (c.toNat - '0'.toNat)) 0 = n := hv
    simp only [htext, hall, hfold, h, decide_true, Bool.and_self, if_true]

theorem stored_text (text : String) : Stored (ofString text) text? text := ⟨.ofString text, rfl⟩

theorem stored_named {ofName : String → Option α} {name : String} (h : ofName name = some v) :
    Stored (ofString name) (named? ofName) v :=
  ⟨.ofString name, h⟩

theorem stored_list {write : α → Json} {read : Json → Option α}
    {values : List α} (h : ∀ v ∈ values, Stored (write v) read v) :
    Stored (.array (values.map write)) (list? read) values := by
  constructor
  · apply Plain.array
    intro item hitem
    obtain ⟨v, hv, rfl⟩ := mem_map.mp hitem
    exact (h v hv).plain
  · change (values.map write).mapM read = some values
    induction values with
    | nil => rfl
    | cons first rest ih =>
      obtain ⟨hfirst, hrest⟩ := forall_mem_cons.mp h
      rw [map_cons, mapM_cons, hfirst.read, ih hrest]
      rfl

/-! ## Records -/

variable {names : List String} {values : List Json}

theorem mapM_record :
    ((names.zip values).map fun field => (some field.1, field.2)).mapM
        (fun (member : Option String × Json) => member.1.map (·, member.2)) =
      some (names.zip values) := by
  induction names.zip values with
  | nil => rfl
  | cons field fields ih =>
    rw [map_cons, mapM_cons, ih]
    rfl

variable (hnodup : names.Nodup) (hlen : values.length = names.length)

include hnodup hlen

theorem countP_name_zip (name : String) : (names.zip values).countP (·.1 == name) ≤ 1 := by
  have hcount := nodup_iff_count_le_one.mp hnodup name
  rw [← map_fst_zip (Nat.le_of_eq hlen.symm)] at hcount
  rwa [List.count, countP_map] at hcount

theorem map_lookup_zip :
    names.map (fun name => (names.zip values).lookup name) = values.map some := by
  induction names generalizing values with
  | nil =>
    obtain rfl := length_eq_zero_iff.mp hlen
    rfl
  | cons name rest ih =>
    cases values with
    | nil => cases hlen
    | cons v others =>
      obtain ⟨hname, hrest⟩ := nodup_cons.mp hnodup
      have hothers : rest.map (fun other => ((name, v) :: rest.zip others).lookup other) =
          others.map some := by
        rw [← ih hrest (Nat.succ_inj.mp hlen)]
        apply map_congr_left
        intro other hother
        have hne : (other == name) = false := beq_false_of_ne fun heq => hname (heq ▸ hother)
        rw [lookup_cons, hne]
      rw [zip_cons_cons, map_cons, map_cons, hothers, lookup_cons_self]

theorem fields?_record : fields? names (record (names.zip values)) = some (values.map some) := by
  have honce : (names.all fun name =>
      decide ((names.zip values).countP (·.1 == name) ≤ 1)) = true :=
    all_eq_true.mpr fun name _ => decide_eq_true (countP_name_zip hnodup hlen name)
  rw [record, fields?, mapM_record, Option.bind_eq_bind, Option.bind_some, honce,
    map_lookup_zip hnodup hlen]
  rfl

/-- A record whose reader finds every value in its field. -/
theorem stored_record {readFields : List (Option Json) → Option α}
    (hplain : ∀ v ∈ values, Plain v) (hread : readFields (values.map some) = some v) :
    Stored (record (names.zip values)) (fun json => fields? names json >>= readFields) v := by
  constructor
  · apply Plain.record
    intro field hfield
    exact hplain field.2 (of_mem_zip hfield).2
  · rw [fields?_record hnodup hlen]
    exact hread

end Json

/-! ## Settings -/

/-- Every number fits into 32 bits. -/
structure Config.InRange (config : Config) : Prop where
  threadsPerGroup : config.threadsPerGroup < 0x100000000
  wavefrontSize : config.wavefrontSize < 0x100000000
  maxRegisters : config.maxRegisters < 0x100000000
  maxLiterals : config.maxLiterals < 0x100000000

theorem Config.stored {config : Config} (h : config.InRange) :
    Stored config.toJson ofJson? config := by
  have hprofile : Stored (.ofString config.profile.name)
      (Json.named? Profile.ofName?) config.profile :=
    Json.stored_named (by cases config.profile <;> rfl)
  have hthreads := Json.stored_natBelow h.threadsPerGroup
  have hwavefront := Json.stored_natBelow h.wavefrontSize
  have hregs := Json.stored_natBelow h.maxRegisters
  have hliterals := Json.stored_natBelow h.maxLiterals
  apply Json.stored_record (by decide) rfl
  · simp [hprofile.plain, hthreads.plain, hwavefront.plain, hregs.plain, hliterals.plain]
  · simp [optional?, Json.nat32?, hprofile.read, hthreads.read, hwavefront.read,
      hregs.read, hliterals.read]

/-! ## Declarations -/

/-- The number of components fits into 8 bits. -/
def TypeTag.InRange (tag : TypeTag) : Prop := tag.count < 0x100

theorem TypeTag.stored {tag : TypeTag} (h : tag.InRange) : Stored tag.toJson ofJson? tag := by
  have hscalar : Stored (.ofString tag.scalar.name) (Json.named? ScalarKind.ofName?) tag.scalar :=
    Json.stored_named (by cases tag.scalar <;> rfl)
  have hcount := Json.stored_natBelow h
  apply Json.stored_record (by decide) rfl
  · simp [hscalar.plain, hcount.plain]
  · simp [Json.nat8?, hscalar.read, hcount.read]

/-- The numbers of a resource fit into their fields. -/
structure ResourceDecl.InRange (r : ResourceDecl TypeTag) : Prop where
  slot : r.slot < 0x100000000
  element : r.element.InRange

theorem ResourceDecl.stored {r : ResourceDecl TypeTag} (h : r.InRange) :
    Stored r.toJson ofJson? r := by
  have hslot := Json.stored_natBelow h.slot
  have hdimension : Stored (.ofString r.dimension.label)
      (Json.named? Dimension.ofLabel?) r.dimension :=
    Json.stored_named (by cases r.dimension <;> rfl)
  have helement := TypeTag.stored h.element
  apply Json.stored_record (by decide) rfl
  · simp [hslot.plain, hdimension.plain, helement.plain]
  · simp [Json.nat32?, hslot.read, hdimension.read, helement.read]

/-- The numbers of a view fit into their fields. -/
structure UavDecl.InRange (u : UavDecl TypeTag) : Prop where
  id : u.id < 0x100000000
  element : u.element.InRange

theorem UavDecl.stored {u : UavDecl TypeTag} (h : u.InRange) : Stored u.toJson ofJson? u := by
  have hid := Json.stored_natBelow h.id
  have hkind : Stored (.ofString u.kind.label) (Json.named? UavKind.ofLabel?) u.kind :=
    Json.stored_named (by cases u.kind <;> rfl)
  have helement := TypeTag.stored h.element
  apply Json.stored_record (by decide) rfl
  · simp [hid.plain, hkind.plain, helement.plain]
  · simp [Json.nat32?, hid.read, hkind.read, helement.read]

/-- The numbers of a local data store fit into their fields. -/
structure LdsDecl.InRange (s : LdsDecl TypeTag) : Prop where
  id : s.id < 0x100000000
  element : s.element.InRange
  count : s.count < 0x100000000

theorem LdsDecl.stored {s : LdsDecl TypeTag} (h : s.InRange) : Stored s.toJson ofJson? s := by
  have hid := Json.stored_natBelow h.id
  have helement := TypeTag.stored h.element
  have hcount := Json.stored_natBelow h.count
  apply Json.stored_record (by decide) rfl
  · simp [hid.plain, helement.plain, hcount.plain]
  · simp [Json.nat32?, hid.read, helement.read, hcount.read]

/-- The numbers of an indexed array fit into their fields. -/
structure IndexedDecl.InRange (a : IndexedDecl TypeTag) : Prop where
  id : a.id < 0x100000000
  element : a.element.InRange
  length : a.length < 0x100000000

theorem IndexedDecl.stored {a : IndexedDecl TypeTag} (h : a.InRange) :
    Stored a.toJson ofJson? a := by
  have hid := Json.stored_natBelow h.id
  have helement := TypeTag.stored h.element
  have hlen := Json.stored_natBelow h.length
  apply Json.stored_record (by decide) rfl
  · simp [hid.plain, helement.plain, hlen.plain]
  · simp [Json.nat32?, hid.read, helement.read, hlen.read]

/-- The numbers of an argument fit into their fields. -/
structure ArgumentLayout.InRange (a : ArgumentLayout TypeTag) : Prop where
  type : a.type.InRange
  buffer : a.buffer < 0x100000000
  index : a.index < 0x100000000
  component : a.component < 0x100
  byteOffset : a.byteOffset < 0x100000000
  size : a.size < 0x100000000

theorem ArgumentLayout.stored {a : ArgumentLayout TypeTag} (h : a.InRange) :
    Stored a.toJson ofJson? a := by
  have hname := Json.stored_text a.name
  have htype := TypeTag.stored h.type
  have hbuffer := Json.stored_natBelow h.buffer
  have hi := Json.stored_natBelow h.index
  have hcomponent := Json.stored_natBelow h.component
  have hoffset := Json.stored_natBelow h.byteOffset
  have hsize := Json.stored_natBelow h.size
  apply Json.stored_record (by decide) rfl
  · simp [hname.plain, htype.plain, hbuffer.plain, hi.plain,
      hcomponent.plain, hoffset.plain, hsize.plain]
  · simp [Json.nat8?, Json.nat32?, hname.read, htype.read, hbuffer.read,
      hi.read, hcomponent.read, hoffset.read, hsize.read]

/-- The numbers of all declarations fit into their fields. -/
structure Declarations.InRange (d : Declarations TypeTag) : Prop where
  resources : ∀ resource ∈ d.resources, resource.InRange
  uavs : ∀ uav ∈ d.uavs, uav.InRange
  stores : ∀ store ∈ d.stores, store.InRange
  arrays : ∀ array ∈ d.arrays, array.InRange
  arguments : ∀ argument ∈ d.arguments, argument.InRange
  bufferSize : d.bufferSize < 0x100000000

theorem Declarations.stored {d : Declarations TypeTag} (h : d.InRange) :
    Stored d.toJson ofJson? d := by
  have hresources := Json.stored_list fun resource hresource =>
    ResourceDecl.stored (h.resources resource hresource)
  have huavs := Json.stored_list fun uav huav => UavDecl.stored (h.uavs uav huav)
  have hstores := Json.stored_list fun store hstore => LdsDecl.stored (h.stores store hstore)
  have harrays := Json.stored_list fun array harray => IndexedDecl.stored (h.arrays array harray)
  have hargs := Json.stored_list fun argument hargument =>
    ArgumentLayout.stored (h.arguments argument hargument)
  have hbufferSize := Json.stored_natBelow h.bufferSize
  apply Json.stored_record (by decide) rfl
  · simp [hresources.plain, huavs.plain, hstores.plain, harrays.plain,
      hargs.plain, hbufferSize.plain]
  · simp [Json.nat32?, hresources.read, huavs.read, hstores.read, harrays.read,
      hargs.read, hbufferSize.read]

/-! ## Programs -/

/-- The number of registers fits into 32 bits and the other figures into 64. -/
structure ProgramStats.InRange (stats : ProgramStats) : Prop where
  instructions : stats.instructions < 0x10000000000000000
  registers : stats.registers < 0x100000000
  literals : stats.literals < 0x10000000000000000
  functions : stats.functions < 0x10000000000000000

theorem ProgramStats.stored {stats : ProgramStats} (h : stats.InRange) :
    Stored stats.toJson ofJson? stats := by
  have hinstructions := Json.stored_natBelow h.instructions
  have hregs := Json.stored_natBelow h.registers
  have hliterals := Json.stored_natBelow h.literals
  have hfunctions := Json.stored_natBelow h.functions
  apply Json.stored_record (by decide) rfl
  · simp [hinstructions.plain, hregs.plain, hliterals.plain, hfunctions.plain]
  · simp [Json.nat32?, Json.nat64?, hinstructions.read, hregs.read,
      hliterals.read, hfunctions.read]

/-- Every number fits into its field.  Lines and names are free. -/
structure Program.InRange (program : Program) : Prop where
  config : program.config.InRange
  declarations : program.declarations.InRange
  stats : program.stats.InRange

theorem Program.stored {program : Program} (h : program.InRange) :
    Stored program.toJson ofJson? program := by
  have hconfig := Config.stored h.config
  have hlines := Json.stored_list fun line (_ : line ∈ program.lines) => Json.stored_text line
  have hdecls := Declarations.stored h.declarations
  have hstats := ProgramStats.stored h.stats
  apply Json.stored_record (by decide) rfl
  · simp [hconfig.plain, hlines.plain, hdecls.plain, hstats.plain]
  · simp [hconfig.read, hlines.read, hdecls.read, hstats.read]

theorem Stored.parse {read : Json → Option α} (h : Stored json read v) :
    (Json.parse? json.text >>= read) = some v := by
  rw [h.plain.parse?_text]
  exact h.read

/-- A program in range that is stored and read again is the same program, whatever
its lines and names are, and so are settings. -/
theorem stored_documents_read_back :
    (∀ program : Program, program.InRange → Program.parse? program.document = some program) ∧
    ∀ config : Config, config.InRange → Config.parse? config.text = some config := by
  constructor
  · intro program hprogram
    exact (Program.stored hprogram).parse
  · intro config hconfig
    exact (Config.stored hconfig).parse

/-- Numbers at the ends of their ranges, an empty list beside full ones, and
texts with quotes, backslashes and control characters. -/
def extremeProgram : Program where
  config := { profile := .pixel, threadsPerGroup := 0, maxLiterals := 0xFFFFFFFF }
  lines := ["", "\"quoted\" \\u0041\x7b", "\n\r\t\x08\x0c\x00\x1f\x7f", "é€😀"]
  declarations :=
    { uavs := [⟨0xFFFFFFFF, .structured, ⟨.double, 0xFF⟩⟩]
      arguments := [⟨"a\"\\\n", ⟨.uint, 0⟩, 0, 0xFFFFFFFF, 0xFF, 0, 8⟩]
      bufferSize := 0xFFFFFFFF }
  stats := ⟨0xFFFFFFFFFFFFFFFF, 0xFFFFFFFF, 0, 0xFFFFFFFFFFFFFFFF⟩

theorem extremeProgram_inRange : extremeProgram.InRange := by
  have huav : ∀ uav ∈ extremeProgram.declarations.uavs, uav.InRange := by
    intro uav huav
    cases mem_singleton.mp huav
    exact ⟨by decide, Nat.lt_add_one 0xFF⟩
  have hargument : ∀ argument ∈ extremeProgram.declarations.arguments, argument.InRange := by
    intro argument hargument
    cases mem_singleton.mp hargument
    exact ⟨Nat.succ_pos 0xFF, by decide, by decide, by decide, by decide, by decide⟩
  constructor
  · constructor <;> decide
  · exact ⟨forall_mem_nil _, huav, forall_mem_nil _,
      forall_mem_nil _, hargument, by decide⟩
  · constructor <;> decide

theorem stored_documents_read_back_extreme :
    extremeProgram.InRange ∧ Program.parse? extremeProgram.document = some extremeProgram ∧
      Config.parse? extremeProgram.config.text = some extremeProgram.config :=
  ⟨extremeProgram_inRange, stored_documents_read_back.1 extremeProgram extremeProgram_inRange,
    stored_documents_read_back.2 extremeProgram.config extremeProgram_inRange.config⟩

end KernelIL
