import KernelIL.Proofs.Meaning.Machine
import KernelIL.Script.Typed

/-!
# Direct execution of scripts

A script without memory is executed statement by statement over a store that
gives every variable its value.  A value is the list of the words of its
components.  Operations are applied to components, without registers, templates
for several instructions, or an order in which components are computed.

A loop may go on for ever, so execution has a bound on the rounds of every loop
and has no result if one of them needs more.
-/

namespace KernelIL

namespace Interpretation

variable (meaning : Interpretation)

/-- A component with its sign flipped, which is in the last word. -/
def flip : List UInt32 → List UInt32
  | [] => []
  | [word] => [meaning.negate word]
  | word :: rest => word :: flip rest

def unary (template : UnaryTemplate) (a : List UInt32) : List UInt32 :=
  match template with
  | .direct mnemonic | .unrolled mnemonic => meaning.component mnemonic [a]
  | .move => a
  | .flipSign => meaning.flip a
  | .maxNegated => meaning.component "imax" [a, meaning.component "inegate" [a]]
  | .maxFlipped mnemonic => meaning.component mnemonic [a, meaning.flip a]
  | .scaled mnemonic factor scaleFirst =>
    if scaleFirst then
      meaning.component mnemonic [meaning.component "mul" [a, [factor]]]
    else meaning.component "mul" [meaning.component mnemonic [a], [factor]]

/-- One component of an operation on two operands. -/
def binary (template : BinaryTemplate) (a b : List UInt32) : List UInt32 :=
  match template with
  | .direct mnemonic => meaning.component mnemonic [a, b]
  | .swapped mnemonic => meaning.component mnemonic [b, a]
  | .addNegated => meaning.component "iadd" [a, meaning.component "inegate" [b]]
  | .addFlipped mnemonic => meaning.component mnemonic [a, meaning.flip b]
  | .gathered mnemonic swap => meaning.component mnemonic (if swap then [b, a] else [a, b])

def ternary (template : TernaryTemplate) (a b c : List UInt32) : List UInt32 :=
  match template with
  | .direct mnemonic => meaning.component mnemonic [a, b, c]

end Interpretation

/-- A value put together from its components. -/
def ValueType.assemble (type : ValueType) (component : Nat → List UInt32) : List UInt32 :=
  (List.range type.count).flatMap component

def ValueType.componentOf (type : ValueType) (w : List UInt32) (k : Nat) : List UInt32 :=
  KernelIL.componentOf type.scalar.laneWidth w k

/-- The words that a swizzle selects from a value. -/
def Swizzle.selectWords (swizzle : Swizzle) (src : ValueType)
    (w : List UInt32) : List UInt32 :=
  (swizzle.positions src.scalar).filterMap (w[·]?)

/-- A value whose words at some positions have been replaced. -/
def replaceWords (w : List UInt32) (positions : List Nat) (new : List UInt32) : List UInt32 :=
  w.mapIdx fun pos word => ((positions.zip new).lookup pos).getD word

/-- A value of which everything, or the lanes of a swizzle, have been
assigned. -/
def ValueType.update (type : ValueType) (lanes : Option Swizzle)
    (w new : List UInt32) : List UInt32 :=
  match lanes with
  | none => new
  | some swizzle => replaceWords w (swizzle.positions type.scalar) new

namespace Script

/-- Values of variables. -/
abbrev Store := String → List UInt32

def Store.set (store : Store) (name : String) (v : List UInt32) : Store :=
  fun other => if other = name then v else store other

/-- What a script is executed with. -/
structure Inputs where
  meaning : Interpretation
  arguments : String → List UInt32
  builtins : Builtin → Lane → UInt32

/-- The value of an expression.  Elements of views have none. -/
def TypedExpr.eval (inputs : Inputs) (store : Store) :
    TypedExpr → List UInt32
  | .literal type w => w.toList.take type.lanes
  | .var _ name => store name
  | .argument _ name => inputs.arguments name
  | .builtin src => (Lane.first src.type.lanes).map (inputs.builtins src)
  | .unary _ op a =>
    match op.specialize? a.type with
    | none => []
    | some spec => a.type.assemble fun k =>
      inputs.meaning.unary spec.template (a.type.componentOf (a.eval inputs store) k)
  | .binary _ op a b =>
    match op.specialize? a.type b.type with
    | none => []
    | some spec => a.type.assemble fun k =>
      inputs.meaning.binary spec.template (a.type.componentOf (a.eval inputs store) k)
        (b.type.componentOf (b.eval inputs store) k)
  | .ternary _ op a b c =>
    match op.specialize? a.type b.type c.type with
    | none => []
    | some spec => a.type.assemble fun k =>
      inputs.meaning.ternary spec.template (a.type.componentOf (a.eval inputs store) k)
        (b.type.componentOf (b.eval inputs store) k)
        (c.type.componentOf (c.eval inputs store) k)
  | .swizzle _ selection base => selection.selectWords base.type (base.eval inputs store)
  | .load .. => []

def TypedExpr.holds (inputs : Inputs) (store : Store) (cond : TypedExpr) :
    Bool :=
  (cond.eval inputs store).headD 0 != 0

def TypedValue.eval (inputs : Inputs) (store : Store) :
    TypedValue → List UInt32
  | .expr v => v.eval inputs store
  | .fetch _ => []

/-- How statements end: at their end, or by leaving or restarting the loop
around them. -/
inductive Outcome where
  | done
  | leave
  | again
deriving DecidableEq, Repr

/-- An execution that goes on if the first part ends at its end. -/
def sequence (first next : Store → Option (Outcome × Store)) (store : Store) :
    Option (Outcome × Store) :=
  match first store with
  | some (.done, after) => next after
  | other => other

/-- The rounds of a loop, at most as many as the bound says. -/
def rounds (cond : Store → Bool) (body : Store → Option (Outcome × Store)) :
    Nat → Store → Option (Outcome × Store)
  | 0, _ => none
  | bound + 1, store =>
    if cond store then
      match body store with
      | none => none
      | some (.leave, after) => some (.done, after)
      | some (_, after) => rounds cond body bound after
    else some (.done, store)

mutual

def TypedStatement.exec (inputs : Inputs) (bound : Nat) :
    TypedStatement → Store → Option (Outcome × Store)
  | .var name _ (some v), store => some (.done, store.set name (v.eval inputs store))
  | .assign name type lanes v, store =>
    some (.done, store.set name (type.update lanes (store name) (v.eval inputs store)))
  | .ifThen cond body, store =>
    if cond.holds inputs store then execBlock inputs bound body store
    else some (.done, store)
  | .ifElse cond body otherwise, store =>
    if cond.holds inputs store then execBlock inputs bound body store
    else execBlock inputs bound otherwise store
  | .loop cond body, store => rounds (cond.holds inputs) (execBlock inputs bound body) bound store
  | .leave, store => some (.leave, store)
  | .again, store => some (.again, store)
  | _, store => some (.done, store)

/-- Executes statements until one of them does not end at its end. -/
def execBlock (inputs : Inputs) (bound : Nat) :
    List TypedStatement → Store → Option (Outcome × Store)
  | [], store => some (.done, store)
  | first :: rest, store => sequence (first.exec inputs bound) (execBlock inputs bound rest) store

end

/-- Execution of a block comes to its end, with a certain store. -/
def Executes (inputs : Inputs) (block : List TypedStatement) (store after : Store) : Prop :=
  ∃ bound, execBlock inputs bound block store = some (.done, after)

/-! ## The fragment without memory -/

def TypedExpr.memoryFree : TypedExpr → Bool
  | .literal .. | .var .. | .argument .. | .builtin _ => true
  | .unary _ _ a => a.memoryFree
  | .binary _ _ a b => a.memoryFree && b.memoryFree
  | .ternary _ _ a b c => a.memoryFree && b.memoryFree && c.memoryFree
  | .swizzle _ _ base => base.memoryFree
  | .load .. => false

/-- What is assigned is an expression without elements of views. -/
def TypedValue.memoryFree : TypedValue → Bool
  | .expr v => v.memoryFree
  | .fetch _ => false

mutual

def TypedStatement.memoryFree : TypedStatement → Bool
  | .view .. | .store .. | .atomic _ => false
  | .var _ _ init => init.all TypedValue.memoryFree
  | .assign _ _ _ v => v.memoryFree
  | .ifThen cond body => cond.memoryFree && blockMemoryFree body
  | .ifElse cond body otherwise =>
    cond.memoryFree && blockMemoryFree body && blockMemoryFree otherwise
  | .loop cond body => cond.memoryFree && blockMemoryFree body
  | .arg .. | .leave | .again | .barrier | .fence => true

def blockMemoryFree : List TypedStatement → Bool
  | [] => true
  | first :: rest => first.memoryFree && blockMemoryFree rest

end

/-! ## Variables -/

mutual

/-- Variables that a statement declares, with their types. -/
def TypedStatement.variables : TypedStatement → List (String × ValueType)
  | .var name type _ => [(name, type)]
  | .ifThen _ body => blockVariables body
  | .ifElse _ body otherwise => blockVariables body ++ blockVariables otherwise
  | .loop _ body => blockVariables body
  | _ => []

def blockVariables : List TypedStatement → List (String × ValueType)
  | [] => []
  | first :: rest => first.variables ++ blockVariables rest

end

end Script

end KernelIL
