import KernelIL.Operation.Specialization

/-!
# Legal combinations

A statement of which operations exist on which operand types that does not
mention instructions, to compare the table of specializations with.
-/

namespace KernelIL.Operation

def legalResult? : Operation → List ValueType → Option ValueType
  | binary .add, [a, b] | binary .sub, [a, b] | binary .mul, [a, b]
  | binary .div, [a, b] | binary .min, [a, b] | binary .max, [a, b] =>
    if a = b then some a else none
  | binary .mod, [a, b] => if a = b && !a.isDouble then some a else none
  | binary .and, [a, b] | binary .or, [a, b] | binary .xor, [a, b]
  | binary .shl, [a, b] | binary .shr, [a, b] =>
    if a = b && a.isIntegral then some a else none
  | binary .eq, [a, b] | binary .ne, [a, b] | binary .lt, [a, b]
  | binary .le, [a, b] | binary .gt, [a, b] | binary .ge, [a, b] =>
    if a = b then some a.mask else none
  | unary .neg, [a] => some a
  | unary .not, [a] => if a.isIntegral then some a else none
  | unary .abs, [a] => if a.scalar ≠ .uint then some a else none
  | unary .log, [a] | unary .log2, [a] | unary .exp, [a] | unary .exp2, [a]
  | unary .floor, [a] | unary .round, [a] =>
    if a.isFloat then some a else none
  | unary .sqrt, [a] | unary .rsqrt, [a] | unary .rcp, [a]
  | unary .frac, [a] => if !a.isIntegral then some a else none
  | unary (.cast target), [a] =>
    if target.count = a.count then some target else none
  | unary (.bitcast target), [a] =>
    if target.lanes = a.lanes then some target else none
  | ternary .mad, [a, b, c] => if a = b && b = c then some a else none
  | ternary .select, [m, a, b] =>
    if a = b && !a.isDouble && m = a.mask then some a else none
  | _, _ => none

def tuples : Nat → List (List ValueType)
  | 0 => [[]]
  | n + 1 => (tuples n).flatMap fun rest => ValueType.all.map (· :: rest)

/-- All pairs of an operation and operand types for which there is a
specialization. -/
def table : List (Operation × List ValueType) :=
  all.flatMap fun op =>
    ((tuples op.arity).filter fun types => (op.resultType? types).isSome).map
      fun types => (op, types)

/-- Whether the specializations are exactly the legal combinations, with the
same result types. -/
def tableVerified : Bool :=
  all.all fun op => (tuples op.arity).all fun types => op.resultType? types = op.legalResult? types

end KernelIL.Operation
