/-!
# Compilation settings
-/

namespace KernelIL

inductive Profile where
  | compute
  | pixel
deriving DecidableEq, Repr

namespace Profile

def name : Profile → String
  | compute => "compute"
  | pixel => "pixel"

def ofName? (text : String) : Option Profile :=
  [compute, pixel].find? (·.name == text)

/-- Reads a profile as users write it, by its name or its two-letter form. -/
def parse? : String → Option Profile
  | "compute" | "cs" => some compute
  | "pixel" | "ps" => some pixel
  | _ => none

def header : Profile → String
  | compute => "il_cs_2_0"
  | pixel => "il_ps_2_0"

end Profile

structure Config where
  profile : Profile := .compute
  threadsPerGroup : Nat := 64
  /-- Number of threads the hardware runs in step. -/
  wavefrontSize : Nat := 64
  maxRegisters : Nat := 4096
  maxLiterals : Nat := 1024
deriving DecidableEq, Repr

/-- Whether a group spans several wavefronts, so that its threads have to be
brought in step. -/
def Config.needsBarrier (config : Config) : Bool :=
  config.wavefrontSize < config.threadsPerGroup

end KernelIL
