import KernelIL.Script.Analysis
import KernelIL.Script.Generation
import KernelIL.Script.Parser

/-!
# Compilation of scripts
-/

namespace KernelIL

open Script

/-- Analyzes parsed statements with an analyzer, which keeps what it learned
before a failure. -/
def Script.Analyzer.analyze (analyzer : Analyzer)
    (statements : List Statement) : Except Error TypedScript × Analyzer :=
  match analyzeScript statements analyzer with
  | .ok script analyzer => (.ok script, analyzer)
  | .error error analyzer => (.error error, analyzer)

def analyze (source : String) : Except Error TypedScript := do
  let statements ← Script.parse source
  (Analyzer.analyze {} statements).1

/-- Compiles a script. Settings in the header of the script replace the given
ones. -/
def compile (source : String) (config : Config) : Except Error Program := do
  let script ← analyze source
  (Generator.generate { config := script.configure config } script).1

end KernelIL
