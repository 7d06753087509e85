import KernelIL.ArgumentBuffer
import KernelIL.Main
import KernelIL.Operation.Expansion
import KernelIL.Operation.Legality
import KernelIL.Session
import KernelIL.Proofs.Arguments.Host
import KernelIL.Proofs.Barriers.Programs
import KernelIL.Proofs.Documents.Programs
import KernelIL.Proofs.Kernel.Rejections
import KernelIL.Proofs.Lexing.Faults
import KernelIL.Proofs.Literals.Integers
import KernelIL.Proofs.Literals.Sessions
import KernelIL.Proofs.Meaning.Addresses
import KernelIL.Proofs.Meaning.Emission
import KernelIL.Proofs.Meaning.Programs
import KernelIL.Proofs.Nesting.Runs
import KernelIL.Proofs.Node.Swizzles
import KernelIL.Proofs.Parsing.Progress
import KernelIL.Proofs.Printing.Scripts
import KernelIL.Proofs.Renaming.Scripts
import KernelIL.Proofs.Reuse.Analyzers
import KernelIL.Proofs.Reuse.Programs
import KernelIL.Proofs.Rounds.Counting
import KernelIL.Proofs.Script.Limits
import KernelIL.Proofs.Statistics.Sessions
