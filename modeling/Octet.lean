import Octet.Main
import Octet.Simulator.IntelCpu
import Octet.Simulator.MosCpu
import Octet.Proofs.Allocation
import Octet.Proofs.Arrivals
import Octet.Proofs.Balance.Labels
import Octet.Proofs.CarryChain
import Octet.Proofs.Cells.Session
import Octet.Proofs.Clashes
import Octet.Proofs.ComparisonTypes
import Octet.Proofs.ConstantComparison
import Octet.Proofs.Coverage.Intel
import Octet.Proofs.Coverage.Mos
import Octet.Proofs.Executable.Compilation
import Octet.Proofs.Generated.Bytes
import Octet.Proofs.Generated.Prologue
import Octet.Proofs.Halves
import Octet.Proofs.Inverse.Branches
import Octet.Proofs.LeastRange
import Octet.Proofs.Legality
import Octet.Proofs.Listing
import Octet.Proofs.LiveRange
import Octet.Proofs.ParallelMove
import Octet.Proofs.PathRange
import Octet.Proofs.RunEnds
import Octet.Proofs.RuntimeCalls
import Octet.Proofs.SeparateCells
import Octet.Proofs.Sharing
import Octet.Proofs.Symbols
import Octet.Proofs.TypeNames
import Octet.Proofs.WellFormed
