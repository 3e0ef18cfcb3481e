import LinearSSA.Chain.Execution
import LinearSSA.Chain.Flow
import LinearSSA.Chain.History
import LinearSSA.Chain.Recording
import LinearSSA.Conversion
import LinearSSA.Proofs.Index
import LinearSSA.Proofs.Order
import LinearSSA.Proofs.WellFormed
import LinearSSA.Proofs.Landing
import LinearSSA.Proofs.Removal
import LinearSSA.Proofs.Reachable
import LinearSSA.Proofs.Excision
import LinearSSA.Proofs.Flow
import LinearSSA.Proofs.Simulation
import LinearSSA.Proofs.InStep
import LinearSSA.Proofs.Atomicity
import LinearSSA.Proofs.Closed
import LinearSSA.Proofs.Naming
import LinearSSA.Proofs.Recency
import LinearSSA.Proofs.Commutation
import LinearSSA.Proofs.Layering
import LinearSSA.Proofs.Readable
import LinearSSA.Proofs.ChainText
import LinearSSA.Proofs.Spreading
import LinearSSA.Proofs.Multiplicity
import LinearSSA.Proofs.Entry
import LinearSSA.Proofs.Removability
import LinearSSA.Proofs.Redirection
import LinearSSA.Proofs.Drift
import LinearSSA.Proofs.Ledger
import LinearSSA.Proofs.OptionStrings
import LinearSSA.Proofs.Undoing
