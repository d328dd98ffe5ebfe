import QuorumLedger.Main
import QuorumLedger.Sample
import QuorumLedger.Lockstep
import QuorumLedger.Report
import QuorumLedger.Decimal.Shortest
import QuorumLedger.Proofs.Consensus.Agreement
import QuorumLedger.Proofs.Consensus.Convergence
import QuorumLedger.Proofs.Consensus.Provenance
import QuorumLedger.Proofs.Consensus.Delivery
import QuorumLedger.Proofs.Consensus.Readiness
import QuorumLedger.Proofs.Pool.Ownership
import QuorumLedger.Proofs.Pool.Conservation
import QuorumLedger.Proofs.Authenticity
import QuorumLedger.Proofs.OneTime.Acceptance
import QuorumLedger.Proofs.Wire.RoundTrip
import QuorumLedger.Proofs.Consensus.Backing
import QuorumLedger.Proofs.Settings.Acceptance
import QuorumLedger.Proofs.Consensus.Validity
import QuorumLedger.Proofs.Ledger.Commitment
import QuorumLedger.Proofs.Consensus.Recovery
import QuorumLedger.Proofs.Consensus.Height
import QuorumLedger.Proofs.Consensus.Repetition
import QuorumLedger.Proofs.Consensus.Dispatch
import QuorumLedger.Proofs.Ledger.Refusal
import QuorumLedger.Proofs.Pool.Settlement
import QuorumLedger.Proofs.Cluster.Carrying
import QuorumLedger.Proofs.Cluster.Failure
import QuorumLedger.Proofs.Cluster.Chronicle
import QuorumLedger.Proofs.Cluster.Leader
import QuorumLedger.Proofs.Cluster.Chain
import QuorumLedger.Proofs.OneTime.Exactness
import QuorumLedger.Proofs.Consensus.Batching
import QuorumLedger.Proofs.Consensus.Vetting
import QuorumLedger.Proofs.Wire.Verdict
import QuorumLedger.Proofs.Wallet.Payment
import QuorumLedger.Proofs.Consensus.LostReady
import QuorumLedger.Proofs.Settings.Verdict
import QuorumLedger.Proofs.Wallet.Workload
import QuorumLedger.Proofs.Network.Accounts
import QuorumLedger.Proofs.Consensus.Disguise
import QuorumLedger.Proofs.Ledger.SigningBytes
import QuorumLedger.Proofs.Consensus.FaultNames
