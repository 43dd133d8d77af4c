import GuardedRtl.Design.Workbench
import GuardedRtl.Gcd
import GuardedRtl.Main
import GuardedRtl.Proofs.Attribution
import GuardedRtl.Proofs.CircuitText
import GuardedRtl.Proofs.Closing
import GuardedRtl.Proofs.Cycle
import GuardedRtl.Proofs.GcdRun
import GuardedRtl.Proofs.Handover
import GuardedRtl.Proofs.Interleaving
import GuardedRtl.Proofs.Lowerable
import GuardedRtl.Proofs.Synchrony
import GuardedRtl.Rtl.Edit
import GuardedRtl.Rtl.Equivalence
import GuardedRtl.Rtl.Override
import GuardedRtl.Rtl.Sink
import GuardedRtl.Proofs.GcdDelivery
import GuardedRtl.Proofs.Language
import GuardedRtl.Proofs.Range
import GuardedRtl.Proofs.Uniformity
import GuardedRtl.Proofs.Listing
import GuardedRtl.Proofs.Occurrences
import GuardedRtl.Proofs.Pruning
import GuardedRtl.Proofs.Substitution
import GuardedRtl.Proofs.Traversal
import GuardedRtl.Proofs.WellFormed
import GuardedRtl.Proofs.Overriding
import GuardedRtl.Proofs.Refusals
import GuardedRtl.Proofs.WireDrivers
import GuardedRtl.Proofs.Frozen
import GuardedRtl.Proofs.Declarations
import GuardedRtl.Proofs.Layout
import GuardedRtl.Proofs.LineLimit
import GuardedRtl.Proofs.RequestGrammar
import GuardedRtl.Proofs.Comparing
import GuardedRtl.Proofs.FreshNames
import GuardedRtl.Proofs.DurationText
