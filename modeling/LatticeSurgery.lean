import LatticeSurgery.Circuit.Diagram
import LatticeSurgery.Circuit.Format
import LatticeSurgery.Compilation
import LatticeSurgery.Lattice.Format
import LatticeSurgery.Operation.Format
import LatticeSurgery.Patch.Summary
import LatticeSurgery.Timeline.Format
import LatticeSurgery.Proofs.Pass
import LatticeSurgery.Proofs.Circuit.Format
import LatticeSurgery.Proofs.Dependency.Schedule
import LatticeSurgery.Proofs.Operation.Clifford
import LatticeSurgery.Proofs.Operation.Lifetime
import LatticeSurgery.Proofs.Operation.Recording
import LatticeSurgery.Proofs.Route.Hub
import LatticeSurgery.Proofs.Route.Region
import LatticeSurgery.Proofs.Timeline.States
import LatticeSurgery.Proofs.Compilation
import LatticeSurgery.Proofs.Circuit.Absorption
import LatticeSurgery.Proofs.Circuit.Fitting
import LatticeSurgery.Proofs.Circuit.Session
import LatticeSurgery.Proofs.Circuit.Turning
import LatticeSurgery.Proofs.GlobalPhase
import LatticeSurgery.Proofs.Normalization
import LatticeSurgery.Proofs.Representation
import LatticeSurgery.Proofs.Timeline.Refusals
import LatticeSurgery.Proofs.Approximation
import LatticeSurgery.Proofs.Angle.Expansion
import LatticeSurgery.Proofs.Circuit.Overflow
import LatticeSurgery.Proofs.Route.Release
import LatticeSurgery.Proofs.Dependency.Listing
import LatticeSurgery.Proofs.Operator.Product
import LatticeSurgery.Proofs.Circuit.GateSequence
