import TypeConformance.Basic
import TypeConformance.Checker
import TypeConformance.Conformance
import TypeConformance.Naming
import TypeConformance.Operator
import TypeConformance.Proofs.Answer
import TypeConformance.Proofs.ArrayCasts
import TypeConformance.Proofs.ArrayLayers
import TypeConformance.Proofs.Assignability
import TypeConformance.Proofs.CastChain
import TypeConformance.Proofs.Casting
import TypeConformance.Proofs.CheckRuns
import TypeConformance.Proofs.Decision
import TypeConformance.Proofs.FieldDefinition
import TypeConformance.Proofs.FollowOn
import TypeConformance.Proofs.Growth
import TypeConformance.Proofs.Interning
import TypeConformance.Proofs.Invariance
import TypeConformance.Proofs.JsonGuard
import TypeConformance.Proofs.JsonShape
import TypeConformance.Proofs.JsonUses
import TypeConformance.Proofs.Persistence
import TypeConformance.Proofs.QueueRuns
import TypeConformance.Proofs.Reading
import TypeConformance.Proofs.Registration
import TypeConformance.Proofs.Reports
import TypeConformance.Proofs.Representation
import TypeConformance.Proofs.Resolution
import TypeConformance.Proofs.Spelling
import TypeConformance.Proofs.StructMatching
import TypeConformance.Proofs.Substitution
import TypeConformance.Proofs.Templates
import TypeConformance.Proofs.Totality
import TypeConformance.Proofs.Unfolding
import TypeConformance.Proofs.Widening
import TypeConformance.Report
import TypeConformance.Table
