import Formula.Binary32.Arithmetic
import Formula.Binary32.Basic
import Formula.Binary32.Decimal
import Formula.Binary32.Elementary
import Formula.Binary64
import Formula.BinaryOp
import Formula.Bindings
import Formula.Builtin
import Formula.Evaluate
import Formula.Fault
import Formula.Infix
import Formula.Journal
import Formula.Lexeme
import Formula.Literal
import Formula.Postfix
import Formula.Strength
import Formula.Text.Blank
import Formula.Token
import Formula.Tree
import Formula.Worksheet
import Formula.Proofs.Emission
import Formula.Proofs.Ordering
import Formula.Proofs.Grammar
import Formula.Proofs.Reduction
import Formula.Proofs.ReferenceTree
import Formula.Proofs.Substitution
import Formula.Proofs.Acceptance
import Formula.Proofs.NumberIndependence
import Formula.Proofs.Sugar
import Formula.Proofs.TreeReduction
import Formula.Proofs.Underflow
import Formula.Proofs.Isolation
import Formula.Proofs.Calls
import Formula.Proofs.Places
import Formula.Proofs.Faults
import Formula.Proofs.Diagnosis
import Formula.Proofs.FailFast
import Formula.Proofs.Relevance
import Formula.Proofs.Placement
import Formula.Proofs.Offense
import Formula.Proofs.Sums
import Formula.Proofs.Spacing
import Formula.Proofs.Matching
import Formula.Proofs.Nesting
import Formula.Proofs.Rendering
import Formula.Proofs.Numerals
import Formula.Proofs.Exactness
import Formula.Proofs.LiteralValues
import Formula.Proofs.Course
