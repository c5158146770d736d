import Univariate.Dense.Calculus
import Univariate.Dense.Division
import Univariate.Inspect
import Univariate.Proofs.CanonicalRuns
import Univariate.Proofs.Coeff.Reciprocal
import Univariate.Proofs.Dense.Calculus
import Univariate.Proofs.Evaluation
import Univariate.Proofs.Interchange
import Univariate.Proofs.MonicGcd
import Univariate.Proofs.RingLaws
import Univariate.Proofs.SameDivision
import Univariate.Proofs.SameOverflow
import Univariate.Proofs.Sparse.Calculus
import Univariate.Sparse.Calculus
import Univariate.Sparse.Division
import Univariate.Sparse.Lookup
import Univariate.Text.Reader
import Univariate.Walk
import Univariate.Proofs.Carries
import Univariate.Proofs.Coeff.Bare
import Univariate.Proofs.IntegersModulo
import Univariate.Proofs.Dense.Carried
import Univariate.Proofs.Respects
import Univariate.Proofs.Workshop
import Univariate.Proofs.Change
import Univariate.Proofs.MachineIntegers
import Univariate.Proofs.ChangeOfCoefficients
import Univariate.Proofs.Text.Numeral
import Univariate.Proofs.Text.Terms
import Univariate.Proofs.Text.Shown
import Univariate.Proofs.Text.Reading
import Univariate.Proofs.FaithfulText
import Univariate.Proofs.Coeff.Inverse
import Univariate.Proofs.Dense.InPlace
import Univariate.Proofs.Reconstruction
import Univariate.Proofs.GcdRounds
import Univariate.Proofs.SparseOverflow
import Univariate.Proofs.PowersAndMultiples
import Univariate.Proofs.Subtraction
import Univariate.Proofs.Differentiation
import Univariate.Proofs.Composition
import Univariate.Proofs.LinearDivision
import Univariate.Proofs.RemainderTheorem
import Univariate.Proofs.Doubling
import Univariate.Proofs.Degrees
import Univariate.Proofs.MonicAssociates
import Univariate.Proofs.DivisionLogs
import Univariate.Proofs.TermMultiples
import Univariate.Proofs.TermSums
