import Discharge.Main
import Discharge.Document.Yaml.BlockScalar
import Discharge.Proofs.Ensures
import Discharge.Proofs.Normal.Order
import Discharge.Proofs.Normal.Terms
import Discharge.Proofs.Normal.Factors
import Discharge.Proofs.Normal.Valuation
import Discharge.Proofs.Normal.Product
import Discharge.Proofs.Normal.Uniqueness
import Discharge.Proofs.Normal.Reduction
import Discharge.Proofs.Normal.Common
import Discharge.Proofs.Normal.Division
import Discharge.Proofs.Normal.Quotient
import Discharge.Proofs.Normal.Divisors
import Discharge.Proofs.Normal.Irreducible
import Discharge.Proofs.Normal.Symmetry
import Discharge.Proofs.Normal.Negation
import Discharge.Proofs.Normal.Shift
import Discharge.Proofs.Subterm
import Discharge.Proofs.Interpretation
import Discharge.Proofs.Substitution
import Discharge.Proofs.Definitions
import Discharge.Proofs.Canonical.Content
import Discharge.Proofs.Canonical.Factoring
import Discharge.Proofs.Tree
import Discharge.Proofs.Trail
import Discharge.Proofs.History
import Discharge.Proofs.Rational.Laurent
import Discharge.Proofs.Rational.Uniqueness
import Discharge.Proofs.Rational.Denotation
import Discharge.Proofs.Rational.Normalisation
import Discharge.Proofs.Rational.Tree
import Discharge.Proofs.Rational.Verification
import Discharge.Proofs.Rational.Pole
import Discharge.Proofs.Rational.Variable
import Discharge.Proofs.Rational.Whole
import Discharge.Proofs.Rational.Limit
import Discharge.Proofs.Rational.Growth
import Discharge.Proofs.Rational.Infinity
import Discharge.Proofs.Summation
import Discharge.Proofs.Elementary.Values
import Discharge.Proofs.Elementary.Angle
import Discharge.Proofs.Elementary.Radical
import Discharge.Proofs.Elementary.Soundness
import Discharge.Proofs.Elementary.Verification
import Discharge.Proofs.Denominator.Regular
import Discharge.Proofs.Denominator.Arithmetic
import Discharge.Proofs.Denominator.Functions
import Discharge.Proofs.Denominator.Formed
import Discharge.Proofs.Denominator.Simplification
import Discharge.Proofs.Canonical.Class
import Discharge.Proofs.Canonical.Exact
import Discharge.Proofs.Canonical.Reduction
import Discharge.Proofs.Canonical.Form
import Discharge.Proofs.Canonical.Functions
import Discharge.Proofs.Canonical.Tree
import Discharge.Proofs.Canonical.RoundTrip
import Discharge.Proofs.Canonical.Decision
import Discharge.Proofs.Rational.Primitive
import Discharge.Proofs.Rational.Factoring
import Discharge.Proofs.Formal.Field
import Discharge.Proofs.Radical.Independence
import Discharge.Proofs.Radical.Settled
import Discharge.Proofs.Radical.Exponents
import Discharge.Proofs.Radical.Generic
import Discharge.Proofs.Radical.Normalisation
import Discharge.Proofs.Radical.TrialDivision
import Discharge.Proofs.Radical.Tree
import Discharge.Proofs.Radical.Contradiction
import Discharge.Proofs.Text.Lexing
import Discharge.Proofs.Text.Reading
import Discharge.Proofs.Text.Meaning
import Discharge.Proofs.Text.Printing
import Discharge.Proofs.Text.RoundTrip
import Discharge.Proofs.Text.Splitting
import Discharge.Proofs.Text.Grammar
import Discharge.Proofs.Text.Recognition
import Discharge.Proofs.Formal.Faithful
import Discharge.Proofs.Differential.Field
import Discharge.Proofs.Differential.Derivative
import Discharge.Proofs.Denominator.Values
import Discharge.Proofs.Denominator.ZeroDivisors
import Discharge.Proofs.Differential.Antiderivative
import Discharge.Proofs.Formal.Composition
import Discharge.Proofs.Formal.Grouping
import Discharge.Proofs.Table
import Discharge.Proofs.Registry
import Discharge.Proofs.Catalog.Order
import Discharge.Proofs.Document.Quoting
import Discharge.Proofs.Text.Phrasing
import Discharge.Proofs.Text.Names
import Discharge.Proofs.Text.Rereading
import Discharge.Proofs.Text.Settled
import Discharge.Proofs.Text.Address
import Discharge.Proofs.Text.Statement
import Discharge.Proofs.Text.Trimming
import Discharge.Proofs.Text.LimitPoints
import Discharge.Proofs.Text.Prefixes
import Discharge.Proofs.Text.Positions
import Discharge.Proofs.Text.Failures
import Discharge.Proofs.Rational.Rereading
import Discharge.Proofs.Catalog.Expansion
import Discharge.Proofs.Document.Members
import Discharge.Proofs.Document.Layout
import Discharge.Proofs.Document.Encoding
import Discharge.Proofs.Numeric.Rounding
import Discharge.Proofs.Numeric.Arithmetic
import Discharge.Proofs.Numeric.Literal
import Discharge.Proofs.Numeric.Interval
import Discharge.Proofs.Numeric.Dominance
import Discharge.Proofs.Exponents.Recorded
import Discharge.Proofs.Exponents.Normalisation
import Discharge.Proofs.Exponents.Integration
import Discharge.Proofs.Exponents.Limits
import Discharge.Proofs.Exponents.Answers
import Discharge.Proofs.Differential.Orientation
import Discharge.Proofs.Differential.ByParts
import Discharge.Proofs.Canonical.Roots
import Discharge.Proofs.Formal.Roots
import Discharge.Proofs.Radical.LargePart
import Discharge.Proofs.Canonical.Radicands
import Discharge.Proofs.Canonical.Representation
import Discharge.Proofs.Canonical.Termination
import Discharge.Proofs.Radical.Surds
import Discharge.Proofs.Radical.PerfectPowers
