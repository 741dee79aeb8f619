import Discharge.Catalog

/-!
The catalog that is verified when no other one is given.
-/

namespace Discharge.Catalog

/-- The text of the built-in catalog. -/
def builtinText : String := r#"axioms:
  - name: complex_unit
    statement: "I^2 = -1"
  - name: euler_exponential
    statement: "exp(I*pi) = -1"
  - name: commutativity
    statement: "x + y = y + x"
  - name: associativity
    statement: "(x + y) + z = x + (y + z)"
  - name: distributivity
    statement: "x*(y + z) = x*y + x*z"
  - name: exp_continuous
    statement: "e^x is continuous everywhere"

definitions:
  - name: spiral_operator
    expression: "exp((a + I)*theta)"
  - name: golden_ratio
    expression: "(1 + sqrt(5))/2"
  - name: blackroad_constant
    expression: "hbar*omega/(k_B*T)*(grad_L/L)"

obligations:
  - name: golden_square
    kind: lemma
    hypothesis: "golden_ratio^2"
    conclusion: "golden_ratio + 1"
    proof:
      method: simplification

  - name: golden_reciprocal
    kind: lemma
    hypothesis: "1/golden_ratio"
    conclusion: "golden_ratio - 1"
    proof:
      method: simplification

  - name: lyapunov_derivative
    kind: lemma
    hypothesis: "2*x*(a*x - omega*y) + 2*y*(omega*x + a*y)"
    conclusion: "2*a*(x^2 + y^2)"
    proof:
      method: simplification

  - name: sum_of_integers
    kind: lemma
    hypothesis: "1 + 2 + ... + n"
    conclusion: "n*(n + 1)/2"
    proof:
      method: induction
      variable: n
      term: "n"
      closed_form: "n*(n + 1)/2"
      start: 1

  - name: spiral_decomposition
    kind: theorem
    hypothesis: "r0*exp(a*t)*exp(I*omega*t)"
    conclusion: "r0*exp((a + I*omega)*t)"
    proof:
      method: simplification

  - name: euler_identity
    kind: theorem
    hypothesis: "exp(I*pi)"
    conclusion: "-1"
    proof:
      method: simplification

  - name: eulers_formula
    kind: theorem
    hypothesis: "exp(I*theta)"
    conclusion: "cos(theta) + I*sin(theta)"
    proof:
      method: simplification

  - name: spiral_modulus
    kind: theorem
    hypothesis: "spiral_operator*exp((a - I)*theta)"
    conclusion: "exp(2*a*theta)"
    proof:
      method: simplification

  - name: fibonacci_ratio_limit
    kind: theorem
    hypothesis: "F(n + 1)/F(n) as n -> oo"
    conclusion: "golden_ratio"
    proof:
      method: limit
      expression: "((golden_ratio^(n + 1) - (1 - golden_ratio)^(n + 1))/sqrt(5))/((golden_ratio^n - (1 - golden_ratio)^n)/sqrt(5))"
      variable: n
      point: oo
      expected: "golden_ratio"

  - name: spiral_derivative
    kind: theorem
    hypothesis: "d/dtheta spiral_operator"
    conclusion: "(a + I)*spiral_operator"
    proof:
      method: derivative
      function: "spiral_operator"
      variable: theta
      expected: "(a + I)*spiral_operator"

  - name: antiderivative_of_linear
    kind: corollary
    hypothesis: "integral of 2*x dx"
    conclusion: "x^2 + 5"
    proof:
      method: integral
      integrand: "2*x"
      variable: x
      expected: "x^2 + 5"

  - name: unit_interval_integral
    kind: corollary
    hypothesis: "integral of x dx over [0, 1]"
    conclusion: "1/2"
    proof:
      method: integral
      integrand: "x"
      variable: x
      lower: 0
      upper: 1
      expected: "1/2"

  - name: exponential_decay_integral
    kind: corollary
    hypothesis: "integral of exp(-x) dx over [0, oo)"
    conclusion: "1"
    proof:
      method: integral
      integrand: "exp(-x)"
      variable: x
      lower: 0
      upper: oo
      expected: "1"

  - name: sqrt_two_squared
    kind: corollary
    hypothesis: "sqrt(2)^2"
    conclusion: "2"
    proof:
      method: contradiction
      assumption: "sqrt(2)^2 = 3"
"#

/-- The built-in catalog. -/
def builtin : Except CatalogError Catalog := parse builtinText

end Discharge.Catalog
