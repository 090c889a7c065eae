import Mathlib
import Plfit.Library.MathLibrary
import Plfit.Model.Basic

/-! # The Hurwitz zeta function of `hzeta.c`

The function itself by the Euler–Maclaurin summation, and its logarithm with the derivative
of the logarithm by the same summation relative to the leading term. A term is pushed on the
array of the terms as it is added, and the sum is taken once more from the last term on.
-/
namespace Plfit
open ExactArithmetic

structure GslSfResult (K : Type) where
  val : Double K
  err : Double K

def eulermaclaurinSeriesCoeffs : List ℚ :=
  [1, 1 / 12, -1 / 720, 1 / 30240, -1 / 1209600, 1 / 47900160, -691 / 1307674368000,
    1 / 74724249600, -3.38968029632258286683019539125e-13, 8.58606205627784456413590545043e-15,
    -2.17486869855806187304151642387e-16, 5.50900282836022951520265260890e-18,
    -1.39544646858125233407076862641e-19, 3.53470703962946747169322997780e-21,
    -8.95351742703754685040261131811e-23, 2.26795245233768306031095073887e-24,
    -5.74479066887220244526388198761e-26, 1.45517247561486490186626486727e-27,
    -3.68599494066531017818178247991e-29, 9.33673425709504467203255515279e-31,
    -2.36502241570062993455963519637e-32, 5.99067176248213430465991239682e-34,
    -1.51745488446829026171081313586e-35, 3.84375812545418823222944529099e-37,
    -9.73635307264669103526762127925e-39, 2.46624704420068095710640028029e-40,
    -6.24707674182074369314875679472e-42, 1.58240302446449142975108170683e-43,
    -4.00827368594893596853001219052e-45, 1.01530758555695563116307139454e-46,
    -2.57180415824187174992481940976e-48, 6.51445603523381493155843485864e-50,
    -1.65013099068965245550609878048e-51]

def eulermaclaurinSeriesMajorantratios : List ℚ :=
  [-2, 1 / 6, 1 / 360, 1 / 15120, 1 / 604800, 1 / 23950080, 691 / 653837184000, 1 / 37362124800,
    3617 / 5335311421440000, 1.71721241125556891282718109009e-14,
    4.34973739711612374608303284773e-16, 1.10180056567204590304053052178e-17,
    2.79089293716250466814153725281e-19, 7.06941407925893494338645995561e-21,
    1.79070348540750937008052226362e-22, 4.53590490467536612062190147774e-24,
    1.14895813377444048905277639752e-25, 2.91034495122972980373252973454e-27,
    7.37198988133062035636356495982e-29, 1.86734685141900893440651103056e-30,
    4.73004483140125986911927039274e-32, 1.19813435249642686093198247936e-33,
    3.03490976893658052342162627173e-35, 7.68751625090837646445889058198e-37,
    1.94727061452933820705352425585e-38, 4.93249408840136191421280056051e-40,
    1.24941534836414873862975135893e-41, 3.16480604892898285950216341362e-43,
    8.01654737189787193706002438098e-45, 2.03061517111391126232614278906e-46,
    5.14360831648374349984963881946e-48, 1.30289120704676298631168697172e-49,
    3.30026198137930491101219756091e-51]

def seriesShift : ℕ := 10

def seriesOrder : ℕ := 32

def seriesShiftMax : ℕ := 256

section Constants
variable {K : Type} [Field K]

def gslLogDblMin : Double K := .fin ((-7.0839641853226408e+02 : ℚ) : K)

def gslLogDblMax : Double K := .fin ((7.0978271289338397e+02 : ℚ) : K)

def gslDblEpsilon : Double K := .fin ((2.2204460492503131e-16 : ℚ) : K)

def mLog2e : Double K := .fin ((1.44269504088896340735992468100189214 : ℚ) : K)

def mLn2 : Double K := .fin ((0.693147180559945309417232121458176568 : ℚ) : K)

/-- The entry of a table that follows its last number is a NaN. -/
def tableEntry (table : List ℚ) (j : ℕ) : Double K :=
  match table[j]? with
  | some c => .fin (c : K)
  | none => .nan

end Constants

/-! ## The summation -/

section Summation
variable {K : Type} [Field K] [LinearOrder K]

/-- The terms on the array, the last one first, and their running sum. -/
structure Terms (K : Type) where
  terms : List (Double K)
  ans : Double K

def Terms.push (s : Terms K) (t : Double K) : Terms K :=
  { terms := t :: s.terms, ans := s.ans + t }

/-- `ans = 0.0; while (n) ans += terms[--n];` -/
def Terms.sum (s : Terms K) : Double K := s.terms.foldl (· + ·) 0

def noTerms : Terms K := { terms := [], ans := 0 }

structure Corrections (K : Type) extends Terms K where
  tscp : Double K
  scp : Double K
  pcp : Double K
  ratio : Double K

/-- Adding `delta`, then `scp *= ++tscp;` twice, `pcp *= factor;` and `ratio = scp * pcp;`. -/
def Corrections.next (factor delta : Double K) (st : Corrections K) : Corrections K :=
  let tscp₁ := st.tscp + 1
  let tscp₂ := tscp₁ + 1
  let scp := st.scp * tscp₁ * tscp₂
  let pcp := st.pcp * factor
  { toTerms := st.toTerms.push delta, tscp := tscp₂, scp := scp, pcp := pcp, ratio := scp * pcp }

/-- The loop for a derivative has the logarithmic factor besides. -/
structure LogCorrections (K : Type) extends Corrections K where
  lcp : Double K

/-- The same with `lcp -= weight / tscp;` after each factor, and `ratio = scp * pcp * lcp;`. -/
def LogCorrections.next (weight factor delta : Double K) (st : LogCorrections K) :
    LogCorrections K :=
  let plain := st.toCorrections.next factor delta
  let lcp := st.lcp - weight / (st.tscp + 1) - weight / plain.tscp
  { toCorrections := { plain with ratio := plain.scp * plain.pcp * lcp }, lcp := lcp }

section Loop
variable {σ : Type} (corrections : σ → Corrections K) (next : Double K → σ → σ)

/-- The loop over the corrections from `j` on. It gives the last `j` with what is left, and
nothing when the corrections do not fall below the precision. -/
def correctionLoop : ℕ → ℕ → σ → Option (ℕ × σ)
  | 0, _, _ => none
  | rounds + 1, j, st =>
    let delta := tableEntry eulermaclaurinSeriesCoeffs j * (corrections st).ratio
    let st' := next delta st
    if Double.fabs (delta / (corrections st').ans) < .fin (1 / 2) * gslDblEpsilon then
      some (j, st')
    else correctionLoop rounds (j + 1) st'

/-- The loop up to `HSL_SF_HZETA_EULERMACLAURIN_SERIES_ORDER`, the sum of all terms, and the
bound for its error. -/
def sumSeries (shift j : ℕ) (st : σ) : Except Failure (Double K × Double K) :=
  match correctionLoop corrections next (seriesOrder + 1 - j) j st with
  | none => .error { reason := "maximum iterations exceeded", errno := .emaxiter }
  | some (j, st') =>
    let ans := (corrections st').sum
    let mjr := tableEntry eulermaclaurinSeriesMajorantratios j * (corrections st').ratio
    .ok (ans, .fin 2 * (((shift : Double K) + 1) * gslDblEpsilon * Double.fabs ans + mjr))

end Loop
end Summation

/-! ## The zeta function -/

section Zeta
variable {K : Type} [Field K] [LinearOrder K] [MathLibrary K]

/-- The tests that the functions of two arguments start with. -/
def hzetaArguments (s q : Double K) : Except Failure Unit :=
  if s ≤ 1 ∨ q ≤ 0 then
    .error { reason := "s must be larger than 1.0 and q must be larger than zero"
             errno := .einval }
  else .ok ()

/-- The first term must be in the range of a double. -/
def hzetaRange (lnTerm0 : Double K) : Except Failure Unit :=
  if lnTerm0 < gslLogDblMin + 1 then .error { reason := "underflow", errno := .undrflow }
  else if gslLogDblMax - 1 < lnTerm0 then .error { reason := "overflow", errno := .overflow }
  else .ok ()

/-- The Euler–Maclaurin summation formula in `hsl_sf_hzeta_e`. -/
def hzetaEulerMaclaurin (s q : Double K) : Except Failure (GslSfResult K) := do
  let qshift := (seriesShift : Double K) + q
  let invQshift := 1 / qshift
  let invSm1 := 1 / (s - 1)
  let pmax := MathLibrary.pow qshift (-s)
  let pcp := pmax * invQshift
  let head := (List.range seriesShift).foldl
    (fun (terms : Terms K) (j : ℕ) => terms.push (MathLibrary.pow ((j : Double K) + q) (-s)))
    noTerms
  let start := (head.push (.fin (1 / 2) * pmax)).push (pmax * qshift * invSm1)
  let (val, err) ← sumSeries id (Corrections.next (invQshift * invQshift)) seriesShift 1
    { toTerms := start, tscp := s, scp := s, pcp := pcp, ratio := s * pcp }
  return { val := val, err := err }

def hslSfHzetaE (s q : Double K) : Except Failure (GslSfResult K) := do
  hzetaArguments s q
  let maxBits : Double K := ((54 : ℕ) : Double K)
  hzetaRange (-s * MathLibrary.log q)
  if maxBits < s ∧ q < 1 ∨ .fin (1 / 2) * maxBits < s ∧ q < .fin (1 / 4) then
    let val := MathLibrary.pow q (-s)
    return { val := val, err := .fin 2 * gslDblEpsilon * Double.fabs val }
  else if .fin (1 / 2) * maxBits < s ∧ q < 1 then
    let a0 := MathLibrary.pow q (-s)
    let p1 := MathLibrary.pow (q / (1 + q)) s
    let p2 := MathLibrary.pow (q / (.fin 2 + q)) s
    let ans := a0 * (1 + p1 + p2)
    return { val := ans
             err := gslDblEpsilon * (.fin 2 + .fin (1 / 2) * s) * Double.fabs ans }
  else hzetaEulerMaclaurin s q

end Zeta

/-! ## The logarithm of the zeta function -/

section LogZeta
variable {K : Type} [Field K] [LinearOrder K] [FloorRing K] [MathLibrary K] [MathLibraryC99 K]

/-- How far `q` is shifted. `llrint` leaves a whole number what it is. -/
def lnhzetaShift (s q : Double K) : ℕ :=
  let criterion := Double.ceil (.fin 10 * s - q)
  if criterion < 0 then 0
  else if criterion < (seriesShiftMax : Double K) then (criterion.toUnsigned 64).getD 0
  else seriesShiftMax

/-- The loop over the shifted terms: the terms of `zed` with their weights, and the weight
after the last one. -/
def shiftLoop (zed : Double K → Double K) (weight : Double K → ℕ → Double K)
    (inv : Double K) : ℕ → ℕ → Double K → Double K → Terms K → Terms K × Double K
  | 0, _, _, a, terms => (terms, a)
  | rounds + 1, j, qs, a, terms =>
    shiftLoop zed weight inv rounds (j + 1) (qs + 1) (weight (qs + 1) (j + 1))
      (terms.push (a * zed qs * inv))

def hslSfHZeta0Zed (s q : Double K) : Double K :=
  let log1prq := MathLibraryC99.log1p (1 / q)
  let epsilon := MathLibrary.expm1 (-s * log1prq)
  s + (q + .fin (1 / 2) * s + .fin (1 / 2)) * epsilon

def hslSfHZeta0 (s q : Double K) : Except Failure (Double K × Double K) :=
  let shift := lnhzetaShift s q
  let qshift := (shift : Double K) + q
  let invQshift := 1 / qshift
  let sqrInvQshift := invQshift * invQshift
  let sm1 := s - 1
  let scp := s * sm1
  let pcp := invQshift / (.fin 2 * qshift + sm1)
  let hsm1 := .fin (1 / 2) * sm1
  let invQ := 1 / q
  let invQphsm1 := 1 / (q + hsm1)
  let shifted := shiftLoop (hslSfHZeta0Zed s)
    (fun _ j => MathLibrary.exp (-s * MathLibraryC99.log1p ((j : Double K) * invQ)))
    invQphsm1 shift 0 q 1 noTerms
  let pcp := if shift = 0 then pcp else pcp * (shifted.2 * (qshift + hsm1) * invQphsm1)
  let ratio := scp * pcp
  let start : Corrections K :=
    { toTerms := shifted.1, tscp := s, scp := scp, pcp := pcp, ratio := ratio }
  sumSeries id (Corrections.next sqrInvQshift) shift 2
    (start.next (.fin 2 * sqrInvQshift) (ratio / ((6 : ℕ) : Double K)))

def hslSfHZeta1Zed (s q : Double K) : Double K :=
  let sm1 := s - 1
  let logq := MathLibrary.log q
  let log1prq := MathLibraryC99.log1p (1 / q)
  let invLogq := 1 / logq
  let logratiom1 := log1prq * invLogq
  let powratiom1 := MathLibrary.expm1 (-s * log1prq)
  let varepsilon := MathLibrary.expm1 (-sm1 * log1prq)
  let epsilon := logratiom1 + powratiom1 + logratiom1 * powratiom1
  s + (q + .fin (1 / 2) * s + .fin (1 / 2)) * epsilon + q / sm1 * invLogq * varepsilon

/-- `hsl_sf_hZeta1`, with the coefficient that it gives besides. -/
def hslSfHZeta1 (s q lnQ : Double K) : Except Failure (Double K × Double K × Double K) := do
  let shift := lnhzetaShift s q
  let qshift := (shift : Double K) + q
  let lnQshift := MathLibrary.log qshift
  let invQshift := 1 / qshift
  let invLnQ := 1 / lnQ
  let invLnQshift := 1 / lnQshift
  let sqrInvQshift := invQshift * invQshift
  let sm1 := s - 1
  let hsm1 := .fin (1 / 2) * sm1
  let qOverLnQ := q * invLnQ
  let qshiftOverLnQshift := qshift * invLnQshift
  let qphsm1 := q + hsm1
  let qshiftphsm1 := qshift + hsm1
  let scp := s * sm1
  let pcp := invQshift * sm1 / (qshiftOverLnQshift + sm1 * qshiftphsm1)
  let lcp := 1 - invLnQshift / s
  let invQ := 1 / q
  let invSm1 := 1 / sm1
  let w := 1 + invSm1 * invLnQ
  let wshift := 1 + invSm1 * invLnQshift
  let invQwphsm1 := 1 / (q * w + hsm1)
  let shifted := shiftLoop (hslSfHZeta1Zed s)
    (fun qs j => MathLibrary.log qs * invLnQ *
      MathLibrary.exp (-s * MathLibraryC99.log1p ((j : Double K) * invQ)))
    invQwphsm1 shift 0 q 1 noTerms
  let pcp := if shift = 0 then pcp
    else pcp * (shifted.2 * (qshift * wshift + hsm1) * invQwphsm1)
  let ratio := scp * pcp * lcp
  let start : LogCorrections K :=
    { toTerms := shifted.1, tscp := s, scp := scp, pcp := pcp, ratio := ratio, lcp := lcp }
  let (value, abserror) ← sumSeries LogCorrections.toCorrections
    (LogCorrections.next invLnQshift sqrInvQshift) shift 2
    (start.next invLnQshift sqrInvQshift (ratio / ((12 : ℕ) : Double K)))
  return (value, abserror, 1 + qOverLnQ / qphsm1 / sm1)

/-- What a variable that starts as `NAN` holds when the function that sets it has failed. -/
def orNan {α : Type} (failed : α) : Except Failure α → α
  | .ok a => a
  | .error _ => failed

/-- `hsl_sf_lnhzeta_deriv_tuple_e`. The status of the two series is not looked at. -/
def hslSfLnhzetaDerivTupleE (s q : Double K) :
    Except Failure (GslSfResult K × GslSfResult K) := do
  hzetaArguments s q
  if q == 1 then
    let invSm1 := 1 / (s - 1)
    let invQsm1 := ((4 : ℕ) : Double K) * invSm1
    let hzCoeff0 := MathLibraryC99.exp2 (s + 1)
    let hzCoeff1 := 1 + invQsm1
    let (hZeta0Value, hZeta0Abserror) := orNan (.nan, .nan) (hslSfHZeta0 s (.fin 2))
    let hZeta0Value := hZeta0Value + 1
    let lnHzCoeff := hzCoeff1 / hzCoeff0
    let lnHZeta0Value := lnHzCoeff * hZeta0Value
    let result : GslSfResult K :=
      { val := MathLibraryC99.log1p lnHZeta0Value
        err := (.fin 2 * gslDblEpsilon * lnHzCoeff + hZeta0Abserror) / (1 + lnHZeta0Value) }
    let ldHzCoeff2 := 1 + invSm1 * mLog2e
    let ldHzCoeff1 := 1 + invQsm1 * ldHzCoeff2
    let (hZeta1Value, hZeta1Abserror, _) :=
      orNan (.nan, .nan, .nan) (hslSfHZeta1 s (.fin 2) mLn2)
    let hZeta0Value := hZeta0Value * hzCoeff1 + hzCoeff0
    let hZeta1Value := (hZeta1Value + 1) * (-mLn2 * ldHzCoeff1)
    let val := hZeta1Value / hZeta0Value
    return (result, { val := val, err := .fin 2 * gslDblEpsilon * Double.fabs val +
      (hZeta0Abserror + hZeta1Abserror) })
  else
    let lnQ := MathLibrary.log q
    let (hZeta0Value, hZeta0Abserror) := orNan (.nan, .nan) (hslSfHZeta0 s q)
    let lnHzTerm0 := -s * lnQ
    let lnHzTerm1 := MathLibrary.log (.fin (1 / 2) + q / (s - 1))
    let result : GslSfResult K :=
      { val := lnHzTerm0 + lnHzTerm1 + MathLibraryC99.log1p hZeta0Value
        err := .fin 2 * gslDblEpsilon * (Double.fabs lnHzTerm0 + Double.fabs lnHzTerm1) +
          hZeta0Abserror / (1 + hZeta0Value) }
    let (hZeta1Value, hZeta1Abserror, ldHzCoeff1) :=
      orNan (.nan, .nan, .nan) (hslSfHZeta1 s q lnQ)
    let val := -lnQ * ldHzCoeff1 * (1 + hZeta1Value) / (1 + hZeta0Value)
    return (result, { val := val, err := .fin 2 * gslDblEpsilon * Double.fabs val +
      (hZeta0Abserror + hZeta1Abserror) })

def hslSfLnhzetaE (s q : Double K) : Except Failure (GslSfResult K) :=
  (hslSfLnhzetaDerivTupleE s q).map Prod.fst

/-- `hsl_sf_lnhzeta`. A failure leaves the result as it was. -/
def hslSfLnhzeta (result : GslSfResult K) (s q : Double K) : Double K :=
  (orNan result (hslSfLnhzetaE s q)).val

/-- `hsl_sf_lnhzeta_deriv_tuple`, which returns the first of the two numbers as well. -/
def hslSfLnhzetaDerivTuple (result0 result1 : GslSfResult K) (s q : Double K) :
    Double K × Double K :=
  let (result0, result1) := orNan (result0, result1) (hslSfLnhzetaDerivTupleE s q)
  (result0.val, result1.val)

end LogZeta
end Plfit
