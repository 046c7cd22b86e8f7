import PolyCalc.Main
import PolyCalc.Proofs.Soundness
import PolyCalc.Proofs.Programs
import PolyCalc.Proofs.CanonicalForm
import PolyCalc.Proofs.Exponents
import PolyCalc.Proofs.RunInvariant
import PolyCalc.Proofs.ExactValues
import PolyCalc.Proofs.Commutativity
import PolyCalc.Proofs.Congruence
import PolyCalc.Proofs.Doubles
import PolyCalc.Proofs.FirstPower
import PolyCalc.Proofs.Composition
import PolyCalc.Proofs.Finiteness
import PolyCalc.Proofs.Sessions
import PolyCalc.Proofs.RingLaws
import PolyCalc.Proofs.Normalisation
import PolyCalc.Proofs.Degrees
import PolyCalc.Proofs.PowerLimits
import PolyCalc.Proofs.PowerLaws
import PolyCalc.Proofs.Merging
import PolyCalc.Proofs.Constants
import PolyCalc.Proofs.Gaps
import PolyCalc.Proofs.ViablePrefix
import PolyCalc.Proofs.PowerLengths
import PolyCalc.Proofs.TreeText
import PolyCalc.Proofs.MonomialOrder
import PolyCalc.Proofs.RepeatedProducts
import PolyCalc.Proofs.NormalCheck
import PolyCalc.Proofs.NestingLimit
import PolyCalc.Proofs.SortedPairs
import PolyCalc.Proofs.DoubleOrder
import PolyCalc.Proofs.IntegerRounding
import PolyCalc.Proofs.NumberOrder
