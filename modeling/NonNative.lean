import NonNative.Number.Inverse
import NonNative.Script.Session
import NonNative.Proofs.AppendOnly
import NonNative.Proofs.BinaryExpansion
import NonNative.Proofs.Canonicity
import NonNative.Proofs.ChipCorrectness
import NonNative.Proofs.CoefficientField
import NonNative.Proofs.ConstantLoading
import NonNative.Proofs.Decomposition
import NonNative.Proofs.DeferredFailure
import NonNative.Proofs.ExtensionProduct
import NonNative.Proofs.Faithful
import NonNative.Proofs.FermatInverse
import NonNative.Proofs.ForeignValues
import NonNative.Proofs.PrimeInverse
import NonNative.Proofs.ProgramRuns
import NonNative.Proofs.QuotientMap
import NonNative.Proofs.QuotientRemainder
import NonNative.Proofs.Reports
import NonNative.Proofs.Representation
import NonNative.Proofs.ShapeIndependence
import NonNative.Proofs.Unpacking
