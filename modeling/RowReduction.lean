import RowReduction.IntegerType
import RowReduction.Binary64.Bits
import RowReduction.Vec.Text
import RowReduction.LinearSystem.Solver
import RowReduction.Sampling.LinearSystem
import RowReduction.Proofs.LinearSystem.Session
import RowReduction.Proofs.LinearSystem.SolvingPass
import RowReduction.Proofs.LinearSystem.SolverCalls
import RowReduction.Proofs.Fraction.Formula
import RowReduction.Proofs.Fraction.FieldLaws
import RowReduction.Proofs.Fraction.Written
import RowReduction.Proofs.Complex.Written
import RowReduction.Proofs.Shape.Construction
import RowReduction.Proofs.Fraction.Comparison
import RowReduction.Proofs.Vec.Printed
import RowReduction.Proofs.Mat.Products
import RowReduction.Proofs.Mat.Algebra
import RowReduction.Proofs.LinearSystem.SampledUnique
import RowReduction.Proofs.Vec.CrossProduct
import RowReduction.Proofs.Sampling.Range
import RowReduction.Proofs.Fraction.Powers
import RowReduction.Proofs.Fraction.MachineIntegers
import RowReduction.Proofs.Vec.Normalization
import RowReduction.Proofs.Fraction.Millionths
import RowReduction.Proofs.Sampling.Window
import RowReduction.Proofs.Complex.Inverse
import RowReduction.Proofs.Mat.RowEchelon
import RowReduction.Proofs.Reduction.Report
