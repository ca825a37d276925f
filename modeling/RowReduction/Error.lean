/-!
# Errors

An error is the cause of a failure, with the values its message names. Every
cause belongs to one of six kinds, and the message opens with the kind's label.
Scalars are named by their text, because one type of errors serves every field.
-/

namespace RowReduction

/-- The kinds into which the causes of failure fall. -/
inductive ErrorKind where
  | invalidFormat
  | divisionByZero
  | dimensionMismatch
  | indexOutOfRange
  | invalidArgument
  | unsupported
  deriving DecidableEq, Repr

/-- The words that open every message of a kind. -/
def ErrorKind.label : ErrorKind → String
  | invalidFormat => "invalid format"
  | divisionByZero => "division by zero"
  | dimensionMismatch => "dimension mismatch"
  | indexOutOfRange => "index out of range"
  | invalidArgument => "invalid argument"
  | unsupported => "unsupported operation"

/-- What keeps a text from being a fraction. -/
inductive FractionFault where
  | noSeparator
  | badNumerator
  | badDenominator
  | zeroDenominator
  deriving DecidableEq, Repr

/-- The words for what is wrong with the text of a fraction. -/
def FractionFault.reason : FractionFault → String
  | noSeparator => "missing '/' or ':'"
  | badNumerator => "bad numerator"
  | badDenominator => "bad denominator"
  | zeroDenominator => "zero denominator"

/-- The operations that ask two operands to agree in dimension or shape. -/
inductive Operation where
  | sum
  | difference
  | product
  | dotProduct
  deriving DecidableEq, Repr

/-- The name of an operation in a message. -/
def Operation.name : Operation → String
  | sum => "sum"
  | difference => "difference"
  | product => "product"
  | dotProduct => "dot product"

/-- The numbers of rows and columns of a matrix. -/
structure Shape where
  rows : Nat
  columns : Nat
  deriving DecidableEq, Repr

instance : ToString Shape where
  toString s := s!"{s.rows}x{s.columns}"

/-- The causes of failure. -/
inductive Error where
  /-- A text that is no fraction. -/
  | notFraction (text : String) (fault : FractionFault)
  /-- A blank text in the place of a complex number. -/
  | blankComplex
  /-- A part of a complex number that is no finite decimal number. -/
  | notFinite (part whole : String)
  /-- A text without the parentheses of a vector. -/
  | notVector (text : String)
  /-- Parentheses with nothing between them. -/
  | noComponents (text : String)
  /-- A component of a vector that cannot be read. -/
  | badComponent (index : Nat) (part text : String) (cause : Error)
  /-- A fraction over zero. -/
  | zeroDenominator (numerator : Int)
  /-- A quotient whose divisor is zero. -/
  | zeroDivisor (dividend divisor : String)
  /-- The inverse of the fraction zero. -/
  | zeroFractionInverse
  /-- The inverse of a complex number that counts as zero. -/
  | zeroComplexInverse (text : String)
  /-- The direction of the zero vector. -/
  | zeroVectorDirection
  /-- Two vectors of different dimensions. -/
  | vectorDimensions (operation : Operation) (left right : Nat)
  /-- Two matrices whose shapes do not fit together. -/
  | matrixShapes (operation : Operation) (left right : Shape)
  /-- A matrix and a vector it cannot be applied to. -/
  | matrixVector (shape : Shape) (dim : Nat)
  /-- A column that is not as long as the matrix is high. -/
  | augmentation (dim rows : Nat)
  /-- Coefficients and elements of different number. -/
  | combinationLengths (coefficients elements : Nat)
  /-- A right-hand side that is not as long as there are equations. -/
  | rightHandSide (dim equations : Nat)
  /-- A place for the solution that is not as long as there are variables. -/
  | solutionVector (dim unknowns : Nat)
  /-- A component beyond the end of a vector. -/
  | vectorIndex (index dim : Nat)
  /-- An entry outside a matrix. -/
  | matrixIndex (row column : Nat) (shape : Shape)
  /-- A row below a matrix. -/
  | rowIndex (row : Nat) (shape : Shape)
  /-- A column beside a matrix. -/
  | columnIndex (column : Nat) (shape : Shape)
  /-- A vector without components. -/
  | emptyVector
  /-- A direction that the space does not have. -/
  | basisDirection (direction dim : Nat)
  /-- A matrix without rows. -/
  | emptyMatrix
  /-- A row that is not as long as the first one. -/
  | raggedRow (row dim first : Nat)
  /-- A row without entries. -/
  | emptyRow (row : Nat)
  /-- A shape with no rows or no columns. -/
  | emptyShape (shape : Shape)
  /-- The average of nothing. -/
  | emptyAverage
  /-- Constants and equations of different number. -/
  | constantsCount (constants equations : Nat)
  /-- A range whose lower end lies above its upper end. -/
  | emptyRange (min max : String)
  /-- A random system of no equations or no variables. -/
  | emptySystem (shape : Shape)
  /-- A random square system of no variables. -/
  | noVariables
  /-- A cross product outside three dimensions. -/
  | crossDimension
  /-- A component without a real value. -/
  | magnitudeComponent
  /-- A length whose inverse the field cannot represent. -/
  | normalizationFactor
  deriving DecidableEq, Repr

namespace Error

/-- The kind of a cause. -/
def kind : Error → ErrorKind
  | notFraction .. | blankComplex | notFinite .. | notVector _ | noComponents _
  | badComponent .. => .invalidFormat
  | zeroDenominator _ | zeroDivisor .. | zeroFractionInverse | zeroComplexInverse _
  | zeroVectorDirection => .divisionByZero
  | vectorDimensions .. | matrixShapes .. | matrixVector .. | augmentation ..
  | combinationLengths .. | rightHandSide .. | solutionVector .. => .dimensionMismatch
  | vectorIndex .. | matrixIndex .. | rowIndex .. | columnIndex .. => .indexOutOfRange
  | emptyVector | basisDirection .. | emptyMatrix | raggedRow .. | emptyRow _ | emptyShape _
  | emptyAverage | constantsCount .. | emptyRange .. | emptySystem _
  | noVariables => .invalidArgument
  | crossDimension | magnitudeComponent | normalizationFactor => .unsupported

/-- The label of the kind, and what went wrong. -/
def message (e : Error) : String :=
  e.kind.label ++ ": " ++ match e with
  | notFraction text fault =>
      s!"'{text}' is not a rational ({fault.reason}); expected 'n/d' or 'n:d'"
  | blankComplex => "empty string is not a complex number"
  | notFinite part whole => s!"'{part}' in '{whole}' is not a finite number"
  | notVector text => s!"'{text}' is not a vector; expected '(c1, c2, ..., cn)'"
  | noComponents text => s!"'{text}' has no components"
  | badComponent index part text cause =>
      s!"component {index} ('{part}') in '{text}': " ++ cause.message
  | zeroDenominator numerator => s!"rational {numerator}/0 has a zero denominator"
  | zeroDivisor dividend divisor => s!"{dividend} / {divisor}"
  | zeroFractionInverse => "zero rational has no inverse"
  | zeroComplexInverse text => s!"{text} is zero and has no inverse"
  | zeroVectorDirection => "cannot normalize the zero vector"
  | vectorDimensions operation left right =>
      s!"{operation.name} of vectors with dimensions {left} and {right}"
  | matrixShapes operation left right => s!"{operation.name} of {left} and {right} matrices"
  | matrixVector shape dim => s!"{shape} matrix times vector of dimension {dim}"
  | augmentation dim rows =>
      s!"column of dimension {dim} cannot augment a matrix with {rows} rows"
  | combinationLengths coefficients elements =>
      s!"{coefficients} coefficients for {elements} elements"
  | rightHandSide dim equations =>
      s!"right-hand side of dimension {dim} for {equations} equations"
  | solutionVector dim unknowns =>
      s!"solution vector of dimension {dim} for {unknowns} variables"
  | vectorIndex index dim => s!"index {index} for vector of dimension {dim}"
  | matrixIndex row column shape => s!"({row}, {column}) for {shape} matrix"
  | rowIndex row shape => s!"row {row} of {shape} matrix"
  | columnIndex column shape => s!"column {column} of {shape} matrix"
  | emptyVector => "vector must have at least one component"
  | basisDirection direction dim => s!"basis direction {direction} outside dimension {dim}"
  | emptyMatrix => "matrix must have at least one row"
  | raggedRow row dim first =>
      s!"row {row} has dimension {dim} but row 0 has dimension {first}"
  | emptyRow row => s!"row {row} is empty"
  | emptyShape shape => s!"matrix shape {shape} must be positive"
  | emptyAverage => "cannot average an empty list"
  | constantsCount constants equations => s!"{constants} constants for {equations} equations"
  | emptyRange min max => s!"empty range: min {min} is greater than max {max}"
  | emptySystem shape =>
      s!"random system needs at least one equation and one variable, got {shape}"
  | noVariables => "random system needs at least one variable"
  | crossDimension => "cross product is only defined for three-dimensional vectors"
  | magnitudeComponent => "magnitude needs components convertible to f64"
  | normalizationFactor => "normalization factor is not representable in the field"

end Error

end RowReduction
