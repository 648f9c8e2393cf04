import Equilibria.Key.Basic

/-!
# Errors

Why an operation fails. `kind` names the class of an error and `text` says what happened;
`isOwn` tells the errors of this library's rules from those of the arithmetic below them.
-/

namespace Equilibria

/-! ## Fields -/

inductive Complaint where
  | missing
  | notText
  | emptyText
  | notNumber
  | unreadableNumber
  | notWhole
  | unreadableWhole
  | fractional
  | infinite
  | tooLarge
  | notRecord (kindName : String)
  | notOneOf (names : List String)
  | refused (reason : String)
  | frozen
  | unknown (field : String)

namespace Complaint

def kind : Complaint → String
  | .missing => "missing"
  | .notText => "string_type"
  | .emptyText => "string_too_short"
  | .notNumber => "float_type"
  | .unreadableNumber => "float_parsing"
  | .notWhole => "int_type"
  | .unreadableWhole => "int_parsing"
  | .fractional => "int_from_float"
  | .infinite => "finite_number"
  | .tooLarge => "int_parsing_size"
  | .notRecord _ => "model_type"
  | .notOneOf _ => "enum"
  | .refused _ => "value_error"
  | .frozen => "frozen_instance"
  | .unknown _ => "no_such_attribute"

def choices (names : List String) : String :=
  match names.reverse.map fun s => "'" ++ s ++ "'" with
  | [] => ""
  | [s] => s
  | s :: r => ", ".intercalate r.reverse ++ " or " ++ s

def text : Complaint → String
  | .missing => "Field required"
  | .notText => "Input should be a valid string"
  | .emptyText => "String should have at least 1 character"
  | .notNumber => "Input should be a valid number"
  | .unreadableNumber => "Input should be a valid number, unable to parse string as a number"
  | .notWhole => "Input should be a valid integer"
  | .unreadableWhole => "Input should be a valid integer, unable to parse string as an integer"
  | .fractional => "Input should be a valid integer, got a number with a fractional part"
  | .infinite => "Input should be a finite number"
  | .tooLarge => "Unable to parse input string as an integer, exceeded maximum size"
  | .notRecord kindName => "Input should be a valid dictionary or instance of " ++ kindName
  | .notOneOf names => "Input should be " ++ choices names
  | .refused reason => "Value error, " ++ reason
  | .frozen => "Instance is frozen"
  | .unknown field => "Object has no attribute '" ++ field ++ "'"

end Complaint

structure Flaw where
  field : String
  complaint : Complaint

def Flaw.text (p : Flaw) : String :=
  p.field ++ ": " ++ p.complaint.kind ++ ": " ++ p.complaint.text

/-! ## The causes -/

inductive Error where
  -- Arithmetic and values
  | wrongType
  | unreadable (text : String)
  | overflow
  | nanToWhole
  | divisionByZero
  | outOfDomain
  | noItem
  | noAttribute
  | unlikeShapes
  | badValue
  | unbound (key : Key)
  -- Documents
  | badToken
  | badStructure
  | badReference
  | badTag
  | badCharacter
  | notMapping (path : String)
  | sectionNotMapping (path : String)
  -- Expressions
  | unusable (kindName : String)
  | unknownOperator (tag : String)
  | unknownFunction (tag : String)
  | coefficientCount (coefficients vars : Nat)
  | noFormula (kindName : String)
  -- Fields, sets and families
  | invalid (flaws : List Flaw)
  | setExists (name : String)
  | setMissing (name : String)
  | notElement (element : Value) (name : String)
  | noIndex (kind name : String) (index : List Value)
  -- Components
  | duplicateVariable (key : Key)
  | duplicateResidual (key : Key)
  | variableMissing (key : Key)
  | residualMissing (key : Key)
  | cardinality (residuals vars : Nat)
  | alreadyPaired (vars residuals : List Key)
  | unpaired (vars residuals : List Key)
  | unregistered (vars residuals : List Key)
  | foreign (residual : Key) (vars : List Key)
  | variableUnpaired (key : Key)
  | residualUnpaired (key : Key)
  | boundsCrossed (key : Key) (lower upper : Float)
  -- Life of a model
  | locked (reason : String)
  | notSolved (model status : String)
  -- Flat problems
  | unknownFormat (name : String)
  | pointShape (expected : Nat) (shape : List Nat)
  | valueShape (shape expected : List Nat)
  | matrixShape (shape : List Nat) (expected : Nat)
  | resultLength (entries pairs : Nat)
  | notFinite (components : List Nat)
  -- Solvers
  | solverExists (name : String)
  | solverMissing (name : String)
  | solverUnavailable (name : String)
  | noTrial
  | endless
  | componentsMissing
  | openCondition
  | raised (kind text : String)

instance : Inhabited Error := ⟨.wrongType⟩

namespace Error

def kind : Error → String
  | .wrongType | .unusable _ | .noFormula _ => "TypeError"
  | .unreadable _ | .nanToWhole | .outOfDomain | .unlikeShapes | .badValue | .notMapping _
  | .sectionNotMapping _ | .unknownOperator _ | .unknownFunction _ | .coefficientCount ..
  | .setExists _ | .notElement .. | .unknownFormat _ | .pointShape .. | .valueShape ..
  | .matrixShape .. | .resultLength .. | .solverExists _ | .componentsMissing => "ValueError"
  | .overflow => "OverflowError"
  | .divisionByZero => "ZeroDivisionError"
  | .noItem => "IndexError"
  | .noAttribute => "AttributeError"
  | .unbound _ | .setMissing _ | .noIndex .. | .variableMissing _ | .residualMissing _
  | .variableUnpaired _ | .residualUnpaired _ | .solverMissing _ => "KeyError"
  | .badToken => "ScannerError"
  | .badStructure => "ParserError"
  | .badReference => "ComposerError"
  | .badTag => "ConstructorError"
  | .badCharacter => "ReaderError"
  | .invalid _ => "ValidationError"
  | .duplicateVariable _ => "DuplicateVariableError"
  | .duplicateResidual _ => "DuplicateResidualError"
  | .cardinality .. => "CardinalityMismatchError"
  | .alreadyPaired .. => "DuplicateCorrespondenceError"
  | .unpaired .. => "IncompleteCorrespondenceError"
  | .unregistered .. => "UnknownComponentError"
  | .foreign .. => "ForeignReferenceError"
  | .boundsCrossed .. => "BoundInversionError"
  | .locked _ => "ModelStateError"
  | .notSolved .. => "NotSolvedError"
  | .notFinite _ => "FloatingPointError"
  | .solverUnavailable _ | .openCondition => "RuntimeError"
  | .noTrial => "UnboundLocalError"
  | .endless => "TimeoutError"
  | .raised kind _ => kind

/-- Errors of this class are an answer for solvers, whoever raises them. -/
def isFloatingPoint (e : Error) : Bool := e.kind == "FloatingPointError"

/-- A model that is inconsistent is told apart from a model in the wrong state. -/
inductive Family where
  | configuration
  | lifecycle
deriving DecidableEq

def Family.name : Family → String
  | .configuration => "ConfigurationError"
  | .lifecycle => "ComplementarityError"

def family? : Error → Option Family
  | .duplicateVariable _ | .duplicateResidual _ | .cardinality .. | .alreadyPaired ..
  | .unpaired .. | .unregistered .. | .foreign .. | .boundsCrossed .. => some .configuration
  | .locked _ | .notSolved .. => some .lifecycle
  | _ => none

/-! ## Texts -/

def names (keys : List Key) : String := ", ".intercalate (keys.map Key.toText)

/-- The keys of each side that has any, under its label. -/
def sides (variableLabel residualLabel : String) (vars residuals : List Key) : String :=
  let part (label : String) (keys : List Key) : List String :=
    if keys.isEmpty then [] else [label ++ names keys]
  "; ".intercalate (part variableLabel vars ++ part residualLabel residuals)

def shapeText (shape : List Nat) : String := Value.tupleText (shape.map toString)

def text : Error → String
  | .wrongType | .overflow | .nanToWhole | .divisionByZero | .outOfDomain | .noItem
  | .noAttribute | .unlikeShapes | .badValue | .unbound _ | .badToken | .badStructure
  | .badReference | .badTag | .badCharacter | .noTrial | .endless => ""
  | .unreadable s => "could not convert string to float: " ++ Text.quoted s
  | .notMapping path => s!"Options YAML must define a top-level mapping: {path}"
  | .sectionNotMapping path => s!"'options' must be a mapping: {path}"
  | .unusable kindName => s!"Cannot use {kindName} in an expression"
  | .unknownOperator tag => s!"Unknown binary operator '{tag}'"
  | .unknownFunction tag => s!"Unknown function '{tag}'"
  | .coefficientCount c v => s!"dot: {c} coefficients for {v} variables"
  | .noFormula kindName => s!"PATH back end cannot translate {kindName} residuals"
  | .invalid flaws => "; ".intercalate (flaws.map Flaw.text)
  | .setExists name => s!"Set '{name}' already exists"
  | .setMissing name => s!"Set '{name}' not found"
  | .notElement element name => s!"Element '{element.toText}' not in set '{name}'"
  | .noIndex kind name index => s!"{kind} '{name}' has no index {(Value.tuple index).repr}"
  | .duplicateVariable key => s!"Variable '{key}' already exists"
  | .duplicateResidual key => s!"Residual '{key}' already exists"
  | .variableMissing key => s!"Variable '{key}' not found"
  | .residualMissing key => s!"Residual '{key}' not found"
  | .cardinality r v => s!"Cannot pair {r} residual(s) with {v} variable(s)"
  | .alreadyPaired v r => "Already paired: " ++ sides "variable(s) " "residual(s) " v r
  | .unpaired v r =>
    "Incomplete correspondence; " ++ sides "unpaired variable(s): " "unpaired residual(s): " v r
  | .unregistered v r =>
    "Not registered in this model: " ++ sides "variable(s) " "residual(s) " v r
  | .foreign r v => s!"Residual '{r}' references unregistered variable(s) {names v}"
  | .variableUnpaired key => s!"Variable '{key}' has no paired residual"
  | .residualUnpaired key => s!"Residual '{key}' has no paired variable"
  | .boundsCrossed key l u =>
    s!"Variable '{key}': lower bound {shortText l} exceeds upper bound {shortText u}"
  | .locked reason => reason
  | .notSolved model status => s!"Model '{model}' is {status}; no solution available"
  | .unknownFormat name =>
    s!"Unknown Jacobian format '{name}', expected one of ('dense', 'csr')"
  | .pointShape n shape => s!"Expected a point of length {n}, got shape {shapeText shape}"
  | .valueShape shape expected =>
    s!"F returned shape {shapeText shape}, expected {shapeText expected}"
  | .matrixShape shape n => s!"M has shape {shapeText shape}, expected ({n}, {n})"
  | .resultLength m n => s!"Result has {m} entries, model has {n} pairs"
  | .notFinite components =>
    "F is not finite at components [" ++ ", ".intercalate (components.map toString) ++ "]"
  | .solverExists name => s!"Solver '{name}' is already registered"
  | .solverMissing name => s!"Solver '{name}' not found in registry"
  | .solverUnavailable name => s!"Solver '{name}' is not available"
  | .componentsMissing => "PATH back end requires the ordered variables and residuals"
  | .openCondition => "Complementarity condition must have exactly two finite bounds"
  | .raised _ text => text

/-- The line that reports an error where it ends a run. A missing item is named in quotes. -/
def report (e : Error) : String :=
  e.kind ++ ": " ++ if e.kind == "KeyError" then Text.quoted e.text else e.text

/-- Whether the error comes from a rule of this library and its text is part of the answer. -/
def isOwn : Error → Bool
  | .wrongType | .unreadable _ | .overflow | .nanToWhole | .divisionByZero | .outOfDomain
  | .noItem | .noAttribute | .unlikeShapes | .badValue | .unbound _ | .badToken | .badStructure
  | .badReference | .badTag | .badCharacter | .noTrial | .endless | .openCondition => false
  | _ => true

end Error

end Equilibria
