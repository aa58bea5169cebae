import Unravel.Value

/-! Everything that can go wrong, as causes. `Fault.category` sorts them, `Fault.message` words them. -/
namespace Unravel

inductive Category where
  | parse
  | unsupported
  | pool
  | evaluation
  | shape
  | general
  | badValue
  | wrongType
  | overflow
  | zeroDivision
  | runtime
  | json
  | missingName
  | encoding
deriving DecidableEq

inductive Fault where
  /-- A fault that a caller's own pass or resolver reports. -/
  | raised (category : Category) (message : Text)
  -- source text
  | syntaxError
  | notSingleExpression
  | notFunction (found : Text)
  | parameterCount (count : Nat)
  | invalidNumber (text : Text)
  | malformedString (text : Text)
  | unsupportedAt (construct : Text) (line column : Nat)
  | bigInteger (text : Text)
  | codePointRange
  | codePointOverflow
  | loneSurrogates (first : CodePoint) (start stop : Nat)
  -- trees
  | cannotDelete (kind parent : Text)
  | detached (verb : Text)
  | unknownOrder (order : Text)
  | notLiteral (kind : Text)
  | notBuildable (value : Value)
  | notRenderable (kind : Text) (role : Text)
  | nameless (kind : Text)
  -- numbers
  | noDigits
  | invalidDigits (base : Nat) (digits : Text)
  | digitLimit (count : Nat)
  | integerTooLarge
  | moduloByZero
  -- evaluation
  | outsideAlgebra (value : Value)
  | notConvertible (value : Value) (target : Text)
  | arrayIdentity
  | unknownOperator (role symbol : Text)
  | unfoldableOperator (role symbol : Text)
  | unknownPath (path : Text)
  | notMeasurable (path : Text)
  | measuredOutside (path : Text)
  | arity (path : Text) (least : Nat) (most : Option Nat) (count : Int)
  | notReadable (path : Text)
  | notMeasured (path : Text)
  | notCallable (path : Text)
  | outsideGrammar (kind : Text)
  | notReduced (residual : Text)
  | localMember (name : Text)
  | keyNotStatic (key : Text)
  | notPath (expression : Text)
  | localBinding (name : Text)
  | localCall (name : Text)
  | callNeedsLiterals (name : Text)
  | callFailed (name : Text) (cause : Fault)
  | missingArgument
  | indexNotFinite (index : Value)
  -- string pools
  | noAccessor (pool : Text)
  | noRotation (pool : Text)
  | notConverging (rotations : Nat) (check : Text) (target : Value)
  -- results
  | noReturn
  | elementCount (count : Nat)
  | notTriple (result : Text)
  | noResult
  | notConstant (element : Text)
  | notNumeric (value : Value)
  -- challenges and environments
  | missingFields (names : List Text)
  | fieldKind (name expected : Text)
  | challengeNotJson (cause : Fault)
  | challengeNotObject
  | unknownKeys (names : List Text)
  | processKeysKind
  | markerKind
  | notObject (path : Text)
  -- structured data
  | json (problem : Text) (line column offset : Nat)
  | notSerialisable
  | incomparableKeys (left right : Text)

namespace Fault

def category : Fault → Category
  | raised c _ => c
  | syntaxError | notSingleExpression | notFunction _ | parameterCount _ | invalidNumber _ | malformedString _
  | missingFields _ | fieldKind .. | challengeNotJson _ | challengeNotObject => .parse
  | unsupportedAt .. | bigInteger _ | cannotDelete .. => .unsupported
  | noAccessor _ | noRotation _ | notConverging .. => .pool
  | outsideAlgebra _ | notConvertible .. | arrayIdentity | unknownOperator .. | unfoldableOperator .. | unknownPath _
  | notMeasurable _ | measuredOutside _ | arity .. | notReadable _ | notMeasured _ | notCallable _ | outsideGrammar _
  | notReduced _ | localMember _ | keyNotStatic _ | notPath _ | localBinding _ | localCall _ | callNeedsLiterals _
  | callFailed .. | indexNotFinite _ => .evaluation
  | noReturn | elementCount _ | notTriple _ | noResult | notConstant _ | notNumeric _ => .shape
  | codePointRange | detached _ | unknownOrder _ | noDigits | invalidDigits .. | digitLimit _ | unknownKeys _
  | processKeysKind | markerKind | notObject _ => .badValue
  | codePointOverflow | integerTooLarge => .overflow
  | moduloByZero => .zeroDivision
  | notLiteral _ | notBuildable _ | notRenderable .. | missingArgument | notSerialisable | incomparableKeys .. => .wrongType
  | nameless _ => .missingName
  | loneSurrogates .. => .encoding
  | json .. => .json

/-- The accepted number of arguments. -/
def arityText (least : Nat) : Option Nat → Text
  | none => "at least " ++ Text.ofNat least
  | some most => if least = most then Text.ofNat least else Text.ofNat least ++ ".." ++ Text.ofNat most

def message : Fault → Text
  | raised _ text => text
  | syntaxError => "syntax error"
  | notSingleExpression => "input is not a single expression"
  | notFunction found => "expected a function expression, found " ++ found
  | parameterCount count => "expected exactly one parameter, found " ++ Text.ofNat count
  | invalidNumber text => "invalid number literal " ++ text.shown
  | malformedString text => "malformed string literal " ++ text.shown
  | unsupportedAt construct line column =>
    construct ++ " at line " ++ Text.ofNat line ++ ", column " ++ Text.ofNat column
  | bigInteger text => "BigInt literal " ++ text
  | codePointRange => "chr() arg not in range(0x110000)"
  | codePointOverflow => "Python int too large to convert to C int"
  | loneSurrogates first start stop =>
    if start + 1 = stop then
      "'utf-8' codec can't encode character '\\u" ++ Text.hex 4 first.toNat ++ "' in position " ++ Text.ofNat start
        ++ ": surrogates not allowed"
    else
      "'utf-8' codec can't encode characters in position " ++ Text.ofNat start ++ "-" ++ Text.ofNat (stop - 1)
        ++ ": surrogates not allowed"
  | cannotDelete kind parent => "cannot delete " ++ kind ++ " from " ++ parent
  | detached verb => "cannot " ++ verb ++ " a detached node"
  | unknownOrder order => "unknown traversal order " ++ order.shown
  | notLiteral kind => kind ++ " is not a literal"
  | notBuildable value => "cannot build a literal from " ++ value.shown
  | notRenderable kind role => "cannot render " ++ kind ++ role
  | nameless kind => "'" ++ kind ++ "' object has no attribute 'name'"
  | noDigits => "no digits"
  | invalidDigits base digits =>
    "invalid literal for int() with base " ++ Text.ofNat base ++ ": " ++ digits.shown.take 200
  | digitLimit count =>
    "Exceeds the limit (4300 digits) for integer string conversion: value has " ++ Text.ofNat count
      ++ " digits; use sys.set_int_max_str_digits() to increase the limit"
  | integerTooLarge => "int too large to convert to float"
  | moduloByZero => "integer modulo by zero"
  | outsideAlgebra value => "Value outside the sandbox algebra: " ++ value.shown
  | notConvertible value target => "Cannot convert " ++ value.shown ++ " to " ++ target
  | arrayIdentity => "Array identity is not modelled by the sandbox"
  | unknownOperator role symbol => "Unsupported " ++ role ++ " operator " ++ symbol.shown
  | unfoldableOperator role symbol => "unsupported " ++ role ++ " operator " ++ symbol.shown
  | unknownPath path => "Unknown namespace path " ++ path.shown
  | notMeasurable path => path.shown ++ " is not a measured namespace path"
  | measuredOutside path => "Measured value for " ++ path.shown ++ " is outside the sandbox algebra"
  | arity path least most count =>
    path ++ " expects " ++ arityText least most ++ " argument(s), got " ++ Text.ofInt count
  | notReadable path => path ++ " is a function and cannot be read as a value"
  | notMeasured path => path ++ " has not been measured"
  | notCallable path => path ++ " is not callable"
  | outsideGrammar kind => kind ++ " is outside the evaluator grammar"
  | notReduced residual => "expression does not reduce to a literal: " ++ residual
  | localMember name => "member access on local binding " ++ name.shown ++ " is not modelled"
  | keyNotStatic key => "computed key " ++ key ++ " is not static"
  | notPath expression => expression ++ " is not a namespace path"
  | localBinding name => name.shown ++ " is a local binding that cannot be folded"
  | localCall name => "call to local function " ++ name.shown ++ " cannot be folded"
  | callNeedsLiterals name => "call to " ++ name.shown ++ " needs literal arguments"
  | callFailed name cause => "call to " ++ name.shown ++ " failed: " ++ cause.message
  | missingArgument => "missing an argument"
  | indexNotFinite index => "string pool index " ++ index.shown ++ " is not finite"
  | noAccessor pool => "no accessor found for string pool function " ++ pool
  | noRotation pool => "no rotating invocation found for string pool function " ++ pool
  | notConverging rotations check target =>
    "string pool did not converge after " ++ Text.ofNat rotations ++ " rotations (check " ++ check
      ++ " never equals " ++ target.shown ++ ")"
  | noReturn => "function body does not return a value"
  | elementCount count => "expected a three element array, got " ++ Text.ofNat count ++ " elements"
  | notTriple result => "result does not fold to a three element array: " ++ result
  | noResult => "pipeline did not produce a folded result"
  | notConstant element => "result element " ++ element ++ " is not a constant"
  | notNumeric value => "first result element is not numeric: " ++ value.shown
  | missingFields names => "challenge is missing field(s): " ++ Text.join ", " names
  | fieldKind name expected => "challenge field " ++ name.shown ++ " must be a " ++ expected
  | challengeNotJson cause => "challenge is not valid JSON: " ++ cause.message
  | challengeNotObject => "challenge JSON must be an object"
  | unknownKeys names => "unknown environment keys: " ++ Text.join ", " names
  | processKeysKind => "process_keys must be a list of strings"
  | markerKind => "marker must be a string, number, boolean or null"
  | notObject path => path ++ " does not contain a JSON object"
  | json problem line column offset =>
    problem ++ ": line " ++ Text.ofNat line ++ " column " ++ Text.ofNat column ++ " (char " ++ Text.ofNat offset ++ ")"
  | notSerialisable => "Object of type _Undefined is not JSON serializable"
  | incomparableKeys left right =>
    "'<' not supported between instances of '" ++ left ++ "' and '" ++ right ++ "'"

end Fault

abbrev Outcome (α : Type) := Except Fault α

end Unravel
