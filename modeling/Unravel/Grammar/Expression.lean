import Unravel.Grammar.Reader

/-! Expressions. Binary operators are read as a flat chain of operands, which `Chain.group` then groups by how
   tightly the operators bind. An assignment and an arrow function can be an operand of any operator; what
   follows them belongs to them. -/
namespace Unravel.Grammar

/-- How tightly an operator binds its operands in source. -/
def level : BinaryOp → Nat
  | .nullish => 1
  | .logicalOr => 2
  | .logicalAnd => 3
  | .bitOr => 4
  | .bitXor => 5
  | .bitAnd => 6
  | .looseEq | .looseNe | .strictEq | .strictNe => 7
  | .less | .greater | .lessEq | .greaterEq | .membership | .instanceOf => 8
  | .shiftLeft | .shiftRight | .shiftRightZero => 9
  | .add | .sub => 10
  | .mul | .div | .rem => 11
  | .pow | .other _ => 12

/-- Whether an operator takes the operand between it and a later operator. Powers group to the right. -/
def takesBefore (earlier later : BinaryOp) : Bool :=
  level later < level earlier || (level later == level earlier && earlier != .pow)

namespace Chain

variable {α : Type} (join : α → BinaryOp → α → α)

/-- Joins the operands waiting on the left that an incoming operator leaves complete. -/
def settle (incoming : BinaryOp) : List (α × BinaryOp) → α → List (α × BinaryOp) × α
  | [], last => ([], last)
  | (left, op) :: waiting, last =>
    if takesBefore op incoming then settle incoming waiting (join left op last) else ((left, op) :: waiting, last)

/-- Groups operands that stand between operators. -/
def group (first : α) (tail : List (BinaryOp × α)) : α :=
  let (waiting, last) := tail.foldl (fun (state : List (α × BinaryOp) × α) (next : BinaryOp × α) =>
    let (waiting, left) := settle join next.1 state.1 state.2
    ((left, next.1) :: waiting, next.2)) ([], first)
  waiting.foldl (fun right left => join left.1 left.2 right) last

end Chain

/-- The binary operator that a token stands for. -/
def binaryOp? : Token → Option BinaryOp
  | .symbol s | .word s =>
    match BinaryOp.ofSymbol s with
    | .other _ => none
    | op => some op
  | _ => none

def unaryOp? : Token → Option UnaryOp
  | .symbol s | .word s =>
    match UnaryOp.ofSymbol s with
    | .other _ => none
    | op => some op
  | _ => none

def compoundAssignments : List Text := List.map Text.ofString [
  "+=", "-=", "*=", "/=", "%=", "**=", "<<=", ">>=", ">>>=", "&=", "|=", "^=", "&&=", "||=", "??="]

namespace Readers

variable (r : Readers)

/-- Whether the statement ends here, where it may. -/
def isOver (mayEnd : Bool) : Reader Bool := if mayEnd then endsHere true else pure false

/-- The rest of a template after its back quote or after a substitution. -/
def templateRest : Nat → Reader Unit
  | 0 => failure
  | n + 1 => do
    let c ← get
    match c.rest with
    | [] => failure
    | x :: more =>
      if x = '`' then set (c.skip 1)
      else if x = '\\' then
        match escapeLength? more with
        | some length => set (c.skip (length + 1)); templateRest n
        | none => failure
      else if x = '$' ∧ more.head? = some (CodePoint.ofChar '\x7b') then
        set (c.skip 2)
        let _ ← r.expressions false
        symbol "\x7d"
        templateRest n
      else
        set (c.skip 1)
        templateRest n

def template : Reader Unit := do
  symbol "`"
  r.templateRest r.bound

/-- A regular expression; the cursor stands before its first slash. -/
def pattern : Reader Unit := do
  let c := (← get).ahead
  match patternLength? .plain (c.rest.drop 1) with
  | some length => set (c.skip (length + 1))
  | none => failure

/-- Members of a list up to its closing bracket, and whether a comment stands before the bracket. -/
def elements (closing : String) : Nat → Reader (List Element × Bool)
  | 0 => failure
  | n + 1 => do
    let commented := (gap (← get).rest).hasComment
    if ← takeSymbol closing then return ([], commented)
    if ← takeSymbol "," then
      let (rest, commented) ← elements closing n
      return (.comma :: rest, commented)
    let start ← position
    let spread ← takeSymbol "..."
    let p ← r.cover false
    require ((← isNextSymbol ",") || (← isNextSymbol closing))
    let (rest, commented) ← elements closing n
    return ((if spread then .spread start p else .item p) :: rest, commented)

def array : Reader Phrase := do
  let start ← position
  symbol "["
  let (elements, commented) ← r.elements "]" r.bound
  return .array start elements commented

/-- Arguments after the opening parenthesis. -/
def arguments : Reader (List Element) := do
  let (elements, _) ← r.elements ")" r.bound
  require (elements.all Element.isExpression)
  return elements

/-- The name of a member of an object or class: a token, which for a computed name is its opening bracket. -/
def propertyName : Reader Token := do
  match ← take with
  | .symbol s =>
    require (s = "[")
    let _ ← r.expression false
    symbol "]"
    return .symbol s
  | t => return t

/-- Whether a pattern can start with a token. -/
def startsPattern : Token → Bool
  | .word w => isName w || w = "this" || w = "super"
  | .symbol s => s = "[" ∨ s = "\x7b"
  | _ => false

/-- A pattern that stands for a parameter. -/
def parameter : Reader Parameter := do
  let start ← position
  let rest ← takeSymbol "..."
  require ((← peek).any startsPattern)
  let p ← r.target
  require p.role.isPattern
  if rest then return .foreign "rest_pattern" start
  if ← takeSymbol "=" then
    let _ ← r.expression false
    return .foreign "assignment_pattern" start
  return .ofPhrase p

def parameterList : Nat → Reader (List Parameter)
  | 0 => failure
  | n + 1 => do
    if ← takeSymbol ")" then return []
    let head ← r.parameter
    if ← takeSymbol "," then return head :: (← parameterList n)
    symbol ")"
    return [head]

def parameters : Reader (List Parameter) := do
  symbol "("
  r.parameterList r.bound

/-- A word or symbol that may stand before the name of a method. -/
def modifier : Reader Unit := do
  let words : List Text := ["static", "async", "get", "set"]
  match ← take with
  | .word w => require (words.contains w)
  | .symbol s => require (s = "*")
  | _ => failure

/-- A method up to its body, with up to three modifiers. -/
def methodHead : Reader Unit := do
  let head : Reader Unit := do
    let _ ← r.propertyName
    let _ ← r.parameters
  head <|> (do modifier; head) <|> (do modifier; modifier; head) <|> (do modifier; modifier; modifier; head)

/-- Takes a method if one comes next. -/
def takeMethod : Reader Bool := do
  match ← optionally r.methodHead with
  | some _ =>
    let _ ← r.block
    return true
  | none => return false

def objectMember : Reader Member := do
  let start ← position
  if ← takeSymbol "..." then return .spread start (← r.cover false)
  if ← r.takeMethod then return .method start
  let key ← r.propertyName
  if ← takeSymbol ":" then return .pair key start (← r.cover false)
  match key with
  | .word w =>
    require (isName w)
    if ← takeSymbol "=" then
      let _ ← r.expression false
      return .defaulted w
    return .shorthand w
  | _ => failure

def objectMembers : Nat → Reader (List Member)
  | 0 => failure
  | n + 1 => do
    if ← takeSymbol "\x7d" then return []
    if ← takeSymbol "," then objectMembers n
    else
      let head ← r.objectMember
      require ((← isNextSymbol ",") || (← isNextSymbol "\x7d"))
      return head :: (← objectMembers n)

def object : Reader Phrase := do
  let start ← position
  symbol "\x7b"
  return .object start (← r.objectMembers r.bound)

def classMember : Reader Unit := do
  if ← takeSymbol ";" then return ()
  if (← lookahead (do word "static"; symbol "\x7b")).isSome then
    word "static"
    let _ ← r.block
  else if ← r.takeMethod then return ()
  else
    let field (isStatic : Bool) : Reader Unit := do
      if isStatic then word "static"
      let _ ← r.propertyName
      if ← takeSymbol "=" then
        let _ ← r.expression true
        semicolon true
      else semicolon false
    match ← optionally (field false) with
    | some _ => return ()
    | none => field true

/-- The part of a class after its name. -/
def classRest : Reader Unit := do
  if ← takeWord "extends" then
    let _ ← r.expression false
  symbol "\x7b"
  let _ ← untilStop (takeSymbol "\x7d") (r.classMember) r.bound

/-- A name, where one can stand. -/
def nameIfAny : Reader (Option Text) := optionally name

def classExpression (start : Position) : Reader Phrase := do
  word "class"
  let _ ← nameIfAny
  r.classRest
  return .foreign "class" start

def functionExpression (start : Position) (isAsync : Bool) : Reader Phrase := do
  word "function"
  let generator ← takeSymbol "*"
  let name ← nameIfAny
  let params ← r.parameters
  let body ← r.block
  return .function (if generator then "generator_function" else "function_expression") start isAsync name params body.body

/-- Statements in braces, or an expression whose value is returned. Braces that read as both a block with a label
and an object are an object. -/
def arrowBody (mayEnd : Bool) : Reader (Outcome (List Shape)) := do
  let value : Reader (Outcome (List Shape)) := do
    let e ← r.expression mayEnd
    return do return [.node () (.returnStatement (some (← e.lowered)))]
  let start ← get
  match ← optionally r.block with
  | none => value
  | some b =>
    let next ← get
    let statements : Reader (Outcome (List Shape)) := do
      set next
      return b.body
    if b.hasLabel then
      set start
      value <|> statements
    else statements

def arrowRest (start : Position) (isAsync mayEnd : Bool) (params : List Parameter) : Reader Phrase := do
  symbol "=>"
  return .arrow start isAsync params (← r.arrowBody mayEnd)

def arrow (start : Position) (isAsync mayEnd : Bool) : Reader Phrase := do
  r.arrowRest start isAsync mayEnd (← r.parameters)

/-- An expression in parentheses, or an arrow function that starts with one. -/
def parenthesised (start : Position) (mayEnd : Bool) : Reader Phrase :=
  (do
    symbol "("
    let e ← r.expressions false
    symbol ")"
    require !(← isNextSymbol "=>")
    return .parenthesised start e)
  <|> r.arrow start false mayEnd

/-- A name, or an arrow function with one parameter. -/
def nameOrArrow (start : Position) (mayEnd : Bool) : Reader Phrase := do
  let n := Phrase.name (← name) start
  if n.role = .name ∧ (← isNextSymbol "=>") then r.arrowRest start false mayEnd [.ofPhrase n] else return n

/-- After the word `async`: a function, or nothing if the word is a plain name. -/
def asyncFunction (start : Position) (mayEnd : Bool) : Reader Phrase := do
  word "async"
  require !(← isOver mayEnd)
  if ← isNextWord "function" then r.functionExpression start true
  else
    let single : Reader Phrase := do
      let place ← position
      let p := Phrase.name (← name) place
      r.arrowRest start true mayEnd [.ofPhrase p]
    single <|> r.arrow start true mayEnd

def wordExpression (start : Position) (mayEnd : Bool) (w : Text) : Reader Phrase := do
  if w = "true" ∨ w = "false" then
    let _ ← take
    return .leaf w start (.boolean (w = "true"))
  else if w = "null" then
    let _ ← take
    return .leaf w start .null
  else if w = "this" ∨ w = "super" then
    let _ ← take
    return .foreign w start
  else if w = "function" then r.functionExpression start false
  else if w = "class" then r.classExpression start
  else if w = "import" then
    let _ ← take
    if ← takeSymbol "." then
      word "meta"
      return .foreign "meta_property" start
    require (← isNextSymbol "(")
    return .foreign "import" start
  else if w = "async" then r.asyncFunction start mayEnd <|> r.nameOrArrow start mayEnd
  else r.nameOrArrow start mayEnd

/-- An expression that operators do not take apart. -/
def primary (mayEnd : Bool) : Reader Phrase := do
  let start ← position
  match ← peek with
  | some (.word w) => r.wordExpression start mayEnd w
  | some (.number t) =>
    let _ ← take
    return .number t start
  | some (.string t) =>
    let _ ← take
    return .string t start
  | some (.symbol s) =>
    if s = "(" then r.parenthesised start mayEnd
    else if s = "[" then r.array
    else if s = "\x7b" then r.object
    else if s = "`" then
      r.template
      return .foreign "template_string" start
    else if s = "/" ∨ s = "/=" then
      pattern
      return .foreign "regex" start
    else failure
  | _ => failure

/-- The name of a member after a point. -/
def memberOf (object : Phrase) (isOptional : Bool) : Reader Phrase := do
  let place ← position
  match ← take with
  | .word w => return .member object isOptional (.word w) place
  | .privateName w => return .member object isOptional (.privateName w) place
  | _ => failure

def indexOf (object : Phrase) (isOptional : Bool) : Reader Phrase := do
  symbol "["
  let key ← r.expressions false
  symbol "]"
  return .index object isOptional key

def callOf (f : Phrase) (isOptional : Bool) : Reader Phrase := do
  symbol "("
  return .call f isOptional (← r.arguments)

/-- One access, call or step after an expression; `calls` is false inside `new`. -/
def suffix? (calls mayEnd : Bool) (p : Phrase) : Reader (Option Phrase) := do
  if ← isOver mayEnd then return none
  match ← peek with
  | some (.symbol s) =>
    if s = "." then
      symbol "."
      return some (← memberOf p false)
    else if s = "[" then return some (← r.indexOf p false)
    else if s = "`" then
      let place ← position
      r.template
      return some (.tagged p place)
    else if !calls then return none
    else if s = "(" then return some (← r.callOf p false)
    else if s = "?." then
      symbol "?."
      if ← isNextSymbol "[" then return some (← r.indexOf p true)
      else if ← isNextSymbol "(" then return some (← r.callOf p true)
      else return some (← memberOf p true)
    else if s = "++" ∨ s = "--" then
      let _ ← take
      return some (.foreign "update_expression" p.start)
    else return none
  | _ => return none

def suffixes (calls mayEnd : Bool) : Nat → Phrase → Reader Phrase
  | 0, _ => failure
  | n + 1, p => do
    match ← r.suffix? calls mayEnd p with
    | some next =>
      require p.isExpression
      suffixes calls mayEnd n next
    | none => return p

/-- The word `new` with what it constructs and the arguments, if any. -/
def construction : Nat → Reader Phrase
  | 0 => failure
  | n + 1 => do
    let start ← position
    word "new"
    if ← takeSymbol "." then
      word "target"
      return .foreign "meta_property" start
    if ← isNextWord "new" then
      let _ ← construction n
    else
      let _ ← r.suffixes false false r.bound (← r.primary false)
    if ← isNextSymbol "(" then
      symbol "("
      let _ ← r.arguments
    return .foreign "new_expression" start

/-- An expression with all its accesses and calls. -/
def access (mayEnd : Bool) : Reader Phrase := do
  let head ← if ← isNextWord "new" then r.construction r.bound else r.primary mayEnd
  r.suffixes true mayEnd r.bound head

/-- An expression with its accesses, and the assignment to it, if any. -/
def assignable (mayEnd : Bool) : Reader Phrase := do
  let p ← r.access mayEnd
  match ← peek with
  | some (.symbol s) =>
    if (s = "=" ∧ p.role.isTarget) ∨ (compoundAssignments.contains s ∧ p.role.isCompoundTarget) then
      let _ ← take
      return .assign p s (← r.expression mayEnd)
    else return p
  | _ => return p

def yieldExpression (mayEnd : Bool) : Reader Phrase := do
  let start ← position
  word "yield"
  if !(← isOver mayEnd) then
    if ← takeSymbol "*" then
      let _ ← r.expression mayEnd
    else
      let _ ← optionally (r.expression mayEnd)
  return .foreign "yield_expression" start

def privateOperand : Reader Phrase := do
  let start ← position
  let _ ← take
  require (← isNextWord "in")
  return .foreign "private_property_identifier" start

/-- An operand of a binary operator: the operators before it bind tighter. -/
def operand (mayEnd : Bool) : Nat → Reader Phrase
  | 0 => failure
  | n + 1 => do
    let start ← position
    match ← peek with
    | some (.privateName _) => privateOperand
    | some (.word w) =>
      if w = "yield" then r.yieldExpression mayEnd
      else if w = "await" then
        (do
          word "await"
          require !(← isOver mayEnd)
          let p ← operand mayEnd n
          require p.isExpression
          return .foreign "await_expression" start)
        <|> r.assignable mayEnd
      else match unaryOp? (.word w) with
        | some op =>
          let _ ← take
          let p ← operand mayEnd n
          require p.isExpression
          return .unary op start p
        | none => r.assignable mayEnd
    | some (.symbol s) =>
      if s = "++" ∨ s = "--" then
        let _ ← take
        let p ← operand mayEnd n
        require p.isExpression
        return .foreign "update_expression" start
      else match unaryOp? (.symbol s) with
        | some op =>
          let _ ← take
          let p ← operand mayEnd n
          require p.isExpression
          return .unary op start p
        | none => r.assignable mayEnd
    | _ => r.assignable mayEnd

/-- The operators and operands after the first operand. -/
def chain (mayEnd : Bool) : Nat → Reader (List (BinaryOp × Phrase))
  | 0 => failure
  | n + 1 => do
    if ← isOver mayEnd then return []
    match (← peek).bind binaryOp? with
    | some op =>
      let _ ← take
      let p ← r.operand mayEnd r.bound
      require p.isExpression
      return (op, p) :: (← chain mayEnd n)
    | none => return []

/-- Operands with the operators between them. -/
def operation (mayEnd : Bool) : Reader Phrase := do
  let first ← r.operand mayEnd r.bound
  let tail ← r.chain mayEnd r.bound
  require (tail.isEmpty || first.isExpression)
  return Chain.group Phrase.binary first tail

/-- An expression without commas, or a literal that is a pattern only. -/
def coverWith (mayEnd : Bool) : Reader Phrase := do
  let test ← r.operation mayEnd
  if !(← isOver mayEnd) && (← isNextSymbol "?") then
    require test.isExpression
    symbol "?"
    let consequent ← r.expression false
    symbol ":"
    return .conditional test consequent (← r.expression mayEnd)
  else return test

end Readers

end Unravel.Grammar
