import Unravel.Grammar.Expression

/-! Statements. Those outside the supported language are read in full, so that a syntax error in them is found. -/
namespace Unravel.Grammar

namespace Readers

variable (r : Readers)

def expressionStatement : Reader Clause := do
  let start ← position
  let e ← r.expressions true
  semicolon true
  return .ofExpression start e

/-- What a declaration or a `catch` introduces: a name, or a pattern in brackets. -/
def binding : Reader (Option Text) := do
  match ← peek with
  | some (.word _) => return some (← name)
  | _ =>
    let p ← r.primary false
    match p.role with
    | .composite isPattern => require isPattern; return none
    | _ => failure

def declarator : Reader Declarator := do
  let start ← position
  let name ← r.binding
  if ← takeSymbol "=" then return ⟨start, name, some (← r.expression true)⟩
  return ⟨start, name, none⟩

/-- A declaration with the end of its statement. -/
def declaration (kind : Text) : Reader (Outcome (Form Shape)) := do
  let _ ← take
  let ds ← commaSeparated r.declarator r.bound
  semicolon (ds.getLast?.any fun d => d.value.isSome)
  return Declarator.declaration kind ds

/-- Whether the word `let` starts a declaration. -/
def isLetDeclaration : Reader Bool := do
  let head : Reader Unit := do
    word "let"
    require !(← endsHere true)
    match ← take with
    | .word w => require (isName w)
    | .symbol s => require (s = "[" ∨ s = "\x7b")
    | _ => failure
  return (← lookahead head).isSome

/-- The word that starts a declaration, if one comes next. -/
def declarationWord : Reader (Option Text) := do
  if ← isNextWord "var" then return some "var"
  if ← isNextWord "const" then return some "const"
  if ← isLetDeclaration then return some "let"
  return none

def declarationStatement (kind : Text) : Reader Clause := do
  let start ← position
  let form ← r.declaration kind
  return .single (if kind = "var" then "variable_declaration" else "lexical_declaration") start form

/-- A function with a name at the start of a statement is a declaration. -/
def isFunctionDeclaration : Reader Bool := do
  let head : Reader Unit := do
    if ← takeWord "async" then require !(← endsHere true)
    word "function"
    let _ ← takeSymbol "*"
    let _ ← name
  return (← lookahead head).isSome

def functionDeclaration : Reader Clause := do
  let start ← position
  let isAsync ← takeWord "async"
  word "function"
  let generator ← takeSymbol "*"
  let n ← name
  let params ← r.parameters
  let body ← r.block
  return .function (if generator then "generator_function_declaration" else "function_declaration") start isAsync n
    params body.body

def classDeclaration : Reader Clause := do
  let start ← position
  word "class"
  let _ ← name
  r.classRest
  return .foreign "class_declaration" start

def condition : Reader Phrase := do
  symbol "("
  let e ← r.expressions false
  symbol ")"
  return e

def ifStatement : Reader Clause := do
  let start ← position
  word "if"
  let test ← r.condition
  let consequent ← r.statement
  let alternate ← if ← takeWord "else" then pure (some (← r.statement)) else pure none
  return .single "if_statement" start do
    let t ← test.lowered
    let c ← consequent.body
    match alternate with
    | none => return .ifStatement t c none
    | some a => return .ifStatement t c (some (← a.body))

/-- The parentheses of a loop over the members of an object. -/
def memberLoopHead : Reader Unit := do
  let _ ← takeWord "await"
  symbol "("
  let declared : Reader Unit := do
    match ← take with
    | .word w => require (w = "var" ∨ w = "let" ∨ w = "const")
    | _ => failure
    let _ ← r.binding
    if ← takeSymbol "=" then
      let _ ← r.expression false
  let assigned : Reader Unit := do
    let p ← r.target
    require p.role.isTarget
  declared <|> assigned
  match ← take with
  | .word w => require (w = "in" ∨ w = "of")
  | _ => failure
  let _ ← r.expressions false
  symbol ")"

/-- The first part of a loop with a counter, with its semicolon. -/
def loopStart : Reader (Outcome (Option Shape)) := do
  match ← declarationWord with
  | some kind =>
    let form ← r.declaration kind
    return do return some (.node () (← form))
  | none =>
    if ← takeSymbol ";" then return .ok none
    let e ← r.expressions false
    symbol ";"
    return do return some (← e.lowered)

/-- A part of a loop that may be missing, with the symbol after it. -/
def loopPart (closing : String) : Reader (Outcome (Option Shape)) := do
  if ← takeSymbol closing then return .ok none
  let e ← r.expressions false
  symbol closing
  return do return some (← e.lowered)

def forStatement : Reader Clause := do
  let start ← position
  word "for"
  match ← optionally r.memberLoopHead with
  | some _ =>
    let _ ← r.statement
    return .foreign "for_in_statement" start
  | none =>
    symbol "("
    let init ← r.loopStart
    let test ← r.loopPart ";"
    let update ← r.loopPart ")"
    let body ← r.statement
    return .single "for_statement" start do
      let i ← init
      let t ← test
      let u ← update
      return .forStatement i t u (← body.body)

def whileStatement : Reader Clause := do
  let start ← position
  word "while"
  let test ← r.condition
  let body ← r.statement
  return .single "while_statement" start do
    let t ← test.lowered
    return .whileStatement t (← body.body)

def doStatement : Reader Clause := do
  let start ← position
  word "do"
  let _ ← r.statement
  word "while"
  let _ ← r.condition
  if !(← endsHere false) then
    let _ ← takeSymbol ";"
  return .foreign "do_statement" start

/-- A handler: the parameter, if any, and the statements. -/
def handler : Reader (Outcome (Option Shape) × Clause) := do
  if ← takeSymbol "(" then
    let place ← position
    let name ← r.binding
    symbol ")"
    let body ← r.block
    match name with
    | some n => return (.ok (some (Shape.identifier n)), body)
    | none => return (.error (unsupported "destructuring catch parameter" place), body)
  else return (.ok none, ← r.block)

def tryStatement : Reader Clause := do
  let start ← position
  word "try"
  let block ← r.block
  let caught ← if ← takeWord "catch" then pure (some (← r.handler)) else pure none
  let final ← if ← takeWord "finally" then pure (some (← r.block)) else pure none
  return .single "try_statement" start do
    let b ← block.body
    let (param, handled) ← match caught with
      | none => pure (none, none)
      | some (param, body) => do
        let p ← param
        pure (p, some (← body.body))
    match final with
    | none => return .tryStatement b param handled none
    | some f => return .tryStatement b param handled (some (← f.body))

/-- Statements up to the next case or the end of the switch. -/
def caseBody : Reader Unit := do
  let stop : Reader Bool := do
    return (← isNextWord "case") || (← isNextWord "default") || (← isNextSymbol "\x7d")
  let _ ← untilStop stop r.statement r.bound

def switchCase : Reader Unit := do
  if ← takeWord "default" then symbol ":"
  else
    word "case"
    let _ ← r.expressions false
    symbol ":"
  r.caseBody

def switchStatement : Reader Clause := do
  let start ← position
  word "switch"
  let _ ← r.condition
  symbol "\x7b"
  let _ ← untilStop (takeSymbol "\x7d") r.switchCase r.bound
  return .foreign "switch_statement" start

def withStatement : Reader Clause := do
  let start ← position
  word "with"
  let _ ← r.condition
  let _ ← r.statement
  return .foreign "with_statement" start

def throwStatement : Reader Clause := do
  let start ← position
  word "throw"
  let _ ← r.expressions true
  semicolon true
  return .foreign "throw_statement" start

/-- Whether a statement is over after its first word. -/
def isComplete : Reader Bool := do
  if ← endsHere false then return true else takeSymbol ";"

def returnStatement : Reader Clause := do
  let start ← position
  word "return"
  if ← isComplete then return .single "return_statement" start (.ok (.returnStatement none))
  let e ← r.expressions true
  semicolon true
  return .single "return_statement" start do return .returnStatement (some (← e.lowered))

/-- A jump out of a loop; `verb` is its word. -/
def jump (verb : String) (form : Form Shape) : Reader Clause := do
  let start ← position
  word verb
  let kind : Text := (verb : Text) ++ "_statement"
  if ← isComplete then return .single kind start (.ok form)
  let _ ← name
  semicolon false
  return .single kind start (.error (unsupported ("labelled " ++ verb) start))

def debuggerStatement : Reader Clause := do
  let start ← position
  word "debugger"
  semicolon false
  return .foreign "debugger_statement" start

def isLabel : Reader Bool := do return (← lookahead (do let _ ← name; symbol ":")).isSome

def labeledStatement : Reader Clause := do
  let start ← position
  let _ ← name
  symbol ":"
  let _ ← r.statement
  return .foreign "labeled_statement" start

/-- Braces that start like an object whose first key is followed by a colon. -/
def isObjectAhead : Reader Bool := do
  let head : Reader Unit := do
    symbol "\x7b"
    match ← take with
    | .symbol _ => failure
    | _ => symbol ":"
  return (← lookahead head).isSome

/-- A block, or an expression that starts with an object. What reads as both a block with a label and as an object
is an object. -/
def braces : Reader Clause := do
  let start ← get
  match ← optionally r.block with
  | none => if ← isObjectAhead then r.expressionStatement else failure
  | some b =>
    let next ← get
    let block : Reader Clause := do
      set next
      return b
    if b.hasLabel then
      set start
      r.expressionStatement <|> block
    else block

/-- Names in braces that a module takes or gives, each perhaps under another name. -/
def moduleNames : Reader Unit := do
  symbol "\x7b"
  let item : Reader Unit := do
    let _ ← take
    if ← takeWord "as" then
      let _ ← take
    if !(← isNextSymbol "\x7d") then symbol ","
  let _ ← untilStop (takeSymbol "\x7d") item r.bound

def moduleSource : Reader Unit := do
  match ← take with
  | .string _ => return ()
  | _ => failure

def importStatement : Reader Clause := do
  let start ← position
  word "import"
  let namespaceName : Reader Unit := do
    symbol "*"
    word "as"
    let _ ← name
  let clause : Reader Unit := do
    namespaceName <|> r.moduleNames <|> (do
      let _ ← name
      if ← takeSymbol "," then namespaceName <|> r.moduleNames)
    word "from"
    moduleSource
  moduleSource <|> clause
  semicolon false
  return .foreign "import_statement" start

def exportStatement : Reader Clause := do
  let start ← position
  word "export"
  let all : Reader Unit := do
    symbol "*"
    if ← takeWord "as" then
      let _ ← take
    word "from"
    moduleSource
    semicolon false
  let listed : Reader Unit := do
    r.moduleNames
    if ← takeWord "from" then moduleSource
    semicolon false
  let declared : Reader Unit := do
    let isDefault ← takeWord "default"
    match ← declarationWord with
    | some kind =>
      require !isDefault
      let _ ← r.declaration kind
    | none =>
      if ← isFunctionDeclaration then
        let _ ← r.functionDeclaration
      else if (← lookahead (do word "class"; name)).isSome then
        let _ ← r.classDeclaration
      else
        require isDefault
        let _ ← r.expression true
        semicolon true
  all <|> listed <|> declared
  return .foreign "export_statement" start

/-- A statement that starts with a word. -/
def wordStatement (w : Text) : Reader Clause := do
  match ← declarationWord with
  | some kind => r.declarationStatement kind
  | none =>
    if ← isFunctionDeclaration then r.functionDeclaration
    else if w = "if" then r.ifStatement
    else if w = "for" then r.forStatement
    else if w = "while" then r.whileStatement
    else if w = "do" then r.doStatement
    else if w = "try" then r.tryStatement
    else if w = "switch" then r.switchStatement
    else if w = "with" then r.withStatement
    else if w = "throw" then r.throwStatement
    else if w = "return" then r.returnStatement
    else if w = "break" then jump "break" .breakStatement
    else if w = "continue" then jump "continue" .continueStatement
    else if w = "debugger" then debuggerStatement
    else if w = "export" then r.exportStatement
    else if w = "import" then r.expressionStatement <|> r.importStatement
    else if w = "class" ∧ (← lookahead (do word "class"; name)).isSome then r.classDeclaration
    else if ← isLabel then r.labeledStatement
    else r.expressionStatement

def statementWith : Reader Clause := do
  let start ← position
  match ← peek with
  | some (.word w) => r.wordStatement w
  | some (.symbol s) =>
    if s = "\x7b" then r.braces
    else if s = ";" then
      symbol ";"
      return .empty start
    else r.expressionStatement
  | _ => r.expressionStatement

end Readers

/-- The readers that go at most `n` constructs deep. -/
def readers : Nat → Readers
  | 0 => { bound := 0, cover := fun _ => failure, target := failure, statement := failure }
  | n + 1 =>
    { bound := n
      cover := fun mayEnd c => (readers n).coverWith mayEnd c
      target := fun c => (readers n).access false c
      statement := fun c => (readers n).statementWith c }

/-- The statements of a whole text. No construct is deeper than the text is long. -/
def program (t : Text) : Option (List Clause) :=
  let r := readers (4 * t.length + 16)
  let atEnd : Reader Bool := do return (← get).ahead.rest.isEmpty
  (untilStop atEnd r.statement r.bound (Cursor.start t)).map (·.1)

end Unravel.Grammar
