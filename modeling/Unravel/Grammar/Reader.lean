import Unravel.Grammar.Phrase
import Unravel.Grammar.Semicolon

/-! Readers of source text. A reader fails without saying why: there is only one syntax error. -/
namespace Unravel.Grammar

abbrev Reader (α : Type) := StateT Cursor Option α

/-- What the readers of composite constructs need of each other. `bound` limits the number of steps of a loop. -/
structure Readers where
  bound : Nat
  /-- An expression, or a literal that is a pattern only. The flag says that a statement may end after it. -/
  cover : Bool → Reader Phrase
  /-- An expression that operators do not take apart, such as can be assigned to. -/
  target : Reader Phrase
  statement : Reader Clause

namespace Cursor

/-- Past blanks and comments. -/
def ahead (c : Cursor) : Cursor := c.skip (gap c.rest).length

end Cursor

def position : Reader Position := do return (← get).ahead.position

def peek : Reader (Option Token) := do return (token? (← get).ahead.rest).map (·.1)

/-- Takes the next token. -/
def take : Reader Token := do
  let c := (← get).ahead
  match token? c.rest with
  | some (token, length) => set (c.skip length); return token
  | none => failure

def isNext (token : Token) : Reader Bool := do return (← peek) == some token

def isNextSymbol (s : String) : Reader Bool := isNext (.symbol s)

def isNextWord (w : String) : Reader Bool := isNext (.word w)

/-- Takes a token if it comes next. -/
def takeIf (token : Token) : Reader Bool := do
  if ← isNext token then
    let _ ← take
    return true
  else return false

def takeSymbol (s : String) : Reader Bool := takeIf (.symbol s)

def takeWord (w : String) : Reader Bool := takeIf (.word w)

def require (b : Bool) : Reader Unit := if b then pure () else failure

def symbol (s : String) : Reader Unit := do require (← takeSymbol s)

def word (w : String) : Reader Unit := do require (← takeWord w)

/-- Words that can be names. -/
def isName (w : Text) : Bool := !reserved.contains w

/-- A name that a declaration introduces. -/
def name : Reader Text := do
  match ← take with
  | .word w => require (isName w); return w
  | _ => failure

/-- Reads without taking anything. -/
def lookahead {α : Type} (r : Reader α) : Reader (Option α) := do return ((r (← get)).map (·.1))

/-- What a reader reads, or nothing. -/
def optionally {α : Type} (r : Reader α) : Reader (Option α) := do
  match r (← get) with
  | some (a, next) => set next; return some a
  | none => return none

/-- Whether a statement may end here without a semicolon. -/
def endsHere (operand : Bool) : Reader Bool := do return mayEnd operand (← get).rest

/-- The end of a statement. -/
def semicolon (operand : Bool) : Reader Unit := do
  if ← endsHere operand then return () else symbol ";"

/-- Repeats a reader until the stop condition holds. -/
def untilStop {α : Type} (stop : Reader Bool) (item : Reader α) : Nat → Reader (List α)
  | 0 => failure
  | n + 1 => do
    if ← stop then return []
    let head ← item
    return head :: (← untilStop stop item n)

/-- Items divided by commas, at least one. -/
def commaSeparated {α : Type} (item : Reader α) : Nat → Reader (List α)
  | 0 => failure
  | n + 1 => do
    let head ← item
    if ← takeSymbol "," then return head :: (← commaSeparated item n) else return [head]

namespace Readers

def expression (r : Readers) (mayEnd : Bool) : Reader Phrase := do
  let p ← r.cover mayEnd
  require p.isExpression
  return p

/-- One expression or several divided by commas. -/
def expressions (r : Readers) (mayEnd : Bool) : Reader Phrase := do
  match ← commaSeparated (r.expression mayEnd) r.bound with
  | first :: others => return .sequence first others
  | [] => failure

/-- Statements in braces. -/
def block (r : Readers) : Reader Clause := do
  let start ← position
  symbol "\x7b"
  return .block start (← untilStop (takeSymbol "\x7d") r.statement r.bound)

end Readers

end Unravel.Grammar
