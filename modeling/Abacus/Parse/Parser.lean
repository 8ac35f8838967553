import Abacus.Lexeme
import Abacus.Parse.Precedence
import Abacus.Tokenizer

/-!
# Parsing a line

A line is cut at white space, each token that is no operand at symbols, and each
segment that is neither at parentheses.  The items found are given their roles and
grouped.  An operand is a number, a parenthesised text, a name, or a call of a
known function; the texts inside are parsed in the same way.  A name that is not
known becomes a new variable, which counts only if the whole line parses.
-/

namespace Abacus.Parse

/-! ## Brackets -/

/-- Whether a text closes the `depth` parentheses that are open before it, and
    none that is not open. -/
def closes : (depth : Nat) → List Char → Bool
  | depth, [] => depth = 0
  | depth, '(' :: text => closes (depth + 1) text
  | 0, ')' :: _ => false
  | depth + 1, ')' :: text => closes depth text
  | depth, _ :: text => closes depth text

def balanced (text : List Char) : Bool := closes 0 text

/-- The text between a parenthesis in front and its partner at the very end. -/
def betweenParens? : List Char → Option (List Char)
  | '(' :: text => (Text.dropLast? ')' text).filter balanced
  | _ => none

/-- Splits a text at the commas outside of all parentheses; `depth` of them are
    open before it. -/
def splitAtCommas : (depth : Nat) → List Char → List (List Char)
  | _, [] => [[]]
  | depth, c :: text =>
    if c = ',' ∧ depth = 0 then [] :: splitAtCommas depth text
    else
      let depth := if c = '(' then depth + 1 else if c = ')' then depth - 1 else depth
      match splitAtCommas depth text with
      | [] => [[c]]
      | part :: parts => (c :: part) :: parts

/-- The arguments in the parentheses of a call; blank parentheses have none. -/
def argumentTexts (text : List Char) : List (List Char) :=
  if Text.allBlank text then [] else (splitAtCommas 0 text).map Text.trim

/-! ## Cuts -/

/-- The three ways in which a line is cut. -/
structure Cuts where
  /-- At white space. -/
  atBlanks : Tokenizer
  /-- Around every symbol of the grammar. -/
  aroundSymbols : Tokenizer
  /-- Before each opening parenthesis and behind its partner. -/
  aroundParens : Tokenizer

/-- Parentheses protect what is inside of them, and tokens are trimmed. -/
def parenConfig : Tokenizer.Config where
  openBrackets := ["("]
  closeBrackets := [")"]
  trims := true

/-- The tokenizers of a grammar. -/
def Cuts.ofGrammar (g : Grammar) : Except ParseError Cuts := do
  let tokenizer (c : Tokenizer.Config) := (Tokenizer.ofConfig c).mapError ParseError.tokenizer
  let atBlanks ← tokenizer { parenConfig with breaksOnBlank := true }
  let aroundSymbols ← tokenizer { parenConfig with separators := g.roles.keys }
  let aroundParens ← tokenizer { parenConfig with breaksBefore := ["("], breaksAfter := [")"] }
  return { atBlanks, aroundSymbols, aroundParens }

/-! ## Names -/

/-- What the names in a line may refer to. -/
structure Scope where
  grammar : Grammar
  functions : Table (String × Nat) Function
  /-- The cells of names. -/
  names : Table String Cell
  /-- The cells of parameters, which come before those of the same names. -/
  parameters : Table String Cell := ∅
  /-- What a line that starts with an operator continues from. -/
  leading : Option Cell := none
  /-- No cell has this number or a larger one. -/
  fresh : Nat

/-- Parsing with the variables mentioned for the first time, by name. -/
abbrev Parsing := StateT (Table String Cell) (Except ParseError)

/-- The cell of a name; a name that is not known gets a new variable. -/
def Scope.cell (scope : Scope) (name : String) : Parsing Cell := do
  let created ← get
  match (scope.parameters.get? name).or ((scope.names.get? name).or (created.get? name)) with
  | some c => return c
  | none =>
    let c : Cell := ⟨scope.fresh + created.size, name, .variable⟩
    set (created.insert name c)
    return c

/-! ## Operands -/

/-- Parses a text that stands inside of another one; blank it is void. -/
abbrev NestedParser := List Char → Parsing (Option Expr)

/-- A call of a known function. -/
def call? (scope : Scope) (nested : NestedParser) (text : List Char) : Parsing (Option Expr) := do
  let name := text.takeWhile (· ≠ '(')
  match betweenParens? (text.dropWhile (· ≠ '(')) with
  | none => return none
  | some inner =>
    if !Lexeme.isName name then return none
    let texts := argumentTexts inner
    match scope.functions.get? (String.ofList name, texts.length) with
    | none => return none
    | some function =>
      let arguments ← texts.mapM fun text => do return (← nested text).getD .void
      return some (.call function arguments)

/-- The operand that a whole text is: a number, a parenthesised text, a name or a
    call, tried in this order. -/
def operand? (scope : Scope) (nested : NestedParser) (text : List Char) :
    Parsing (Option Expr) := do
  match Number.ofText? text with
  | some a => return some (.literal (some a))
  | none =>
    match betweenParens? text with
    | some inner => return some (.parens ((← nested inner).getD .void))
    | none =>
      if Lexeme.isName text && !scope.grammar.isSymbol (String.ofList text) then
        return some (.cell (← scope.cell (String.ofList text)))
      else call? scope nested text

/-! ## Lines -/

def fragmentItem (scope : Scope) (nested : NestedParser) (fragment : List Char) : Parsing Item := do
  match ← operand? scope nested fragment with
  | some e => return .operand e
  | none => throw (.unrecognized (String.ofList fragment))

/-- The items of a segment between symbols: a symbol, an operand, or operands that
    parentheses separate. -/
def segmentItems (scope : Scope) (cuts : Cuts) (nested : NestedParser) (segment : List Char) :
    Parsing (List Item) := do
  match scope.grammar.roles? (String.ofList segment) with
  | some roles => return [.symbol (String.ofList segment) roles]
  | none =>
    match ← operand? scope nested segment with
    | some e => return [.operand e]
    | none => (cuts.aroundParens.tokens segment).mapM (fragmentItem scope nested)

/-- The items of a token, which may be an operand already. -/
def tokenItems (scope : Scope) (cuts : Cuts) (nested : NestedParser) :
    List Char × Option Expr → Parsing (List Item)
  | (_, some e) => return [.operand e]
  | (token, none) => do
    return (← (cuts.aroundSymbols.tokens token).mapM (segmentItems scope cuts nested)).flatten

/-- What the line continues from: only a whole line that does not start with
    white space does so. -/
def Scope.leadingOf (scope : Scope) (wholeLine : Bool) (text : List Char) : Option Expr :=
  if wholeLine && !text.head?.any Text.isBlank then scope.leading.map Expr.cell else none

/-- Parses a text, given how to parse the texts inside of it. -/
def parseWith (scope : Scope) (cuts : Cuts) (nested : NestedParser) (wholeLine : Bool)
    (text : List Char) : Parsing (Option Expr) := do
  -- Every token is tried as an operand before the first one is cut at symbols.
  let tokens ← (cuts.atBlanks.tokens text).mapM fun token => do
    return (token, ← operand? scope nested token)
  match tokens with
  | [] => return none
  -- A line that is one operand has no symbol whose role is to be decided.
  | [(_, some e)] => return some e
  | _ =>
    let items := (← tokens.mapM (tokenItems scope cuts nested)).flatten
    let line ← (Line.ofList items).decide scope.grammar
    let line := line.withLeading (scope.leadingOf wholeLine text)
    return some (← line.toExpr scope.grammar)

/-- Parses a text in which parentheses nest less deep than `depth`. -/
def parseToDepth (scope : Scope) (cuts : Cuts) : (depth : Nat) → (wholeLine : Bool) →
    NestedParser
  | 0, _, _ => return none
  | depth + 1, wholeLine, text =>
    parseWith scope cuts (parseToDepth scope cuts depth false) wholeLine text

/-- What a line parses to. -/
structure Parsed where
  /-- The expression, unless the line is blank. -/
  expr : Option Expr
  /-- The variables that the line mentions for the first time, by name. -/
  created : Table String Cell

/-- Parses a line.  Every parenthesis that nests needs one more level, so the
    number of opening parentheses bounds the depth. -/
def parse (scope : Scope) (line : String) : Except ParseError Parsed := do
  let text := line.toList
  if !balanced text then throw (.unbalanced line)
  let cuts ← Cuts.ofGrammar scope.grammar
  let (expr, created) ← (parseToDepth scope cuts (text.count '(' + 1) true text).run ∅
  return { expr, created }

end Abacus.Parse
