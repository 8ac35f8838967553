import Abacus.Expr.Rendering
import Abacus.Session.Basic

/-!
# Commands

`define` and `delete` change what names refer to; `list`, `print` and `help` only
answer.  A command changes the session as it goes, so `define` takes back what it has
declared when it is refused after that.
-/

namespace Abacus.Session

/-- A command works on a session and is refused or answers; what it has changed counts
    in both cases. -/
abbrev Command := ExceptT CommandError (StateM Session)

/-- The answer or the refusal of a command with the session after it. -/
def Command.runOn {α : Type} (m : Command α) (s : Session) : Except CommandError α × Session := m s

/-- Sorts texts by code points. -/
def sorted (texts : List String) : List String := texts.mergeSort fun a b => decide (¬ b < a)

/-! ## Functions -/

/-- The cells of the parameters in a header, numbered from `fresh` on; `cells` are
    those read so far. -/
def parameterCells (fresh : Nat) (cells : List Cell) :
    List (List Char) → Except CommandError (List Cell)
  | [] => .ok cells
  | text :: rest =>
    let name := String.ofList text
    if !Lexeme.isName text then
      .error (.malformed "define" s!"'{name}' is not a valid parameter name")
    else if cells.any fun c => c.name = name then
      .error (.malformed "define" s!"parameter '{name}' appears twice")
    else parameterCells fresh (cells ++ [⟨fresh + cells.length, name, .variable⟩]) rest

/-- The function that a header `name(p1, p2)` declares. -/
def header (fresh : Nat) (text : List Char) : Except CommandError UserFunction := do
  match (Text.dropLast? ')' (Text.trim text)).bind (Text.splitOnce? (· = '(')) with
  | none => throw (.malformed "define" "expected 'name(parameters)'")
  | some (nameText, parameterText) =>
    let nameText := Text.trim nameText
    let name := String.ofList nameText
    if !Lexeme.isName nameText then
      throw (.malformed "define" s!"'{name}' is not a valid function name")
    let parameterTexts := ((Text.splitAll (· = ',') parameterText).map Text.trim).filter
      fun p => !p.isEmpty
    let cells ← parameterCells fresh [] parameterTexts
    return ⟨fresh + cells.length, name, cells⟩

/-- Registers a function that does nothing yet, so that its body can call it. -/
def declare (s : Session) (u : UserFunction) : Session :=
  { s with
    functions := s.functions.insert (u.name, u.parameters.length) (.user u)
    fresh := u.id + 1 }

/-- Takes back the declaration of a function whose key led to `known` before.  Its number
    and those of its parameters, which come right before it, can be given again. -/
def withdraw (s : Session) (u : UserFunction) (known : Option Function) : Session :=
  { s with
    functions := match known with
      | some f => s.functions.insert (u.name, u.parameters.length) f
      | none => s.functions.erase (u.name, u.parameters.length)
    fresh := u.id - u.parameters.length }

/-- What the body of a function is parsed against. -/
def bodyScope (s : Session) (u : UserFunction) : Parse.Scope :=
  { s.scope with
    parameters := .ofList (u.parameters.map fun c => (c.name, c))
    leading := none }

/-- Gives a declared function its body, or takes it back if the text is no body. -/
def defineBody (u : UserFunction) (known : Option Function) (text : String) : Command Unit := do
  match Parse.parse ((← get).bodyScope u) text with
  | .error cause =>
    modify fun s => s.withdraw u known
    throw (.parse cause)
  | .ok parsed =>
    modify fun s => s.withCreated parsed.created
    match parsed.expr with
    | none =>
      modify fun s => s.withdraw u known
      throw (.malformed "define" "the body is empty")
    | some e => modify fun s => { s with store := s.store.withBody u e }

/-- `define name(p1, p2) = body` -/
def define (arguments : List Char) : Command String := do
  match Text.splitOnce? (· = '=') arguments with
  | none => throw (.malformed "define" "expected 'name(parameters) = body'")
  | some (headerText, body) =>
    let s ← get
    let u ← MonadExcept.ofExcept (header s.fresh headerText)
    let f := Function.user u
    let known := s.functions.get? f.key
    if known.any Function.isBuiltin then
      let name := u.name
      let arity := u.parameters.length
      throw (.alreadyDefined s!"{name}/{arity}")
    -- Declared before its body is parsed, the function may call itself.
    modify fun s => s.declare u
    defineBody u known (String.ofList body)
    let signature := f.signature
    return s!"Defined {signature}."

/-! ## Deletion -/

/-- The bound on the arities that can be written. -/
def arityBound : Nat := Nat.pow 2 64

/-- The arity that a text writes, with an optional plus. -/
def arity? (text : List Char) : Option Nat :=
  let digits := (Text.dropPrefix? ['+'] text).getD text
  if Lexeme.isDigits digits && Decimal.ofDigits digits < arityBound then
    some (Decimal.ofDigits digits)
  else none

/-- `delete name/arity` -/
def deleteFunction (nameText arityText : List Char) : Command String := do
  match arity? (Text.trim arityText) with
  | none =>
    let text := String.ofList arityText
    throw (.malformed "delete" s!"'{text}' is not an arity")
  | some arity =>
    let name := String.ofList (Text.trim nameText)
    match (← get).functions.get? (name, arity) with
    | some (.user _) =>
      modify fun s => { s with functions := s.functions.erase (name, arity) }
      return s!"Deleted {name}/{arity}."
    | _ => throw (.notFound s!"{name}/{arity}")

/-- `delete name` -/
def deleteVariable (name : String) : Command String := do
  match (← get).names.get? name with
  | none => throw (.notFound name)
  | some c =>
    match c.kind with
    | .constant => throw (.alreadyDefined name)
    | .variable =>
      modify fun s => { s with names := s.names.erase name }
      return s!"Deleted {name}."

def delete (arguments : List Char) : Command String :=
  match Text.splitOnce? (· = '/') arguments with
  | some (nameText, arityText) => deleteFunction nameText arityText
  | none => deleteVariable (String.ofList arguments)

/-! ## Answers -/

def variableText (s : Session) (c : Cell) : String :=
  c.name ++ " = " ++ (s.store.definition c).render s.grammar

def functionText (s : Session) (f : Function) : String :=
  match f with
  | .builtin _ => f.signature
  | .user u => f.signature ++ " = " ++ (s.store.body u).render s.grammar

/-- `list`: the variables and then the functions, each in order of their texts. -/
def list (s : Session) : String :=
  let cells := s.names.values.filter fun c => c.kind = .variable
  "\n".intercalate
    (sorted (cells.map s.variableText) ++ sorted (s.functions.values.map s.functionText))

/-- `print`: how an expression groups. -/
def print (arguments : List Char) : Command String := do
  match (← get).parse (String.ofList arguments) with
  | .error cause => throw (.parse cause)
  | .ok (expr, s) =>
    set s
    match expr with
    | some e => return e.render s.grammar
    | none => throw (.malformed "print" "nothing to print")

def tierKind : Tier → String
  | .operators .left _ => "operators, left-to-right"
  | .operators .right _ => "operators, right-to-left"
  | .modifiers .before _ => "pre-modifiers"
  | .modifiers .after _ => "post-modifiers"

def padded (width : Nat) (text : String) : String :=
  text ++ String.ofList (List.replicate (width - text.length) ' ')

def tierLine (row : Nat) (tier : Tier) : String :=
  padded 5 (String.ofList (Decimal.digits row)) ++ " " ++ padded 25 (tierKind tier) ++ " " ++
    " ".intercalate tier.symbols

def tierLines (row : Nat) : List Tier → List String
  | [] => []
  | tier :: tiers => tierLine row tier :: tierLines (row + 1) tiers

/-- `help`: the commands and the grammar. -/
def help (s : Session) : String :=
  let mark := s.settings.commandMark
  let commands := [
    "define name(p1, p2) = body    define a function",
    "delete name | name/arity      delete a variable or function",
    "list                          list variables and functions",
    "print expression              show how an expression groups",
    "help                          show this help"]
  "\n".intercalate
    (commands.map (mark ++ ·) ++ ["", "tier  kind                      symbols"] ++
      tierLines 0 s.grammar.tiers)

/-! ## Commands by name -/

/-- Runs a command, given without the text that marks it. -/
def runCommand (text : List Char) : Command String := do
  let text := Text.trim text
  let (name, arguments) := (Text.splitOnce? Text.isBlank text).getD (text, [])
  let arguments := Text.trim arguments
  match String.ofList name with
  | "define" => define arguments
  | "delete" => delete arguments
  | "list" => return (← get).list
  | "print" => print arguments
  | "help" => return (← get).help
  | name => throw (.unknownCommand name)

end Abacus.Session
