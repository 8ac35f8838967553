/-!
# What can go wrong

Each stage has its own type of errors, one constructor for each cause, and
`message` gives the sentence that is shown.  The causes carry the texts that the
sentence quotes.
-/

namespace Abacus

/-- The positions in which a symbol can be registered. -/
inductive SymbolRole where
  | operator
  | before
  | after
  deriving DecidableEq, Repr

/-- Why a tokenizer cannot be configured. -/
inductive TokenizerError where
  /-- Open and close brackets pair up, so there must be as many of both. -/
  | mismatchedBrackets (opened closed : Nat)
  deriving DecidableEq, Repr

/-- Why a list of precedence tiers is no grammar. -/
inductive GrammarError where
  /-- The tier in this row has no symbols. -/
  | emptyTier (row : Nat)
  /-- The symbol is registered twice in one role. -/
  | duplicateSymbol (symbol : String) (role : SymbolRole)
  /-- The default operator is no registered operator. -/
  | unknownDefault (symbol : String)
  deriving DecidableEq, Repr

/-- Why a line has no expression tree. -/
inductive ParseError where
  /-- The text is neither a symbol nor an operand. -/
  | unrecognized (text : String)
  /-- The modifier has no operand. -/
  | operandExpected (symbol : String)
  /-- The parentheses of the text do not pair up. -/
  | unbalanced (text : String)
  /-- Two operands stand side by side. -/
  | operatorExpected (context : String)
  /-- The tokenizers of the grammar cannot be configured. -/
  | tokenizer (cause : TokenizerError)
  deriving DecidableEq, Repr

/-- Why an evaluation has no value. -/
inductive EvalError where
  /-- The expression is assigned to but is no variable. -/
  | notAssignable (target : String)
  /-- The factorial of a negative or fractional number. -/
  | factorialDomain (operand : String)
  | divisionByZero
  /-- The result would be too large to compute. -/
  | tooLarge
  /-- A pair of branches that no condition chooses from. -/
  | strayBranches
  /-- The variable or function depends on itself too deeply. -/
  | tooDeep (name : String)
  | assertionFailed
  /-- A function is not defined for its arguments. -/
  | outsideDomain (details : String)
  deriving DecidableEq, Repr

/-- Why a command is refused. -/
inductive CommandError where
  | unknownCommand (name : String)
  | malformed (command details : String)
  | alreadyDefined (name : String)
  | notFound (name : String)
  /-- An expression among the arguments does not parse. -/
  | parse (cause : ParseError)
  deriving DecidableEq, Repr

/-- How a line can fail. -/
inductive LineError where
  | parse (cause : ParseError)
  | eval (cause : EvalError)
  | command (cause : CommandError)
  deriving DecidableEq, Repr

/-! ## Wording -/

def SymbolRole.description : SymbolRole → String
  | .operator => "operator"
  | .before => "pre-modifier"
  | .after => "post-modifier"

def TokenizerError.message : TokenizerError → String
  | .mismatchedBrackets opened closed =>
    s!"Tokenizer configured with {opened} open brackets but {closed} close brackets."

def GrammarError.message : GrammarError → String
  | .emptyTier row => s!"Precedence tier {row} holds no symbols."
  | .duplicateSymbol symbol role =>
    s!"Symbol '{symbol}' is already registered as {role.description}."
  | .unknownDefault symbol => s!"Default operator '{symbol}' is not a registered operator."

def ParseError.message : ParseError → String
  | .unrecognized text => s!"Unrecognized token: '{text}'."
  | .operandExpected symbol => s!"Element expected next to modifier '{symbol}'."
  | .unbalanced text => s!"Unbalanced brackets in '{text}'."
  | .operatorExpected context => s!"Operator expected between elements in '{context}'."
  | .tokenizer cause => cause.message

def EvalError.message : EvalError → String
  | .notAssignable target => s!"'{target}' is not redefinable."
  | .factorialDomain operand =>
    s!"Factorial is only defined for non-negative integers, but found {operand}."
  | .divisionByZero => "Division by zero."
  | .tooLarge => "Result is too large to compute."
  | .strayBranches => "Ternary separator ':' used without a condition '?'."
  | .tooDeep name => s!"'{name}' exceeded the maximum evaluation depth."
  | .assertionFailed => "Assertion failed."
  | .outsideDomain details => s!"Invalid argument: {details}."

def CommandError.message : CommandError → String
  | .unknownCommand name => s!"Unknown command '{name}'."
  | .malformed command details => s!"Malformed arguments for '{command}': {details}."
  | .alreadyDefined name => s!"'{name}' is already defined."
  | .notFound name => s!"'{name}' is not defined."
  | .parse cause => cause.message

def LineError.message : LineError → String
  | .parse cause => cause.message
  | .eval cause => cause.message
  | .command cause => cause.message

end Abacus
