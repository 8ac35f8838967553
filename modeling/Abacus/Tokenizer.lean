import Abacus.Error
import Abacus.Lexicon
import Abacus.Text.Blank

/-!
# Cuts

A tokenizer cuts a text into tokens at configured symbols.  Symbols are found
greedily from the left, the longest one first.  They cut only where every
bracket is closed and no quote is open; elsewhere they are plain text.
-/

namespace Abacus

namespace Tokenizer

/-- How a tokenizer cuts.  A symbol may belong to several of the sets. -/
structure Config where
  /-- Symbols that end a token and are tokens of their own. -/
  separators : List String := []
  /-- Symbols that end a token and are dropped. -/
  delimiters : List String := []
  /-- Opening brackets; the closing bracket of each stands at the same place of
      `closeBrackets`. -/
  openBrackets : List String := []
  closeBrackets : List String := []
  /-- Symbols that open and close a quotation. -/
  quotes : List String := []
  /-- Symbols that start a token. -/
  breaksBefore : List String := []
  /-- Symbols that end the token they belong to. -/
  breaksAfter : List String := []
  /-- Whether white space around a token is dropped. -/
  trims : Bool := false
  /-- Whether white space ends a token. -/
  breaksOnBlank : Bool := false
  /-- Whether empty tokens are kept. -/
  keepsEmpty : Bool := false

def Config.symbols (c : Config) : List String :=
  c.separators ++ c.delimiters ++ c.openBrackets ++ c.closeBrackets ++ c.quotes ++
    c.breaksBefore ++ c.breaksAfter

/-- The sets of a configuration that one symbol belongs to; a bracket belongs to
    the pair at its place. -/
structure Membership where
  separator : Bool
  delimiter : Bool
  opens : Option Nat
  closes : Option Nat
  quote : Bool
  breakBefore : Bool
  breakAfter : Bool

def place? (symbol : String) : List String → Option Nat
  | [] => none
  | s :: rest => if s = symbol then some 0 else (place? symbol rest).map (· + 1)

def Config.membership (c : Config) (symbol : String) : Membership where
  separator := c.separators.contains symbol
  delimiter := c.delimiters.contains symbol
  opens := place? symbol c.openBrackets
  closes := place? symbol c.closeBrackets
  quote := c.quotes.contains symbol
  breakBefore := c.breaksBefore.contains symbol
  breakAfter := c.breaksAfter.contains symbol

/-- A tokenization under way. -/
structure State where
  /-- The finished tokens, latest first. -/
  finished : List (List Char)
  /-- The token being read, latest character first. -/
  reading : List Char
  /-- How often each bracket is open. -/
  nesting : List Nat
  /-- Whether a quotation is open. -/
  quoted : Bool

namespace State

/-- Before the first character nothing is open. -/
def start (c : Config) : State := ⟨[], [], c.openBrackets.map fun _ => 0, false⟩

/-- Whether symbols cut here: no bracket and no quotation is open. -/
def cutsHere (s : State) : Bool := !s.quoted && s.nesting.all (· = 0)

/-- Appends text to the token being read. -/
def push (s : State) (text : List Char) : State := { s with reading := text.reverse ++ s.reading }

/-- Adds a token as the configuration wants it: trimmed, and only if it is not
    empty. -/
def emit (c : Config) (s : State) (token : List Char) : State :=
  let token := if c.trims then Text.trim token else token
  if token.isEmpty && !c.keepsEmpty then s else { s with finished := token :: s.finished }

/-- Ends the token being read. -/
def close (c : Config) (s : State) : State := { s.emit c s.reading.reverse with reading := [] }

/-- Reads a symbol where symbols cut. -/
def cut (c : Config) (s : State) (text : List Char) (sets : Membership) : State :=
  if sets.separator then
    let s := s.close c
    { s with finished := text :: s.finished }
  else if sets.delimiter then s.close c
  else if sets.breakBefore then (s.close c).push text
  else if sets.breakAfter then (s.push text).close c
  else s.push text

/-- Reads an opening bracket. -/
def enter (c : Config) (s : State) (text : List Char) (sets : Membership) (pair : Nat) : State :=
  let s := if s.cutsHere && sets.breakBefore then s.close c else s
  { s with nesting := s.nesting.modify pair (· + 1) }.push text

/-- Reads a closing bracket; one without a partner closes nothing. -/
def leave (c : Config) (s : State) (text : List Char) (sets : Membership) (pair : Nat) : State :=
  let s := { s with nesting := s.nesting.modify pair (· - 1) }.push text
  if s.cutsHere && sets.breakAfter then s.close c else s

/-- Reads a symbol.  A quote comes before a bracket and a bracket before every
    other kind, and within a quotation brackets are plain text. -/
def readSymbol (c : Config) (s : State) (text : List Char) (sets : Membership) : State :=
  if sets.quote then { s with quoted := !s.quoted }.push text
  else if s.quoted then s.push text
  else match sets.opens, sets.closes with
    | some pair, _ => s.enter c text sets pair
    | none, some pair => s.leave c text sets pair
    | none, none => if s.cutsHere then s.cut c text sets else s.push text

/-- Reads a character that starts no symbol. -/
def readPlain (c : Config) (s : State) (x : Char) : State :=
  if c.breaksOnBlank && Text.isBlank x && s.cutsHere then (s.close c).emit c [x] else s.push [x]

end State

end Tokenizer

/-- A configuration whose brackets pair up, with its symbols ready to be
    searched. -/
structure Tokenizer where
  config : Tokenizer.Config
  paired : config.openBrackets.length = config.closeBrackets.length
  lexicon : Lexicon := .ofList config.symbols
  lexicon_eq : lexicon = .ofList config.symbols := by rfl

namespace Tokenizer

def ofConfig (c : Config) : Except TokenizerError Tokenizer :=
  if h : c.openBrackets.length = c.closeBrackets.length then .ok { config := c, paired := h }
  else .error (.mismatchedBrackets c.openBrackets.length c.closeBrackets.length)

/-- Reads a text whose first `skip` characters belong to a symbol already
    read. -/
def run (t : Tokenizer) : List Char → (skip : Nat) → State → State
  | [], _, s => s.close t.config
  | _ :: rest, skip + 1, s => t.run rest skip s
  | c :: rest, 0, s =>
    match t.lexicon.longestSymbol? (c :: rest) with
    | some symbol =>
      let text := symbol.toList
      t.run rest (text.length - 1) (s.readSymbol t.config text (t.config.membership symbol))
    | none => t.run rest 0 (s.readPlain t.config c)

/-- The tokens of a text. -/
def tokens (t : Tokenizer) (text : List Char) : List (List Char) :=
  (t.run text 0 (.start t.config)).finished.reverse

def tokenize (t : Tokenizer) (text : String) : List String :=
  (t.tokens text.toList).map String.ofList

end Tokenizer

end Abacus
