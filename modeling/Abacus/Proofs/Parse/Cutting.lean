import Abacus.Proofs.Expr.Layout
import Abacus.Proofs.Table
import Abacus.Proofs.Text.Words
import Abacus.Proofs.Tokens.Scan

/-!
# Cutting a printed line

The symbols of the standard grammar share no character with numbers, names and
parentheses.  Hence a printed line is cut at its blanks into its chunks, and each
chunk at its symbols into its items.
-/

namespace Abacus

open Grammar (standard)

open Text

/-! ## Symbols -/

namespace Grammar

abbrev Registered (symbol : String) : Prop := symbol ∈ standard.roles.keys

theorem Operates.registered {row : Nat} {o : Operator} (operates : standard.Operates row o) :
    Registered o.symbol := by
  obtain ⟨_, found, _⟩ := operates
  exact Table.mem_keys found

theorem Modifies.registered {row : Nat} {m : Modifier} (modifies : standard.Modifies row m) :
    Registered m.symbol := by
  obtain ⟨_, found, _⟩ := modifies
  exact Table.mem_keys found

theorem isMark_of_registered (symbol : String) (registered : Registered symbol) :
    ∀ c ∈ symbol.toList, isMark c := by
  have all : standard.roles.keys.all (fun symbol => symbol.toList.all isMark) := by decide +kernel
  exact List.all_eq_true.1 (List.all_eq_true.1 all symbol registered)

theorem filled_of_registered : ∀ symbol, Registered symbol → symbol.toList ≠ [] := by
  decide +kernel

theorem exists_mark {symbol : String} (registered : Registered symbol) :
    ∃ c tail, symbol.toList = c :: tail ∧ isMark c := by
  obtain ⟨c, tail, whole⟩ := List.exists_cons_of_ne_nil (filled_of_registered symbol registered)
  exact ⟨c, tail, whole, isMark_of_registered symbol registered c (by simp [whole])⟩

end Grammar

namespace Parse

open Grammar (Registered)

/-! ## The tokenizers of a grammar -/

def blankConfig : Tokenizer.Config := { parenConfig with breaksOnBlank := true }

def symbolConfig : Tokenizer.Config := { parenConfig with separators := standard.roles.keys }

theorem configs_of_ofGrammar {g : Grammar} {cuts : Cuts} (made : Cuts.ofGrammar g = .ok cuts) :
    cuts.atBlanks.config = blankConfig ∧
      cuts.aroundSymbols.config = { parenConfig with separators := g.roles.keys } := by
  cases made
  exact ⟨rfl, rfl⟩

theorem config_of_ofGrammar {cuts : Cuts} (made : Cuts.ofGrammar standard = .ok cuts) :
    cuts.atBlanks.config = blankConfig ∧ cuts.aroundSymbols.config = symbolConfig :=
  configs_of_ofGrammar made

theorem protects_blankConfig : blankConfig.Protects :=
  ⟨rfl, rfl, rfl, rfl, rfl, rfl, rfl, rfl, fun _ impossible => by cases impossible⟩

/-- Words with blanks between them are the tokens of a line. -/
theorem tokens_of_words {g : Grammar} {cuts : Cuts} (made : Cuts.ofGrammar g = .ok cuts)
    {words : List (List Char)}
    (each : ∀ word ∈ words, word ≠ [] ∧ Nested (fun c => isBlank c = false) word) :
    cuts.atBlanks.tokens ([' '].intercalate words) = words := by
  have config := (configs_of_ofGrammar made).1
  have protects : cuts.atBlanks.config.Protects := config ▸ protects_blankConfig
  exact Tokenizer.tokens_intercalate protects (by rw [config]; rfl) (by rw [config]; rfl) each

theorem token_of_nested {g : Grammar} {cuts : Cuts} (made : Cuts.ofGrammar g = .ok cuts)
    {text : List Char} (filled : text ≠ []) (nested : Nested (fun c => isBlank c = false) text) :
    cuts.atBlanks.tokens text = [text] := by
  have word := tokens_of_words made (List.forall_mem_singleton.2 ⟨filled, nested⟩)
  rwa [List.intercalate_singleton] at word

theorem protects_symbolConfig : symbolConfig.Protects := by
  refine ⟨rfl, rfl, rfl, rfl, rfl, rfl, rfl, rfl, fun symbol registered => ?_⟩
  have marks := Grammar.isMark_of_registered symbol registered
  exact ⟨fun member => Bool.noConfusion (marks _ member),
    fun member => Bool.noConfusion (marks _ member)⟩

theorem passes_symbolConfig {c : Char} (word : isWordChar c) : symbolConfig.Passes c := by
  refine ⟨fun symbol registered first => ?_, fun impossible => by cases impossible⟩
  have mark := isMark_iff.1 (Grammar.isMark_of_registered symbol registered c
    (List.mem_of_head? first))
  exact Bool.noConfusion (mark.1.symm.trans word)

/-- Whether no symbol goes on with a text. -/
def Quiet (text : List Char) : Prop := ∀ c, text.head? = some c → isMark c = false

section

variable {t : Tokenizer} (config : t.config = symbolConfig)

include config

theorem protects_config : t.config.Protects := by
  rw [config]
  exact protects_symbolConfig

theorem longestSymbol?_append {marks rest : List Char} (all : ∀ c ∈ marks, isMark c)
    (quiet : Quiet rest) {symbol : String} (found : t.lexicon.longestSymbol? marks = some symbol) :
    t.lexicon.longestSymbol? (marks ++ rest) = some symbol := by
  have protects := protects_config config
  rw [Tokenizer.longestSymbol?_eq_iff] at found ⊢
  obtain ⟨member, filled, ⟨behind, rfl⟩, longest⟩ := found
  refine ⟨member, filled, ⟨behind ++ rest, by rw [List.append_assoc]⟩,
    fun other member' more starts => ?_⟩
  rcases List.append_eq_append_iff.1 starts with ⟨surplus, whole, tail⟩ | ⟨surplus, whole, _⟩
  · cases surplus with
    | nil => exact longest other member' [] (by rw [whole, List.append_nil, List.append_nil])
    | cons d surplus =>
      cases text : other.toList with
      | nil => exact Nat.zero_le _
      | cons c tail' =>
        have mark : isMark c := by
          refine all c ?_
          cases first : symbol.toList with
          | nil => exact absurd (String.toList_injective first) filled
          | cons c' _ =>
            rw [first, text, List.cons_append, List.cons_append, List.cons.injEq] at whole
            simp [whole.1]
        obtain ⟨_, opens, closes, _⟩ := isMark_iff.1 mark
        have separator := (Tokenizer.symbol_of_starts protects member' text).2.2 opens closes
        rw [config] at separator
        have within := Grammar.isMark_of_registered other separator d (by rw [whole]; simp)
        rw [quiet d (by rw [tail]; rfl)] at within
        cases within
  · exact longest other member' surplus whole

theorem longestSymbol?_symbol {symbol : String} (registered : Registered symbol) {rest : List Char}
    (quiet : Quiet rest) : t.lexicon.longestSymbol? (symbol.toList ++ rest) = some symbol := by
  have alone : ∀ s, Registered s →
      (Lexicon.ofList symbolConfig.symbols).longestSymbol? s.toList = some s := by decide +kernel
  refine longestSymbol?_append config (Grammar.isMark_of_registered symbol registered) quiet ?_
  rw [t.lexicon_eq, config]
  exact alone symbol registered

/-- A sign and a step that are not glued are cut apart, and glued ones the other way round. -/
theorem longestSymbol?_pair {m m' : Modifier} (modifies : standard.Modifies 8 m)
    (modifies' : standard.Modifies 10 m') {rest : List Char} (quiet : Quiet rest) :
    t.lexicon.longestSymbol? (m.symbol.toList ++ (m'.symbol.toList ++ rest)) =
      some (if Expr.glues m m' then m'.symbol else m.symbol) := by
  have pairs : ∀ s ∈ ["-", "+", "!"], ∀ s' ∈ ["++", "--", "$"],
      (Lexicon.ofList symbolConfig.symbols).longestSymbol? (s.toList ++ s'.toList) =
        some (if s = "+" ∧ s' = "++" ∨ s = "-" ∧ s' = "--" then s' else s) := by decide +kernel
  have pair := pairs m.symbol (Expr.symbol_of_sign modifies) m'.symbol (Expr.symbol_of_step modifies')
  have sides : m.side = .before ∧ m'.side = .before :=
    ⟨Expr.side_of_modifies modifies (by omega), Expr.side_of_modifies modifies' (by omega)⟩
  have glues : Expr.glues m m' = true ↔
      m.symbol = "+" ∧ m'.symbol = "++" ∨ m.symbol = "-" ∧ m'.symbol = "--" := by
    simp [Expr.glues, sides]
  rw [← List.append_assoc]
  refine longestSymbol?_append config (List.forall_mem_append.2
    ⟨Grammar.isMark_of_registered _ modifies.registered,
      Grammar.isMark_of_registered _ modifies'.registered⟩) quiet ?_
  rw [t.lexicon_eq, config, pair]
  simp only [glues]

/-! ## Chunks -/

open Abacus.Expr (Chunk Ending Fronts chunkText)

/-- Texts of operands: no blank, comma or mark outside of parentheses. -/
def Solid (text : List Char) : Prop := text ≠ [] ∧ Nested (fun c => isWordChar c) text

omit config in
theorem Solid.quiet {text : List Char} (solid : Solid text) (rest : List Char) :
    Quiet (text ++ rest) := by
  intro c first
  cases whole : text with
  | nil => exact absurd whole solid.1
  | cons d tail =>
    have first : text.head? = some c := by simpa [whole] using first
    rcases solid.2.head?_eq first with word | rfl
    · simp [isMark, word]
    · rfl

theorem cut_separator {symbol : String} (registered : Registered symbol) {rest : List Char}
    {tokens : List (List Char)} (quiet : Quiet rest) (cut : t.Cut rest tokens) :
    t.Cut (symbol.toList ++ rest) (symbol.toList :: tokens) :=
  .separator (by rw [config]; exact registered) (longestSymbol?_symbol config registered quiet) cut

theorem cut_ending {chunk : List Item} (ending : Ending chunk)
    (solid : ∀ e, .operand e ∈ chunk → Solid e.plain) :
    Quiet (chunkText chunk) ∧ t.Cut (chunkText chunk) (chunk.map Item.written) := by
  have passes {text : List Char} (solid : Solid text) : Nested t.config.Passes text := by
    rw [config]
    exact solid.2.weaken fun c => passes_symbolConfig
  have trimmed {text : List Char} (solid : Solid text) : trim text = text :=
    solid.2.trim fun c => isBlank_of_isWordChar
  have nothing : Quiet [] := fun _ impossible => by cases impossible
  cases ending with
  | @operand e _ =>
    have solid := solid e List.mem_cons_self
    have text : chunkText [.operand e] = e.plain ++ [] := by simp [chunkText, Item.written]
    rw [text]
    exact ⟨solid.quiet [], .nested solid.1 (trimmed solid) (passes solid) (.inl rfl) .nil⟩
  | @after m e _ modifies =>
    have solid := solid e List.mem_cons_self
    have text : chunkText [.operand e, .after ⟨11, m⟩] = e.plain ++ (m.symbol.toList ++ []) := by
      simp [chunkText, Item.written]
    have found := longestSymbol?_symbol config modifies.registered nothing
    have separator : m.symbol ∈ t.config.separators := by rw [config]; exact modifies.registered
    rw [text]
    exact ⟨solid.quiet _, .nested solid.1 (trimmed solid) (passes solid)
      (.inr ⟨m.symbol, separator, found⟩) (cut_separator config modifies.registered nothing .nil)⟩

theorem cut_fronts {fronts : List Item} (front : Fronts fronts) {rest : List Char}
    {tokens : List (List Char)} (quiet : Quiet rest) (cut : t.Cut rest tokens) :
    t.Cut (chunkText fronts ++ rest) (fronts.map Item.written ++ tokens) := by
  have single {i : Item} {symbol : String} (written : i.written = symbol.toList)
      (registered : Registered symbol) :
      t.Cut (chunkText [i] ++ rest) ([i].map Item.written ++ tokens) := by
    simpa [chunkText, written] using cut_separator config registered quiet cut
  cases front with
  | nil => exact cut
  | operator operates => exact single rfl operates.registered
  | before modifies => exact single rfl modifies.registered
  | after modifies => exact single rfl modifies.registered
  | @pair m m' modifies modifies' =>
    have found := longestSymbol?_pair config modifies modifies' quiet
    have separates {s : String} (registered : Registered s) : s ∈ t.config.separators := by
      rw [config]
      exact registered
    cases glues : Expr.glues m m' with
    | false =>
      rw [glues] at found
      have whole := Tokenizer.Cut.separator (separates modifies.registered) found
        (cut_separator config modifies'.registered quiet cut)
      simpa [Expr.precede, glues, chunkText, Item.written] using whole
    | true =>
      have swaps : m.symbol.toList ++ (m'.symbol.toList ++ rest) =
          m'.symbol.toList ++ (m.symbol.toList ++ rest) := by
        simp only [Expr.glues, Bool.and_eq_true, Bool.or_eq_true, decide_eq_true_eq] at glues
        rcases glues.2 with ⟨symbol, symbol'⟩ | ⟨symbol, symbol'⟩ <;> simp [symbol, symbol']
      rw [glues, swaps] at found
      have whole := Tokenizer.Cut.separator (separates modifies'.registered) found
        (cut_separator config modifies.registered quiet cut)
      simpa [Expr.precede, glues, chunkText, Item.written] using whole

theorem cut_chunk {chunk : List Item} (shaped : Chunk chunk)
    (solid : ∀ e, .operand e ∈ chunk → Solid e.plain) :
    t.Cut (chunkText chunk) (chunk.map Item.written) := by
  cases shaped with
  | symbols _ front =>
    have nothing : Quiet [] := fun _ impossible => by cases impossible
    have whole := cut_fronts config front nothing .nil
    rwa [List.append_nil, List.append_nil] at whole
  | @operand fronts tail front ending =>
    obtain ⟨quiet, cut⟩ := cut_ending config ending fun e member =>
      solid e (List.mem_append_right fronts member)
    have whole := cut_fronts config front quiet cut
    rwa [← List.map_append, chunkText, chunkText, ← List.flatMap_append] at whole

end

end Parse

end Abacus
