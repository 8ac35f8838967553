import Abacus.Proofs.Parse.Operand
import Abacus.Proofs.Parse.Roles

/-!
# Reading a printed line

The plain text of a legible expression parses to that expression with its glued
signs read in the other order: each chunk is read as an operand or cut into its
items, and the items of all chunks are decided and grouped.
-/

namespace Abacus.Parse

open Text Parsing
open Abacus.Expr (Legible Chained Chunk Ending Fronts Lays chunkText)
open Grammar (standard Registered)

/-! ## Texts of lines -/

theorem clean_intercalate {word : List Char} {words : List (List Char)}
    (each : ∀ w ∈ word :: words, w ≠ [] ∧ Nested (fun c => isBlank c = false ∧ c ≠ ',') w) :
    Clean ([' '].intercalate (word :: words)) := by
  have whole : [' '].intercalate (word :: words) ≠ [] ∧
      (∀ c, ([' '].intercalate (word :: words)).head? = some c → isBlank c = false) ∧
      (∀ c, ([' '].intercalate (word :: words)).getLast? = some c → isBlank c = false) ∧
      Nested (fun c => c ≠ ',') ([' '].intercalate (word :: words)) := by
    induction words generalizing word with
    | nil =>
      obtain ⟨filled, nested⟩ := each word List.mem_cons_self
      rw [List.intercalate_singleton]
      exact ⟨filled, fun _ => nested.first_filled fun _ both => both.1,
        fun _ => nested.last_filled fun _ both => both.1, nested.weaken fun _ both => both.2⟩
    | cons next words inductionHypothesis =>
      rw [List.forall_mem_cons] at each
      obtain ⟨⟨filled, nested⟩, each⟩ := each
      obtain ⟨filledRest, _, last, nestedRest⟩ := inductionHypothesis each
      rw [List.intercalate_cons_cons]
      refine ⟨by simp [filled], fun c first => ?_, fun c final => ?_, ?_⟩
      · obtain ⟨d, tail, rfl⟩ := List.exists_cons_of_ne_nil filled
        exact nested.first_filled (fun _ both => both.1) first
      · rw [List.getLast?_append] at final
        cases behind : ([' '].intercalate (next :: words)).getLast? with
        | none => exact absurd (List.getLast?_eq_none_iff.1 behind) filledRest
        | some d =>
          rw [behind] at final
          exact last c (behind.trans final)
      · exact ((nested.weaken fun _ both => both.2).append (.ofChars (by simp))).append nestedRest
  exact ⟨whole.1, trim_of_filled whole.2.1 whole.2.2.1, whole.2.2.2⟩

/-! ## Chunks -/

theorem forall_mem_chunk {P : Item → Prop} {chunk : List Item} (shaped : Chunk chunk)
    (operand : ∀ e, .operand e ∈ chunk → P (.operand e))
    (operator : ∀ role : Role Operator, Registered role.member.symbol → P (.operator role))
    (before : ∀ role : Role Modifier, Registered role.member.symbol → P (.before role))
    (after : ∀ role : Role Modifier, Registered role.member.symbol → P (.after role)) :
    ∀ i ∈ chunk, P i := by
  have fronts {fronts : List Item} (shaped : Fronts fronts) : ∀ i ∈ fronts, P i := by
    cases shaped with
    | nil => exact fun _ member => by cases member
    | operator operates => exact List.forall_mem_singleton.2 (operator _ operates.registered)
    | before modifies => exact List.forall_mem_singleton.2 (before _ modifies.registered)
    | after modifies => exact List.forall_mem_singleton.2 (after _ modifies.registered)
    | @pair m m' modifies modifies' =>
      have first := before ⟨8, m⟩ modifies.registered
      have second := before ⟨10, m'⟩ modifies'.registered
      rw [Expr.precede]
      split <;> simp [first, second]
  cases shaped with
  | symbols _ shaped => exact fronts shaped
  | operand shaped ending =>
    refine List.forall_mem_append.2 ⟨fronts shaped, fun i member => ?_⟩
    cases ending with
    | operand _ =>
      cases List.mem_singleton.1 member
      exact operand _ (List.mem_append_right _ member)
    | after _ modifies =>
      rcases List.mem_cons.1 member with rfl | last
      · exact operand _ (List.mem_append_right _ member)
      · cases List.mem_singleton.1 last
        exact after _ modifies.registered

theorem nested_chunk {chunk : List Item} (shaped : Chunk chunk)
    (solid : ∀ e, .operand e ∈ chunk → Solid e.plain) :
    chunkText chunk ≠ [] ∧
      Nested (fun c => isBlank c = false ∧ c ≠ ',') (chunkText chunk) := by
  have symbol {s : String} (registered : Registered s) : s.toList ≠ [] ∧
      Nested (fun c => isBlank c = false ∧ c ≠ ',') s.toList := by
    refine ⟨Grammar.filled_of_registered s registered, .ofChars fun c member => ?_⟩
    obtain ⟨_, opens, closes, comma, blank⟩ :=
      isMark_iff.1 (Grammar.isMark_of_registered s registered c member)
    exact ⟨⟨blank, comma⟩, opens, closes⟩
  have items : ∀ i ∈ chunk, i.written ≠ [] ∧
      Nested (fun c => isBlank c = false ∧ c ≠ ',') i.written := by
    refine forall_mem_chunk shaped (fun e member => ?_) (fun _ => symbol) (fun _ => symbol)
      fun _ => symbol
    obtain ⟨filled, nested⟩ := solid e member
    exact ⟨filled, nested.weaken fun c word => ⟨isBlank_of_isWordChar word,
      ne_comma_of_isWordChar word⟩⟩
  have filled : chunk ≠ [] := by
    cases shaped with
    | symbols filled _ => exact filled
    | operand _ ending => cases ending <;> simp
  -- Only what is known of each single item is needed from here on.
  clear shaped solid
  induction chunk with
  | nil => exact absurd rfl filled
  | cons i chunk inductionHypothesis =>
    rw [List.forall_mem_cons] at items
    refine ⟨by simp [chunkText, items.1.1], ?_⟩
    rw [chunkText, List.flatMap_cons]
    refine items.1.2.append ?_
    cases chunk with
    | nil => exact .nil _
    | cons j chunk => exact (inductionHypothesis items.2 (List.cons_ne_nil _ _)).2

/-- What a chunk is read as before it is cut. -/
def trial : List Item → Option Expr
  | [.operand e] => some e.unglued
  | _ => none

theorem trial_cases {chunk : List Item} (shaped : Chunk chunk) :
    (∃ e, chunk = [.operand e]) ∨ trial chunk = none ∧
      ∃ c, isMark c ∧ ((chunkText chunk).head? = some c ∨ (chunkText chunk).getLast? = some c) := by
  have first {s : String} (registered : Registered s) (rest : List Char) :
      ∃ c, isMark c ∧ (s.toList ++ rest).head? = some c := by
    obtain ⟨c, tail, text, mark⟩ := Grammar.exists_mark registered
    exact ⟨c, mark, by rw [text]; rfl⟩
  have starts {fronts : List Item} (shaped : Fronts fronts) (filled : fronts ≠ []) (rest : List Item) :
      trial (fronts ++ rest) = none ∧
        ∃ c, isMark c ∧ (chunkText (fronts ++ rest)).head? = some c := by
    cases shaped with
    | nil => exact absurd rfl filled
    | operator operates => exact ⟨rfl, first operates.registered _⟩
    | before modifies => exact ⟨rfl, first modifies.registered _⟩
    | after modifies => exact ⟨rfl, first modifies.registered _⟩
    | pair modifies modifies' =>
      rw [Expr.precede]
      split
      · exact ⟨rfl, first modifies'.registered _⟩
      · exact ⟨rfl, first modifies.registered _⟩
  cases shaped with
  | symbols filled shaped =>
    obtain ⟨none, c, mark, head⟩ := starts shaped filled []
    rw [List.append_nil] at none head
    exact .inr ⟨none, c, mark, .inl head⟩
  | @operand fronts ending shaped ends =>
    by_cases filled : fronts = []
    · subst filled
      cases ends with
      | operand _ => exact .inl ⟨_, rfl⟩
      | @after m e _ modifies =>
        cases text : m.symbol.toList.getLast? with
        | none =>
          exact absurd (List.getLast?_eq_none_iff.1 text)
            (Grammar.filled_of_registered _ modifies.registered)
        | some c =>
          have mark := Grammar.isMark_of_registered _ modifies.registered c
            (List.mem_of_getLast? text)
          refine .inr ⟨rfl, c, mark, .inr ?_⟩
          simp [chunkText, Item.written, List.getLast?_append, text]
    · obtain ⟨none, c, mark, head⟩ := starts shaped filled ending
      exact .inr ⟨none, c, mark, .inl head⟩

/-! ## Lines -/

section

variable {scope : Scope} {cuts : Cuts} {S : Table String Cell → Prop}

/-- Whether the text of an operand is read back, given enough depth for its parentheses. -/
def Rereads (scope : Scope) (cuts : Cuts) (S : Table String Cell → Prop) (x : Expr) : Prop :=
  Solid x.plain ∧ ∀ depth, x.plain.count '(' ≤ depth →
    Reads S (operand? scope (parseToDepth scope cuts depth false) x.plain) (some x.unglued)

theorem count_le_of_operand (e : Expr) {x : Expr} (member : .operand x ∈ e.items standard) :
    x.plain.count '(' ≤ e.plain.count '(' := by
  match e with
  | .binary o l r =>
    rw [Expr.items, List.mem_append, List.mem_cons] at member
    have parts : (Expr.binary o l r).plain.count '(' ≥ l.plain.count '(' + r.plain.count '(' := by
      simp only [Expr.plain, List.count_append, List.count_cons]
      omega
    rcases member with left | impossible | right
    · have := count_le_of_operand l left
      omega
    · cases impossible
    · have := count_le_of_operand r right
      omega
  | .unary m e =>
    have part : (Expr.unary m e).plain.count '(' ≥ e.plain.count '(' := by
      rw [Expr.plain]
      split <;> (simp only [List.count_append]; omega)
    have inside : .operand x ∈ e.items standard := by
      rw [Expr.items] at member
      cases side : m.side <;> simpa [side] using member
    have := count_le_of_operand e inside
    omega
  | .literal _ | .cell _ | .call _ _ | .parens _ | .branches _ _ =>
    cases List.mem_singleton.1 member
    exact Nat.le_refl _

variable (grammar : scope.grammar = standard) (made : Cuts.ofGrammar standard = .ok cuts)

include grammar made

theorem reads_chunk {chunk : List Item} (shaped : Chunk chunk) {depth : Nat}
    (operands : ∀ x, .operand x ∈ chunk → Solid x.plain ∧
      Reads S (operand? scope (parseToDepth scope cuts depth false) x.plain) (some x.unglued)) :
    Reads S (tokenItems scope cuts (parseToDepth scope cuts depth false) (chunkText chunk, trial chunk))
      (chunk.map fun i => i.reread.undecided standard) := by
  have solid (x : Expr) (member : .operand x ∈ chunk) : Solid x.plain := (operands x member).1
  have symbol {s : String} (registered : Registered s) :
      Reads S (segmentItems scope cuts (parseToDepth scope cuts depth false) s.toList)
        [.symbol s ((standard.roles? s).getD {})] := by
    have known : ∀ s, Registered s → (standard.roles? s).isSome := by decide +kernel
    obtain ⟨roles, found⟩ := Option.isSome_iff_exists.1 (known s registered)
    unfold segmentItems
    rw [grammar, String.ofList_toList, found]
    exact .result _
  have item : ∀ i ∈ chunk, Reads S (segmentItems scope cuts (parseToDepth scope cuts depth false) i.written)
      [i.reread.undecided standard] := by
    refine forall_mem_chunk shaped (fun x member => ?_) (fun _ => symbol) (fun _ => symbol)
      fun _ => symbol
    obtain ⟨⟨filled, nested⟩, reads⟩ := operands x member
    have other : standard.roles? (String.ofList x.plain) = none := by
      cases found : standard.roles? (String.ofList x.plain) with
      | none => rfl
      | some roles =>
        have marks := Grammar.isMark_of_registered _ (Table.mem_keys found)
        obtain ⟨c, tail, whole⟩ := List.exists_cons_of_ne_nil filled
        have mark := marks c (by rw [String.toList_ofList, whole]; exact List.mem_cons_self)
        rcases nested.head?_eq (by rw [whole]; rfl : x.plain.head? = some c) with word | rfl
        · exact absurd (word.symm.trans (isMark_iff.1 mark).1) (by decide)
        · cases mark
    change Reads S (segmentItems scope cuts _ x.plain) [.operand x.unglued]
    unfold segmentItems
    rw [grammar, other]
    exact .bind reads (.result _)
  rcases trial_cases shaped with ⟨e, rfl⟩ | ⟨none, _⟩
  · exact .result _
  · have config := (config_of_ofGrammar made).2
    have cut := cut_chunk config shaped solid
    have whole : (chunk.map fun i => [i.reread.undecided standard]).flatten =
        chunk.map fun i => i.reread.undecided standard := by
      rw [← List.flatMap_def, ← List.map_eq_flatMap]
    rw [none]
    unfold tokenItems
    dsimp only
    rw [Tokenizer.tokens_of_cut (protects_config config) cut, ← whole]
    exact .bind (.mapM item) (.result _)

/-- A line is read if its operands are. -/
theorem reads_line {e : Expr} (chained : Chained 0 e)
    (operands : ∀ x, .operand x ∈ e.items standard → Rereads scope cuts S x) :
    Clean e.plain ∧ ∀ depth wholeLine, e.plain.count '(' ≤ depth →
      Reads S (parseToDepth scope cuts (depth + 1) wholeLine e.plain) (some e.unglued) := by
  obtain ⟨first, rest, lays⟩ := chained.lays
  have inChunk {chunk : List Item} (among : chunk ∈ first :: rest) (x : Expr)
      (member : .operand x ∈ chunk) : .operand x ∈ e.items standard :=
    lays.operands x (by
      rw [← List.flatten_cons]
      exact List.mem_flatten_of_mem among member)
  have nested (chunk : List Item) (among : chunk ∈ first :: rest) :=
    nested_chunk (lays.chunks chunk among) fun x member => (operands x (inChunk among x member)).1
  refine ⟨?_, fun depth wholeLine deep => ?_⟩
  · rw [lays.plain, List.map_cons]
    exact clean_intercalate (List.map_cons ▸ List.forall_mem_map.2 nested)
  have tokens : cuts.atBlanks.tokens e.plain = (first :: rest).map chunkText := by
    rw [lays.plain]
    refine tokens_of_words made (List.forall_mem_map.2 fun chunk among => ?_)
    exact ⟨(nested chunk among).1, (nested chunk among).2.weaken fun _ both => both.1⟩
  have reads (x : Expr) (member : .operand x ∈ e.items standard) : Solid x.plain ∧
      Reads S (operand? scope (parseToDepth scope cuts depth false) x.plain) (some x.unglued) :=
    ⟨(operands x member).1, (operands x member).2 depth
      (Nat.le_trans (count_le_of_operand e member) deep)⟩
  have tries (chunk : List Item) (among : chunk ∈ first :: rest) :
      Reads S (do return (chunkText chunk, ← operand? scope (parseToDepth scope cuts depth false)
        (chunkText chunk))) (chunkText chunk, trial chunk) := by
    refine .bind ?_ (.result _)
    rcases trial_cases (lays.chunks chunk among) with ⟨x, rfl⟩ | ⟨none, c, mark, ends⟩
    · have text : chunkText [.operand x] = x.plain := List.append_nil _
      rw [text]
      exact (reads x (inChunk among x List.mem_cons_self)).2
    · rw [operand?_of_mark mark ends, none]
      exact .result _
  have cutUp (chunk : List Item) (among : chunk ∈ first :: rest) :=
    reads_chunk grammar made (lays.chunks chunk among) fun x member =>
      reads x (inChunk among x member)
  -- Every chunk is tried as an operand first; then those that are none are cut.
  rw [parseToDepth, parseWith, tokens]
  refine .bind (.mapM tries) ?_
  split
  · rename_i impossible
    cases impossible
  · rename_i text x single
    obtain ⟨same, rfl⟩ : (chunkText first, trial first) = (text, some x) ∧ rest = [] := by
      simpa using single
    rcases trial_cases (lays.chunks first List.mem_cons_self) with ⟨y, rfl⟩ | ⟨none, _⟩
    · cases same
      have items : e.unglued.items standard = [.operand y.unglued] := lays.items.symm
      rw [Expr.eq_of_items_operand items]
      exact .result _
    · rw [none] at same
      cases same
  · obtain ⟨l, decides, groups⟩ := decide_toExpr chained.unglued (scope.leadingOf wholeLine e.plain)
    have items : ((first :: rest).map fun chunk => chunk.map fun i => i.reread.undecided standard).flatten =
        (e.unglued.items standard).map (Item.undecided standard) := by
      rw [← lays.items, ← List.flatten_cons, List.map_map]
      simp [List.map_flatten, Function.comp_def]
    refine .bind (.mapM cutUp) ?_
    rw [items, grammar]
    exact .bind (.ofExcept decides) (.bind (.ofExcept groups) (.result _))

/-! ## Operands of all depths -/

omit grammar made in
theorem count_le_intercalate {separator t : List Char} {texts : List (List Char)} (c : Char)
    (member : t ∈ texts) : t.count c ≤ (separator.intercalate texts).count c := by
  induction texts with
  | nil => cases member
  | cons text texts inductionHypothesis =>
    cases texts with
    | nil =>
      rw [List.intercalate_singleton, List.mem_singleton.1 member]
    | cons next texts =>
      rw [List.intercalate_cons_cons, List.count_append, List.count_append]
      rcases List.mem_cons.1 member with rfl | member
      · omega
      · have := inductionHypothesis member
        omega

omit grammar made in
theorem plain_call (f : Function) (es : List Expr) : (Expr.call f es).plain =
    f.name.toList ++ '(' :: ([',', ' '].intercalate (es.map Expr.plain) ++ [')']) := by
  rw [Expr.plain, Expr.plainAll_eq_map]

omit grammar made in
theorem solid_parens {e : Expr} (clean : Clean e.plain) : Solid (Expr.parens e).plain :=
  ⟨List.cons_ne_nil _ _, clean.nested.parens _⟩

omit grammar made in
theorem solid_call {f : Function} {es : List Expr} (named : Lexeme.isName f.name.toList)
    (clean : ∀ e ∈ es, Clean e.plain) : Solid (Expr.call f es).plain := by
  rw [plain_call]
  refine ⟨by simp, (solid_of_isName named).2.append ?_⟩
  exact (nested_intercalate (List.forall_mem_map.2 clean)).parens _

omit grammar made in
theorem exists_depth_parens {e : Expr} {depth : Nat} (deep : (Expr.parens e).plain.count '(' ≤ depth) :
    ∃ inner, depth = inner + 1 ∧ e.plain.count '(' ≤ inner := by
  rw [Expr.plain, List.count_cons_self, List.count_append] at deep
  exact ⟨depth - 1, by omega, by omega⟩

omit grammar made in
theorem exists_depth_call {f : Function} {es : List Expr} {depth : Nat}
    (deep : (Expr.call f es).plain.count '(' ≤ depth) :
    ∃ inner, depth = inner + 1 ∧ ∀ e ∈ es, e.plain.count '(' ≤ inner := by
  rw [plain_call, List.count_append, List.count_cons_self, List.count_append] at deep
  refine ⟨depth - 1, by omega, fun e member => ?_⟩
  have inside : e.plain.count '(' ≤ ([',', ' '].intercalate (es.map Expr.plain)).count '(' :=
    count_le_intercalate '(' (List.mem_map_of_mem member)
  omega

/-- Whether a leaf is what its text is read as. -/
def ReadsLeaf (scope : Scope) (S : Table String Cell → Prop) : Expr → Prop
  | .literal (some a) => Number.ofText? a.text.toList = some a ∧ Solid a.text.toList
  | .cell c => Lexeme.isName c.name.toList ∧ Reads S (scope.cell c.name) c
  | _ => False

def Calls (scope : Scope) (f : Function) (arity : Nat) : Prop :=
  Lexeme.isName f.name.toList ∧ scope.functions.get? (f.name, arity) = some f

theorem rereads_of_legible {e : Expr} (legible : Legible (ReadsLeaf scope S) (Calls scope) e) :
    ∀ x, .operand x ∈ e.items standard → Rereads scope cuts S x := by
  -- By induction on the expression: what stands in parentheses or in a call is a line of its own.
  induction legible with
  | @literal v good =>
    intro x member
    cases List.mem_singleton.1 member
    cases v with
    | none => exact good.elim
    | some a => exact ⟨good.2, fun depth _ => reads_number good.1⟩
  | @cell c good =>
    intro x member
    cases List.mem_singleton.1 member
    refine ⟨solid_of_isName good.1, fun depth _ => reads_name good.1 ?_ good.2⟩
    rw [grammar]
    exact isSymbol_of_isName good.1
  | binary operates _ _ _ leftHypothesis rightHypothesis =>
    intro x member
    rw [Expr.items_binary operates, List.mem_append, List.mem_cons] at member
    rcases member with left | impossible | right
    · exact leftHypothesis x left
    · cases impossible
    · exact rightHypothesis x right
  | @unary row m e modifies _ _ inductionHypothesis =>
    intro x member
    refine inductionHypothesis x ?_
    cases side : m.side with
    | before =>
      rw [Expr.items_before modifies side] at member
      simpa using member
    | after =>
      rw [Expr.items_after modifies side] at member
      simpa using member
  | @call f arguments good legible inductionHypothesis =>
    intro x member
    cases List.mem_singleton.1 member
    have line (e : Expr) (member : e ∈ arguments) :=
      reads_line grammar made (legible e member).chained (inductionHypothesis e member)
    have clean (e : Expr) (member : e ∈ arguments) : Clean e.plain := (line e member).1
    refine ⟨solid_call good.1 clean, fun depth deep => ?_⟩
    obtain ⟨inner, rfl, within⟩ := exists_depth_call deep
    rw [plain_call, Expr.unglued, Expr.ungluedAll_eq_map]
    exact reads_call good.1 good.2 clean fun e member =>
      (line e member).2 inner false (within e member)
  | @parens e legible inductionHypothesis =>
    intro x member
    cases List.mem_singleton.1 member
    obtain ⟨clean, line⟩ := reads_line grammar made legible.chained inductionHypothesis
    refine ⟨solid_parens clean, fun depth deep => ?_⟩
    obtain ⟨inner, rfl, within⟩ := exists_depth_parens deep
    exact reads_parens clean.nested (line inner false within)

/-- A legible expression is read back from its text, with its glued signs in the other order. -/
theorem reads_legible {e : Expr} (legible : Legible (ReadsLeaf scope S) (Calls scope) e) :
    Clean e.plain ∧ ∀ wholeLine, Reads S
      (parseToDepth scope cuts (e.plain.count '(' + 1) wholeLine e.plain) (some e.unglued) := by
  obtain ⟨clean, line⟩ := reads_line grammar made legible.chained
    (rereads_of_legible grammar made legible)
  exact ⟨clean, fun wholeLine => line _ wholeLine (Nat.le_refl _)⟩

omit made in
theorem parse_legible {e : Expr} (legible : Legible (ReadsLeaf scope S) (Calls scope) e)
    (start : S ∅) {line : String} (text : line.toList = e.plain) :
    ∃ created, parse scope line = .ok ⟨some e.unglued, created⟩ ∧ S created := by
  obtain ⟨cuts, made⟩ := exists_cuts standard
  obtain ⟨clean, reads⟩ := reads_legible grammar made legible
  obtain ⟨created, ends, kept⟩ := reads true ∅ start
  refine ⟨created, ?_, kept⟩
  unfold parse
  dsimp only
  rw [text, balanced_of_nested clean.nested, grammar, made]
  exact Fallible.bind_eq_ok.2 ⟨cuts, rfl, Fallible.bind_eq_ok.2 ⟨_, ends, rfl⟩⟩

end

end Abacus.Parse
