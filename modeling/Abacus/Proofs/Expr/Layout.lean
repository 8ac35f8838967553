import Abacus.Proofs.Expr.Signs

/-!
# The layout of a printed line

The plain text of an expression is a row of chunks with single blanks between them.
A chunk is an operand with what is written directly at it, or a symbol that stands
alone; put together, the chunks are the items of the expression that the text reads
as.
-/

namespace Abacus

namespace Parse

/-- The text of an item in a line. -/
def Item.written : Item → List Char
  | .operand e => e.plain
  | .symbol text _ => text.toList
  | .operator role => role.member.symbol.toList
  | .before role | .after role => role.member.symbol.toList

/-- What an item is read as. -/
def Item.reread : Item → Item
  | .operand e => .operand e.unglued
  | i => i

end Parse

namespace Expr

open Grammar (standard)
open Parse

/-! ## Chunks -/

def chunkText (chunk : List Item) : List Char := chunk.flatMap Item.written

/-- A modifier in front of a chunk, in the order in which the text is read. -/
def precede (role : Role Modifier) : List Item → List Item
  | .before next :: chunk =>
    if glues role.member next.member then .before next :: .before role :: chunk
    else .before role :: .before next :: chunk
  | chunk => .before role :: chunk

def front? : List Item → Option Modifier
  | .before role :: _ => some role.member
  | _ => none

/-- An operand with at most one modifier behind it. -/
inductive Ending : List Item → Prop where
  | operand {e : Expr} : e.isOperand → Ending [.operand e]
  | after {m : Modifier} {e : Expr} : e.isOperand → standard.Modifies 11 m →
      Ending [.operand e, .after ⟨11, m⟩]

/-- What stands in front of the operand of a chunk. -/
inductive Fronts : List Item → Prop where
  | nil : Fronts []
  | operator {row : Nat} {o : Operator} : standard.Operates row o → Fronts [.operator ⟨row, o⟩]
  | before {row : Nat} {m : Modifier} : standard.Modifies row m → Fronts [.before ⟨row, m⟩]
  | after {row : Nat} {m : Modifier} : standard.Modifies row m → Fronts [.after ⟨row, m⟩]
  | pair {m m' : Modifier} : standard.Modifies 8 m → standard.Modifies 10 m' →
      Fronts (precede ⟨8, m⟩ [.before ⟨10, m'⟩])

inductive Chunk : List Item → Prop where
  | symbols {fronts : List Item} : fronts ≠ [] → Fronts fronts → Chunk fronts
  | operand {fronts ending : List Item} : Fronts fronts → Ending ending → Chunk (fronts ++ ending)

/-- The chunks that a sign may be written in front of. -/
inductive Leading : List Item → Prop where
  | ending {chunk : List Item} : Ending chunk → Leading chunk
  | step {m : Modifier} {chunk : List Item} : standard.Modifies 10 m →
      chunk = [] ∨ Ending chunk → Leading (.before ⟨10, m⟩ :: chunk)

theorem precede_eq (role : Role Modifier) (chunk : List Item)
    (apart : (front? chunk).any (glues role.member) = false) :
    precede role chunk = .before role :: chunk := by
  unfold precede
  split
  · rename_i next chunk
    have apart : glues role.member next.member = false := apart
    simp [apart]
  · rfl

theorem eq_before_of_front? {p : Modifier → Bool} {chunk : List Item}
    (starts : (front? chunk).any p = true) :
    ∃ next more, chunk = .before next :: more ∧ p next.member := by
  unfold front? at starts
  split at starts
  · exact ⟨_, _, rfl, starts⟩
  · cases starts

theorem Ending.front?_eq {chunk : List Item} (ending : Ending chunk) : front? chunk = none := by
  cases ending <;> rfl

theorem Ending.chunk {chunk : List Item} (ending : Ending chunk) : Chunk chunk :=
  .operand .nil ending

theorem Ending.precede {row : Nat} {m : Modifier} {chunk : List Item} (ending : Ending chunk)
    (modifies : standard.Modifies row m) : Chunk (precede ⟨row, m⟩ chunk) := by
  rw [precede_eq _ _ (by rw [ending.front?_eq]; rfl)]
  exact .operand (.before modifies) ending

theorem precede_append (role : Role Modifier) (i : Item) (chunk more : List Item) :
    precede role (i :: chunk ++ more) = precede role (i :: chunk) ++ more := by
  cases i with
  | before next =>
    simp only [precede, List.cons_append]
    split <;> rfl
  | operand _ | symbol _ _ | operator _ | after _ => rfl

theorem Leading.precede {m : Modifier} {chunk : List Item} (leading : Leading chunk)
    (modifies : standard.Modifies 8 m) : Chunk (precede ⟨8, m⟩ chunk) := by
  cases leading with
  | ending ending => exact ending.precede modifies
  | @step m' chunk modifies' rest =>
    rcases rest with rfl | ending
    · refine .symbols ?_ (.pair modifies modifies')
      rw [Expr.precede]
      split <;> exact List.cons_ne_nil _ _
    · rw [← List.nil_append chunk, ← List.cons_append, precede_append]
      exact .operand (.pair modifies modifies') ending

/-! ## Layouts -/

/-- Whether some chunks are what is written of an expression. -/
structure Lays (e : Expr) (first : List Item) (rest : List (List Item)) : Prop where
  plain : e.plain = [' '].intercalate ((first :: rest).map chunkText)
  items : (first ++ rest.flatten).map Item.reread = e.unglued.items standard
  chunks : ∀ chunk ∈ first :: rest, Chunk chunk
  operands : ∀ x, .operand x ∈ first ++ rest.flatten → .operand x ∈ e.items standard

theorem operand_mem_precede {role : Role Modifier} {chunk : List Item} {x : Expr} :
    .operand x ∈ precede role chunk ↔ .operand x ∈ chunk := by
  unfold precede
  split
  · split <;> simp
  · simp

theorem intercalate_append {separator first next : List Char} {rest more : List (List Char)} :
    separator.intercalate (first :: (rest ++ next :: more)) =
      separator.intercalate (first :: rest) ++
        (separator ++ separator.intercalate (next :: more)) := by
  induction rest generalizing first with
  | nil => simp
  | cons other rest inductionHypothesis =>
    rw [List.cons_append, List.intercalate_cons_cons, inductionHypothesis,
      List.intercalate_cons_cons]
    simp

namespace Lays

variable {e l r : Expr} {m : Modifier} {o : Operator} {row : Nat}
  {first first' : List Item} {rest rest' : List (List Item)}

theorem operand (operand : e.isOperand) : Lays e [.operand e] [] where
  plain := by simp [chunkText, Item.written]
  items := (items_operand standard (isOperand_unglued operand)).symm
  chunks := List.forall_mem_singleton.2 (Ending.operand operand).chunk
  operands x member := by simpa [items_operand standard operand] using member

theorem binary (operates : standard.Operates row o) (left : Lays l first rest)
    (right : Lays r first' rest') :
    Lays (.binary o l r) first (rest ++ [.operator ⟨row, o⟩] :: first' :: rest') where
  plain := by
    rw [Expr.plain, left.plain, right.plain]
    simp only [List.map_cons, List.map_append, intercalate_append]
    simp [chunkText, Item.written]
  items := by
    rw [unglued, items_binary operates, ← left.items, ← right.items]
    simp [Item.reread]
  chunks := by
    have symbol : Chunk [.operator ⟨row, o⟩] := .symbols (List.cons_ne_nil _ _) (.operator operates)
    rw [← List.cons_append]
    exact List.forall_mem_append.2 ⟨left.chunks, List.forall_mem_cons.2 ⟨symbol, right.chunks⟩⟩
  operands x member := by
    rw [items_binary operates, List.mem_append, List.mem_cons]
    have member : .operand x ∈ first ++ rest.flatten ∨ .operand x ∈ first' ++ rest'.flatten := by
      simpa [or_assoc] using member
    exact member.imp (left.operands x) fun member => .inr (right.operands x member)

theorem apartBefore (modifies : standard.Modifies row m) (side : m.side = .before)
    (gap : modifierGap .before e ≠ "") (lays : Lays e first rest) :
    Lays (.unary m e) [.before ⟨row, m⟩] (first :: rest) := by
  have blank : modifierGap .before e = " " ∧ e.isBinary = false := by
    cases e with
    | unary m' x =>
      rw [modifierGap] at gap ⊢
      split <;> simp_all [isBinary]
    | _ => exact absurd rfl gap
  have apart : (Expr.unary m e.unglued).isGlued = false := by
    rw [isGlued, leftModifier?_of_not_binary (isBinary_unglued blank.2)]
    rfl
  refine ⟨?_, ?_, List.forall_mem_cons.2 ⟨.symbols (List.cons_ne_nil _ _) (.before modifies),
    lays.chunks⟩, fun x member => ?_⟩
  · rw [Expr.plain, side]
    simp [blank.1, lays.plain, chunkText, Item.written]
  · rw [unglued, resigned_of_not_glued apart, items_before modifies side, ← lays.items]
    simp [Item.reread]
  · rw [items_before modifies side]
    exact List.mem_cons_of_mem _ (lays.operands x (by simpa using member))

/-- A modifier written directly in front of a chunk changes places with a step that it is glued
    to. -/
theorem before (modifies : standard.Modifies row m) (side : m.side = .before)
    (gap : modifierGap .before e = "") (lays : Lays e first rest)
    (front : (front? first).any (glues m) = e.unglued.leftModifier?.any (glues m))
    (chunk : Chunk (precede ⟨row, m⟩ first)) :
    Lays (.unary m e) (precede ⟨row, m⟩ first) rest := by
  have written : chunkText (precede ⟨row, m⟩ first) = m.symbol.toList ++ chunkText first := by
    unfold precede
    split
    · split
      · rename_i next chunk glues
        simp only [Expr.glues, Bool.and_eq_true, Bool.or_eq_true, decide_eq_true_eq] at glues
        rcases glues.2 with ⟨symbol, symbol'⟩ | ⟨symbol, symbol'⟩ <;>
          simp [chunkText, Item.written, symbol, symbol']
      · simp [chunkText, Item.written]
    · simp [chunkText, Item.written]
  have operands (x : Expr) (member : .operand x ∈ precede ⟨row, m⟩ first ++ rest.flatten) :
      .operand x ∈ (Expr.unary m e).items standard := by
    rw [List.mem_append, operand_mem_precede, ← List.mem_append] at member
    rw [items_before modifies side]
    exact List.mem_cons_of_mem _ (lays.operands x member)
  refine ⟨?_, ?_, List.forall_mem_cons.2 ⟨chunk, (List.forall_mem_cons.1 lays.chunks).2⟩, operands⟩
  · rw [Expr.plain, side]
    simp only [gap, lays.plain, List.map_cons, written]
    cases rest <;> simp
  · rw [unglued]
    cases glued : (Expr.unary m e.unglued).isGlued with
    | false =>
      have apart : (front? first).any (glues m) = false := front.trans glued
      rw [precede_eq ⟨row, m⟩ first apart, resigned_of_not_glued glued,
        items_before modifies side, ← lays.items]
      rfl
    | true =>
      obtain ⟨o, m', y, r, same, glues, swapped⟩ := resigned_of_glued glued
      have items := lays.items
      have before : m'.side = .before := by
        simp only [Expr.glues, Bool.and_eq_true, decide_eq_true_eq] at glues
        exact glues.1.2
      have starts : (front? first).any (Expr.glues m) = true := front.trans glued
      rw [same] at items
      rw [swapped]
      obtain ⟨next, more, rfl, swaps⟩ := eq_before_of_front? starts
      have found := modifies.row?
      rw [side] at found
      rw [precede, if_pos swaps]
      simp only [Expr.items, before, side, List.cons_append, List.map_cons, Item.reread,
        List.cons.injEq, found, Option.getD_some] at items ⊢
      exact ⟨items.1, True.intro, items.2⟩

theorem apartAfter (modifies : standard.Modifies 11 m) (side : m.side = .after)
    (gap : modifierGap .after e ≠ "") (lays : Lays e first rest) :
    Lays (.unary m e) first (rest ++ [[.after ⟨11, m⟩]]) := by
  have blank : modifierGap .after e = " " := by
    cases e with
    | unary m' x =>
      rw [modifierGap] at gap ⊢
      split <;> simp_all
    | _ => exact absurd rfl gap
  refine ⟨?_, ?_, ?_, fun x member => ?_⟩
  · rw [Expr.plain, side, List.map_cons, List.map_append, List.map_singleton, intercalate_append]
    simp [blank, lays.plain, chunkText, Item.written]
  · rw [unglued, resigned_after side, items_after modifies side, ← lays.items]
    simp [Item.reread]
  · rw [← List.cons_append]
    exact List.forall_mem_append.2 ⟨lays.chunks, List.forall_mem_singleton.2
      (.symbols (List.cons_ne_nil _ _) (.after modifies))⟩
  · rw [items_after modifies side]
    exact List.mem_append_left _ (lays.operands x (by simpa using member))

theorem after (modifies : standard.Modifies 11 m) (side : m.side = .after)
    (operand : e.isOperand) : Lays (.unary m e) [.operand e, .after ⟨11, m⟩] [] := by
  have gap : modifierGap .after e = "" := by cases e <;> first | rfl | cases operand
  refine ⟨?_, ?_, List.forall_mem_singleton.2 (Ending.after operand modifies).chunk,
    fun x member => ?_⟩
  · rw [Expr.plain, side]
    simp [gap, chunkText, Item.written]
  · rw [unglued, resigned_after side, items_after modifies side,
      items_operand standard (isOperand_unglued operand)]
    rfl
  · rw [items_after modifies side, items_operand standard operand]
    simpa using member

end Lays

/-! ### Layouts of shaped expressions -/

section

variable {e : Expr}

theorem Postfixed.lays (postfixed : Postfixed e) :
    ∃ first rest, Lays e first rest ∧ Ending first := by
  induction postfixed with
  | operand operand => exact ⟨_, _, .operand operand, .operand operand⟩
  | @after m e side modifies postfixed inductionHypothesis =>
    cases postfixed with
    | operand operand => exact ⟨_, _, .after modifies side operand, .after operand modifies⟩
    | after side' _ _ =>
      obtain ⟨first, rest, lays, ending⟩ := inductionHypothesis
      exact ⟨first, _, lays.apartAfter modifies side (by simp [modifierGap, side']), ending⟩

theorem Postfixed.modifierGap_eq (postfixed : Postfixed e) : modifierGap .before e = "" := by
  cases postfixed with
  | operand operand => cases e <;> first | rfl | cases operand
  | after side _ _ => simp [modifierGap, side]

theorem Postfixed.laysBefore (postfixed : Postfixed e) {row : Nat} {m : Modifier}
    (modifies : standard.Modifies row m) (side : m.side = .before) :
    ∃ chunk rest, Lays (.unary m e) (.before ⟨row, m⟩ :: chunk) rest ∧ Ending chunk := by
  obtain ⟨first, rest, lays, ending⟩ := postfixed.lays
  have front : (front? first).any (glues m) = e.unglued.leftModifier?.any (glues m) := by
    rw [ending.front?_eq, postfixed.unglued.leftModifier?_eq]
  have whole := lays.before modifies side postfixed.modifierGap_eq front (ending.precede modifies)
  rw [precede_eq _ _ (by rw [ending.front?_eq]; rfl)] at whole
  exact ⟨first, rest, whole, ending⟩

theorem Stepped.lays (stepped : Stepped e) : ∃ first rest, Lays e first rest ∧ Leading first ∧
    ∀ m o r, (front? first).any (glues m) = (Expr.binary o e r).leftModifier?.any (glues m) := by
  induction stepped with
  | @postfixed e postfixed =>
    obtain ⟨first, rest, lays, ending⟩ := postfixed.lays
    refine ⟨first, rest, lays, .ending ending, fun m o r => ?_⟩
    rw [ending.front?_eq]
    cases postfixed with
    | operand operand => cases e <;> first | rfl | cases operand
    | after side _ _ => simp [leftModifier?, glues, side]
  | step modifies stepped inductionHypothesis =>
    have side := side_of_modifies modifies (by omega)
    cases stepped with
    | postfixed postfixed =>
      obtain ⟨chunk, rest, lays, ending⟩ := postfixed.laysBefore modifies side
      exact ⟨_, rest, lays, .step modifies (.inr ending), fun m o r => rfl⟩
    | step modifies' _ =>
      obtain ⟨first, rest, lays, _⟩ := inductionHypothesis
      have gap := side_of_modifies modifies' (by omega)
      exact ⟨_, _, lays.apartBefore modifies side (by simp [modifierGap, gap]),
        .step modifies (.inl rfl), fun m o r => rfl⟩

theorem Signed.lays (signed : Signed e) : ∃ first rest, Lays e first rest ∧
    (modifierGap .before e = "" → Leading first ∧
      ∀ m, (front? first).any (glues m) = e.leftModifier?.any (glues m)) := by
  induction signed with
  | postfixed postfixed =>
    obtain ⟨first, rest, lays, ending⟩ := postfixed.lays
    refine ⟨first, rest, lays, fun _ => ⟨.ending ending, fun m => ?_⟩⟩
    rw [ending.front?_eq, postfixed.leftModifier?_eq]
  | @sign m e modifies signed inductionHypothesis =>
    obtain ⟨first, rest, lays, leads⟩ := inductionHypothesis
    have side := side_of_modifies modifies (by omega)
    have impossible (x : Expr) : modifierGap .before (.unary m x) ≠ "" := by
      simp [modifierGap, side]
    by_cases gap : modifierGap .before e = ""
    · obtain ⟨leading, front⟩ := leads gap
      have front : (front? first).any (glues m) = e.unglued.leftModifier?.any (glues m) := by
        rw [front m, signed.leftModifier?_unglued]
      exact ⟨_, rest, lays.before modifies side gap front (leading.precede modifies),
        fun none => absurd none (impossible _)⟩
    · exact ⟨_, _, lays.apartBefore modifies side gap, fun none => absurd none (impossible _)⟩
  | @step m e modifies signed alone inductionHypothesis =>
    obtain ⟨first, rest, lays, _⟩ := inductionHypothesis
    have side := side_of_modifies modifies (by omega)
    have impossible (x : Expr) : modifierGap .before (.unary m x) ≠ "" := by
      simp [modifierGap, side]
    cases signed with
    | postfixed postfixed =>
      obtain ⟨chunk, rest, lays, _⟩ := postfixed.laysBefore modifies side
      exact ⟨_, rest, lays, fun none => absurd none (impossible _)⟩
    | sign modifies' _ | step modifies' _ _ =>
      have gap := side_of_modifies modifies' (by omega)
      exact ⟨_, _, lays.apartBefore modifies side (by simp [modifierGap, gap]),
        fun none => absurd none (impossible _)⟩
    | power _ _ _ => cases alone
  | @power o l r operates stepped _ inductionHypothesis =>
    obtain ⟨first, rest, left, leading, front⟩ := stepped.lays
    obtain ⟨first', rest', right, _⟩ := inductionHypothesis
    exact ⟨first, _, left.binary operates right, fun _ => ⟨leading, fun m => front m o r⟩⟩

theorem Chained.lays {row : Nat} (chained : Chained row e) : ∃ first rest, Lays e first rest := by
  induction chained with
  | signed signed =>
    obtain ⟨first, rest, lays, _⟩ := signed.lays
    exact ⟨first, rest, lays⟩
  | tighter _ _ inductionHypothesis => exact inductionHypothesis
  | left _ operates _ _ _ leftHypothesis rightHypothesis
  | right _ operates _ _ _ leftHypothesis rightHypothesis =>
    obtain ⟨first, rest, left⟩ := leftHypothesis
    obtain ⟨first', rest', right⟩ := rightHypothesis
    exact ⟨first, _, left.binary operates right⟩

end

end Expr

end Abacus
