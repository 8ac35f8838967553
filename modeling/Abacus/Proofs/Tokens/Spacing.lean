import Abacus.Proofs.Tokens.Turns

/-!
# Cutting loses no text

A tokenizer without delimiters only drops white space: a text consists of its tokens in
order, with nothing but white space before, between and behind them.  One that does not trim drops
nothing at all.
-/

namespace Abacus

namespace Text

/-- A text that consists of pieces in order with nothing but white space around them. -/
inductive Spaced : List Char → List (List Char) → Prop where
  | blank {text : List Char} : allBlank text → Spaced text []
  | piece {space piece rest : List Char} {pieces : List (List Char)} :
      allBlank space → Spaced rest pieces → Spaced (space ++ (piece ++ rest)) (piece :: pieces)

theorem allBlank_append {text rest : List Char} :
    allBlank (text ++ rest) ↔ allBlank text ∧ allBlank rest := by
  simp [allBlank]

namespace Spaced

variable {text rest space : List Char} {pieces more : List (List Char)}

theorem prepend (blank : allBlank space) (spaced : Spaced text pieces) :
    Spaced (space ++ text) pieces := by
  cases spaced with
  | blank blank' => exact .blank (allBlank_append.2 ⟨blank, blank'⟩)
  | piece blank' spaced =>
    rw [← List.append_assoc]
    exact .piece (allBlank_append.2 ⟨blank, blank'⟩) spaced

theorem append (first : Spaced text pieces) (second : Spaced rest more) :
    Spaced (text ++ rest) (pieces ++ more) := by
  induction first with
  | blank blank => exact second.prepend blank
  | piece blank _ inductionHypothesis =>
    rw [List.append_assoc, List.append_assoc]
    exact .piece blank inductionHypothesis

theorem single (text : List Char) : Spaced text [text] := by
  have blank : allBlank [] := rfl
  have whole : Spaced ([] ++ (text ++ [])) [text] := .piece blank (.blank blank)
  simpa using whole

theorem drop_nil (spaced : Spaced text ([] :: pieces)) : Spaced text pieces := by
  cases spaced with
  | piece blank spaced => exact spaced.prepend blank

theorem trim (text : List Char) : Spaced text [trim text] := by
  have front : allBlank (text.takeWhile isBlank) := List.all_takeWhile
  have back : allBlank ((trimStart text).reverse.takeWhile isBlank).reverse := by
    rw [allBlank, List.all_reverse]
    exact List.all_takeWhile
  have whole : text = text.takeWhile isBlank ++
      (Text.trim text ++ ((trimStart text).reverse.takeWhile isBlank).reverse) := by
    rw [Text.trim, trimEnd, ← List.reverse_append, List.takeWhile_append_dropWhile,
      List.reverse_reverse, trimStart, List.takeWhile_append_dropWhile]
  have spaced : Spaced _ [Text.trim text] := .piece front (.blank back)
  rwa [← whole] at spaced

theorem sublist (spaced : Spaced text pieces) : ∀ piece ∈ pieces, piece.Sublist text := by
  induction spaced with
  | blank _ => exact List.forall_mem_nil _
  | piece _ _ inductionHypothesis =>
    refine List.forall_mem_cons.2 ⟨?_, fun piece member => ?_⟩
    · exact (List.sublist_append_left _ _).trans (List.sublist_append_right _ _)
    · exact (inductionHypothesis piece member).trans
        ((List.sublist_append_right _ _).trans (List.sublist_append_right _ _))

theorem filter (spaced : Spaced text pieces) :
    pieces.flatten.filter (!isBlank ·) = text.filter (!isBlank ·) := by
  have nothing {space : List Char} (blank : allBlank space) : space.filter (!isBlank ·) = [] :=
    List.filter_eq_nil_iff.2 fun c member => by simp [allBlank_iff.1 blank c member]
  induction spaced with
  | blank blank => exact (nothing blank).symm
  | piece blank _ inductionHypothesis =>
    rw [List.flatten_cons, List.filter_append, inductionHypothesis, List.filter_append,
      List.filter_append, nothing blank, List.nil_append]

end Spaced

end Text

namespace Tokenizer

open Text

variable {c : Config}

theorem spaced_emitted (c : Config) (text : List Char) : Spaced text (c.emitted text) := by
  have trimmed : Spaced text [if c.trims then trim text else text] := by
    split
    · exact .trim text
    · exact .single text
  unfold Config.emitted
  generalize (if c.trims then trim text else text) = kept at trimmed
  dsimp only
  split
  · rename_i empty
    rw [Bool.and_eq_true, List.isEmpty_iff] at empty
    rw [empty.1] at trimmed
    exact trimmed.drop_nil
  · exact trimmed

theorem flatten_emitted (exact : c.trims = false) (text : List Char) :
    (c.emitted text).flatten = text := by
  rw [Config.emitted, exact, if_neg Bool.false_ne_true]
  split
  · rename_i empty
    rw [Bool.and_eq_true, List.isEmpty_iff] at empty
    exact empty.1.symm
  · exact List.append_nil text

theorem effect_ne_drop (keeps : c.delimiters = []) (k : Context) (x : Step) :
    (c.turn k x).1 ≠ .drop := by
  cases x with
  | plain x =>
    rw [Config.turn]
    split <;> simp
  | symbol found =>
    have kept : (c.membership found).delimiter = false := by simp [Config.membership, keeps]
    have cut : (c.membership found).effect ≠ .drop := by
      rw [Membership.effect, kept]
      split
      · simp
      · split
        · contradiction
        split
        · simp
        split <;> simp
    rw [Config.turn, Membership.turn]
    split
    · simp
    split
    · simp
    split
    · split <;> simp
    · split <;> simp
    · split
      · exact cut
      · simp

theorem turns_keep (keeps : c.delimiters = []) (k : Context) (steps : List Step) :
    ∀ turn ∈ c.turns k steps, turn.2 ≠ .drop := by
  induction steps generalizing k with
  | nil => exact List.forall_mem_nil _
  | cons x steps inductionHypothesis =>
    exact List.forall_mem_cons.2 ⟨effect_ne_drop keeps k x, inductionHypothesis _⟩

section

variable (t : Tokenizer) (keeps : t.config.delimiters = [])

include keeps

theorem tokens_induction {R : List Char → List (List Char) → Prop}
    (append : ∀ {text rest : List Char} {tokens more : List (List Char)}, R text tokens →
      R rest more → R (text ++ rest) (tokens ++ more))
    (emitted : ∀ text, R text (t.config.emitted text)) (single : ∀ text, R text [text])
    (text : List Char) : R text (t.tokens text) := by
  have whole := assemble_induction append emitted single
    (turns_keep keeps (.start t.config) (t.steps text)) []
  rwa [map_fst_turns, texts_steps, ← tokens_eq_assemble] at whole

/-- A text consists of its tokens with white space around them. -/
theorem spaced_tokens (text : List Char) : Spaced text (t.tokens text) :=
  t.tokens_induction keeps .append (spaced_emitted t.config) .single text

theorem flatten_tokens (exact : t.config.trims = false) (text : List Char) :
    (t.tokens text).flatten = text :=
  t.tokens_induction keeps (R := fun text tokens => tokens.flatten = text)
    (fun first second => by rw [List.flatten_append, first, second]) (flatten_emitted exact)
    List.append_nil text

end

/-! ## Main result -/

theorem toList_join_tokenize (t : Tokenizer) (text : String) :
    (String.join (t.tokenize text)).toList = (t.tokens text.toList).flatten := by
  simp [tokenize, List.flatMap_map]

/-- The tokens of a text are the text up to white space, and exactly the text if nothing is
    trimmed, whatever is open at its end and whatever sets a symbol belongs to. -/
theorem join_tokenize (c : Config) (paired : c.openBrackets.length = c.closeBrackets.length)
    (keeps : c.delimiters = []) : ∃ t, ofConfig c = .ok t ∧ ∀ text : String,
      (String.join (t.tokenize text)).toList.filter (!isBlank ·) =
        text.toList.filter (!isBlank ·) ∧
      (c.trims = false → String.join (t.tokenize text) = text) := by
  refine ⟨{ config := c, paired }, dif_pos paired, fun text => ⟨?_, fun exact => ?_⟩⟩
  · rw [toList_join_tokenize]
    exact (spaced_tokens _ keeps text.toList).filter
  · rw [← String.toList_inj, toList_join_tokenize]
    exact flatten_tokens _ keeps exact text.toList

theorem join_tokenize_unbalanced :
    let c : Config := {
      separators := ["+", "|"], openBrackets := ["(", "["], closeBrackets := [")", "("]
      quotes := ["|"], breaksBefore := ["["], breaksAfter := ["+", ")"], breaksOnBlank := true }
    c.openBrackets.length = c.closeBrackets.length ∧ c.delimiters = [] ∧ c.trims = false ∧
      ∃ t, ofConfig c = .ok t ∧
        (String.join (t.tokenize "a + b) [(c+ |d+ ]")).toList.filter (!isBlank ·) =
          "a+b)[(c+|d+]".toList ∧
        String.join (t.tokenize "a + b) [(c+ |d+ ]") = "a + b) [(c+ |d+ ]" := by
  intro c
  obtain ⟨t, made, whole⟩ := join_tokenize c rfl rfl
  obtain ⟨filtered, exact⟩ := whole "a + b) [(c+ |d+ ]"
  exact ⟨rfl, rfl, rfl, t, made, filtered.trans (by decide), exact rfl⟩

end Tokenizer

end Abacus
