import Abacus.Proofs.Parse.Separation
import Abacus.Proofs.Parse.Shape

/-!
# Grouping keeps the items of a line

Read in written order, the expression that a line is grouped into gives the items of the
line again: each once and in their order.  This holds for any tiers, and whether or not
gaps were filled with void operands.
-/

namespace Abacus

namespace Parse

open Fallible

/-- Whether an item is the void operand that fills a gap. -/
def Item.isGap : Item → Bool
  | .operand e => e.isVoid
  | _ => false

/-- Whether an item is an operand of a line, or a symbol in a role in which the grammar registers
    it. -/
def Item.Registered (g : Grammar) : Item → Prop
  | .operand e => e.isOperand ∧ e.isVoid = false
  | .symbol _ _ => False
  | .operator role => g.Operates role.row role.member
  | .before role => role.member.side = .before ∧ g.Modifies role.row role.member
  | .after role => role.member.side = .after ∧ g.Modifies role.row role.member

end Parse

namespace Expr

/-- The items of an expression in written order, without the operands that fill gaps. -/
def written (g : Grammar) (e : Expr) : List Parse.Item := (e.items g).filter fun i => !i.isGap

variable {g : Grammar} {row : Nat}

theorem written_operand {e : Expr} (operand : e.isOperand) (filled : e.isVoid = false) :
    e.written g = [.operand e] := by
  simp [written, items_operand g operand, Parse.Item.isGap, filled]

theorem written_binary {o : Operator} (operates : g.Operates row o) (l r : Expr) :
    (Expr.binary o l r).written g = l.written g ++ .operator ⟨row, o⟩ :: r.written g := by
  simp [written, items_binary operates, Parse.Item.isGap]

theorem written_before {m : Modifier} (modifies : g.Modifies row m) (side : m.side = .before)
    (e : Expr) : (Expr.unary m e).written g = .before ⟨row, m⟩ :: e.written g := by
  simp [written, items_before modifies side, Parse.Item.isGap]

theorem written_after {m : Modifier} (modifies : g.Modifies row m) (side : m.side = .after)
    (e : Expr) : (Expr.unary m e).written g = e.written g ++ [.after ⟨row, m⟩] := by
  simp [written, items_after modifies side, Parse.Item.isGap]

end Expr

namespace Parse

open Fallible

variable {g : Grammar} {row : Nat} {parts : List Part} {e : Expr}

/-! ## Parts -/

namespace Part

def written (g : Grammar) : Part → List Item
  | .item i => [i]
  | .grouped e => e.written g

def Registered (g : Grammar) : Part → Prop
  | .item i => i.Registered g
  | .grouped _ => True

theorem eq_of_operator? {p : Part} {o : Operator} (found : p.operator? row = some o) :
    p = .item (.operator ⟨row, o⟩) := by
  unfold operator? at found
  split at found
  · rename_i role
    rw [Option.ite_none_right_eq_some, Option.some.injEq] at found
    obtain ⟨rfl, rfl⟩ := found
    rfl
  · cases found

theorem eq_of_before? {p : Part} {m : Modifier} (found : p.modifier? row .before = some m) :
    p = .item (.before ⟨row, m⟩) := by
  unfold modifier? at found
  split at found
  · rename_i role
    rw [Option.ite_none_right_eq_some, Option.some.injEq] at found
    obtain ⟨⟨_, rfl⟩, rfl⟩ := found
    rfl
  · simp at found
  · cases found

theorem eq_of_after? {p : Part} {m : Modifier} (found : p.modifier? row .after = some m) :
    p = .item (.after ⟨row, m⟩) := by
  unfold modifier? at found
  split at found
  · simp at found
  · rename_i role
    rw [Option.ite_none_right_eq_some, Option.some.injEq] at found
    obtain ⟨⟨_, rfl⟩, rfl⟩ := found
    rfl
  · cases found

end Part

def writtenParts (g : Grammar) (parts : List Part) : List Item := parts.flatMap (Part.written g)

@[simp] theorem writtenParts_cons (p : Part) (parts : List Part) :
    writtenParts g (p :: parts) = p.written g ++ writtenParts g parts := rfl

@[simp] theorem writtenParts_append (left right : List Part) :
    writtenParts g (left ++ right) = writtenParts g left ++ writtenParts g right :=
  List.flatMap_append

theorem writtenParts_items (items : List Item) : writtenParts g (items.map .item) = items := by
  induction items with
  | nil => rfl
  | cons i items inductionHypothesis =>
    rw [List.map_cons, writtenParts_cons, inductionHypothesis]
    rfl

/-! ## One operand -/

theorem written_of_single (registered : ∀ p ∈ parts, p.Registered g)
    (groups : single parts = .ok e) : e.written g = writtenParts g parts := by
  unfold single at groups
  split at groups
  · cases groups
    rfl
  · cases groups
    exact (List.append_nil _).symm
  · cases groups
    obtain ⟨operand, filled⟩ := registered _ List.mem_cons_self
    rw [Expr.written_operand operand filled]
    rfl
  · cases groups

/-! ## Operators -/

theorem writtenParts_cutAt (row : Nat) (parts : List Part) :
    writtenParts g parts = writtenParts g (cutAt row parts).1 ++
      (cutAt row parts).2.flatMap fun entry =>
        .operator ⟨row, entry.1⟩ :: writtenParts g entry.2 := by
  induction parts with
  | nil => rfl
  | cons p parts inductionHypothesis =>
    rw [cutAt_cons, writtenParts_cons, inductionHypothesis]
    cases operator : p.operator? row with
    | none => rw [writtenParts_cons, List.append_assoc]
    | some o =>
      rw [Part.eq_of_operator? operator]
      rfl

theorem operator_mem_of_cutAt (row : Nat) (parts : List Part) :
    ∀ entry ∈ (cutAt row parts).2, .item (.operator ⟨row, entry.1⟩) ∈ parts := by
  induction parts with
  | nil => exact List.forall_mem_nil _
  | cons p parts inductionHypothesis =>
    rw [cutAt_cons]
    cases operator : p.operator? row with
    | none => exact fun entry among => List.mem_cons_of_mem p (inductionHypothesis entry among)
    | some o =>
      refine List.forall_mem_cons.2 ⟨?_, fun entry among =>
        List.mem_cons_of_mem p (inductionHypothesis entry among)⟩
      exact Part.eq_of_operator? operator ▸ List.mem_cons_self

theorem written_segments {tiers : List Tier} {tighter : Nat} {entries : List (Operator × List Part)}
    {rest : List (Operator × Expr)} (operates : ∀ entry ∈ entries, g.Operates row entry.1)
    (inside : ∀ entry ∈ entries, ∀ e, groupTiers tiers tighter entry.2 = .ok e →
      e.written g = writtenParts g entry.2)
    (groups : entries.mapM (groupSegment tiers tighter) = .ok rest) :
    (∀ entry ∈ rest, g.Operates row entry.1) ∧
      (rest.flatMap fun entry => .operator ⟨row, entry.1⟩ :: entry.2.written g) =
        entries.flatMap fun entry => .operator ⟨row, entry.1⟩ :: writtenParts g entry.2 := by
  induction entries generalizing rest with
  | nil =>
    cases groups
    exact ⟨List.forall_mem_nil _, rfl⟩
  | cons entry entries inductionHypothesis =>
    rw [List.forall_mem_cons] at operates inside
    obtain ⟨_, others, next, groupsOthers, rfl⟩ := mapM_eq_ok_cons.1 groups
    obtain ⟨e, groupsNext, ends⟩ := bind_eq_ok.1 next
    cases ends
    obtain ⟨operatesOthers, same⟩ := inductionHypothesis operates.2 inside.2 groupsOthers
    refine ⟨List.forall_mem_cons.2 ⟨operates.1, operatesOthers⟩, ?_⟩
    rw [List.flatMap_cons, List.flatMap_cons, same, inside.1 e groupsNext]

theorem written_fold {a : Associativity} {first : Expr} {rest : List (Operator × Expr)}
    (operates : ∀ entry ∈ rest, g.Operates row entry.1) :
    (fold a first rest).written g = first.written g ++
      rest.flatMap fun entry => .operator ⟨row, entry.1⟩ :: entry.2.written g := by
  induction rest generalizing first with
  | nil => cases a <;> exact (List.append_nil _).symm
  | cons entry rest inductionHypothesis =>
    rw [List.forall_mem_cons] at operates
    cases a with
    | left =>
      change (fold .left (.binary entry.1 first entry.2) rest).written g = _
      rw [inductionHypothesis operates.2, Expr.written_binary operates.1]
      simp
    | right =>
      change (Expr.binary entry.1 first (fold .right entry.2 rest)).written g = _
      rw [Expr.written_binary operates.1, inductionHypothesis operates.2]
      simp

/-! ## Modifiers -/

/-- Whether some registered parts stand for given items. -/
def StandFor (g : Grammar) (parts : List Part) (items : List Item) : Prop :=
  writtenParts g parts = items ∧ ∀ p ∈ parts, p.Registered g

theorem StandFor.append {left right : List Part} {items more : List Item}
    (first : StandFor g left items) (second : StandFor g right more) :
    StandFor g (left ++ right) (items ++ more) :=
  ⟨by rw [writtenParts_append, first.1, second.1],
    List.forall_mem_append.2 ⟨first.2, second.2⟩⟩

theorem StandFor.of_append {left right : List Part} {items : List Item}
    (stand : StandFor g (left ++ right) items) :
    ∃ front back, items = front ++ back ∧ StandFor g left front ∧ StandFor g right back := by
  obtain ⟨rfl, registered⟩ := stand
  rw [List.forall_mem_append] at registered
  exact ⟨_, _, writtenParts_append _ _, ⟨rfl, registered.1⟩, ⟨rfl, registered.2⟩⟩

theorem StandFor.cons {p : Part} {items : List Item} (registered : p.Registered g)
    (stand : StandFor g parts items) : StandFor g (p :: parts) (p.written g ++ items) :=
  ⟨by rw [writtenParts_cons, stand.1], List.forall_mem_cons.2 ⟨registered, stand.2⟩⟩

theorem StandFor.grouped {items : List Item} (written : e.written g = items) :
    StandFor g [.grouped e] items :=
  ⟨(List.append_nil _).trans written, List.forall_mem_singleton.2 True.intro⟩

section

variable {inner : List Part → Except ParseError Expr}
  (inside : ∀ {parts items e}, StandFor g parts items → inner parts = .ok e → e.written g = items)

include inside

theorem standFor_groupBefore {items : List Item} {result : List Part}
    (stand : StandFor g parts items) (groups : groupBefore inner row parts = .ok result) :
    StandFor g result items := by
  induction parts generalizing items result with
  | nil =>
    cases groups
    exact stand
  | cons p rest inductionHypothesis =>
    obtain ⟨rfl, registered⟩ := stand
    rw [List.forall_mem_cons] at registered
    obtain ⟨behind, groupsRest, groups⟩ := bind_eq_ok.1 groups
    have standRest := inductionHypothesis ⟨rfl, registered.2⟩ groupsRest
    cases modifier : p.modifier? row .before with
    | none =>
      rw [modifier] at groups
      cases groups
      exact .cons registered.1 standRest
    | some m =>
      rw [modifier] at groups
      obtain ⟨modified, modifies, ends⟩ := bind_eq_ok.1 groups
      obtain ⟨e, groupsOperand, rfl⟩ := modify_eq_ok modifies
      cases ends
      rw [Part.eq_of_before? modifier] at registered ⊢
      obtain ⟨side, known⟩ : m.side = .before ∧ g.Modifies row m := registered.1
      rw [Part.taken_append_untaken row .before behind] at standRest
      obtain ⟨taken, untaken, same, standTaken, standUntaken⟩ := standRest.of_append
      have written : (Expr.unary m e).written g = .before ⟨row, m⟩ :: taken := by
        rw [Expr.written_before known side, inside standTaken groupsOperand]
      rw [writtenParts_cons, same]
      exact (StandFor.grouped written).append standUntaken

theorem standFor_groupAfter {left result : List Part} {items : List Item}
    (standLeft : StandFor g left.reverse items) (registered : ∀ p ∈ parts, p.Registered g)
    (groups : groupAfter inner row left parts = .ok result) :
    StandFor g result (items ++ writtenParts g parts) := by
  induction parts generalizing left items with
  | nil =>
    cases groups
    rw [writtenParts, List.flatMap_nil, List.append_nil]
    exact standLeft
  | cons p rest inductionHypothesis =>
    rw [List.forall_mem_cons] at registered
    rw [groupAfter] at groups
    rw [writtenParts_cons, ← List.append_assoc]
    cases modifier : p.modifier? row .after with
    | none =>
      rw [modifier] at groups
      refine inductionHypothesis ?_ registered.2 groups
      rw [List.reverse_cons]
      exact standLeft.append ⟨List.append_nil _, List.forall_mem_singleton.2 registered.1⟩
    | some m =>
      rw [modifier] at groups
      obtain ⟨modified, modifies, groups⟩ := bind_eq_ok.1 groups
      obtain ⟨e, groupsOperand, rfl⟩ := modify_eq_ok modifies
      refine inductionHypothesis ?_ registered.2 groups
      rw [Part.eq_of_after? modifier] at registered ⊢
      obtain ⟨side, known⟩ : m.side = .after ∧ g.Modifies row m := registered.1
      rw [Part.taken_append_untaken row .after left, List.reverse_append] at standLeft
      obtain ⟨untaken, taken, rfl, standUntaken, standTaken⟩ := standLeft.of_append
      rw [List.reverse_cons, List.append_assoc]
      refine standUntaken.append (.grouped ?_)
      rw [Expr.written_after known side, inside standTaken groupsOperand]
      rfl

end

/-! ## Tiers -/

/-- What registered parts are grouped into stands for the items of the parts. -/
theorem written_of_groupTiers {tiers : List Tier} {items : List Item}
    (stand : StandFor g parts items) (groups : groupTiers tiers row parts = .ok e) :
    e.written g = items := by
  induction tiers generalizing row parts items e with
  | nil =>
    obtain ⟨rfl, registered⟩ := stand
    exact written_of_single registered groups
  | cons tier tighter inductionHypothesis =>
    cases tier with
    | operators a members =>
      obtain ⟨rfl, registered⟩ := stand
      obtain ⟨first, rest, groupsFirst, groupsRest, rfl⟩ := groupTiers_operators.1 groups
      obtain ⟨⟨inside, _⟩, others⟩ := cutAt_segments row parts
      obtain ⟨operates, same⟩ := written_segments
        (fun entry among => registered _ (operator_mem_of_cutAt row parts entry among))
        (fun entry among e => inductionHypothesis
          ⟨rfl, fun p member => registered p ((others entry among).1.subset member)⟩) groupsRest
      rw [written_fold operates, same, writtenParts_cutAt row parts]
      congr 1
      exact inductionHypothesis ⟨rfl, fun p member => registered p (inside.subset member)⟩ groupsFirst
    | modifiers side entries =>
      obtain ⟨result, applied, groups⟩ : ∃ result, applyModifiers (groupTiers tighter (row + 1)) row
          side parts = .ok result ∧ groupTiers tighter (row + 1) result = .ok e := by
        cases side <;> exact bind_eq_ok.1 groups
      refine inductionHypothesis ?_ groups
      cases side with
      | before => exact standFor_groupBefore inductionHypothesis stand applied
      | after =>
        obtain ⟨rfl, registered⟩ := stand
        have passed : StandFor g ([] : List Part).reverse [] := ⟨rfl, List.forall_mem_nil _⟩
        exact standFor_groupAfter inductionHypothesis passed registered applied

end Parse

end Abacus
