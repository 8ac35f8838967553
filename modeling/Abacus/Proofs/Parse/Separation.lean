import Abacus.Proofs.Grammar.Index
import Abacus.Proofs.Parse.Arena
import Abacus.Proofs.Parse.Grouping
import Mathlib.Data.List.Chain
import Mathlib.Data.List.Infix

/-!
# Operands are separated

After the roles of a line are decided, no item that ends an operand is directly
followed by one that starts an operand, and grouping keeps it so.  When every tier
is grouped at most one operand is left, so a line never fails for want of an
operator.
-/

namespace Abacus.Parse

open Fallible

/-! ## Items -/

namespace Item

/-- Whether an operand starts with this item. -/
def startsOperand : Item → Bool
  | .operand _ | .before _ => true
  | .symbol _ _ | .operator _ | .after _ => false

/-- Whether the second item may stand directly behind the first one. -/
def Apart (i j : Item) : Prop := ¬ (i.closesOperand ∧ j.startsOperand)

/-- What the items of a line may be: operands, and symbols of a grammar in one of their roles. -/
inductive Of (g : Grammar) : Item → Prop where
  | operand (e : Expr) : Of g (.operand e)
  | symbol {text : String} {roles : Roles} : g.roles? text = some roles → Of g (.symbol text roles)
  | operator {text : String} {roles : Roles} {role : Role Operator} :
      g.roles? text = some roles → roles.operator = some role → Of g (.operator role)
  | before {text : String} {roles : Roles} {role : Role Modifier} :
      g.roles? text = some roles → roles.before = some role → Of g (.before role)
  | after {text : String} {roles : Roles} {role : Role Modifier} :
      g.roles? text = some roles → roles.after = some role → Of g (.after role)

/-- Whether the role of an item is decided. -/
def isDecided : Item → Bool
  | .symbol _ _ => false
  | _ => true

end Item

/-! ## Deciding roles -/

theorem decideRole_eq_some {afterOperand next : Bool} {roles : Roles} {i : Item}
    (decides : decideRole afterOperand next roles = some i) :
    (∃ role, roles.operator = some role ∧ i = .operator role) ∨
    (∃ role, roles.before = some role ∧ i = .before role) ∨
    ∃ role, roles.after = some role ∧ i = .after role := by
  have operator : roles.operator.map Item.operator = some i →
      ∃ role, roles.operator = some role ∧ i = .operator role := fun found => by
    obtain ⟨role, present, rfl⟩ := Option.map_eq_some_iff.1 found
    exact ⟨role, present, rfl⟩
  have before : roles.before.map Item.before = some i →
      ∃ role, roles.before = some role ∧ i = .before role := fun found => by
    obtain ⟨role, present, rfl⟩ := Option.map_eq_some_iff.1 found
    exact ⟨role, present, rfl⟩
  have after : roles.after.map Item.after = some i →
      ∃ role, roles.after = some role ∧ i = .after role := fun found => by
    obtain ⟨role, present, rfl⟩ := Option.map_eq_some_iff.1 found
    exact ⟨role, present, rfl⟩
  unfold decideRole at decides
  dsimp only at decides
  split at decides
  · rcases Option.or_eq_some_iff.1 decides with found | ⟨_, found⟩
    · rcases Option.or_eq_some_iff.1 found with found | ⟨_, found⟩
      · exact .inr (.inr (after (Option.filter_eq_some_iff.1 found).1))
      · exact .inl (operator found)
    · exact .inr (.inl (before found))
  · rcases Option.or_eq_some_iff.1 decides with found | ⟨_, found⟩
    · rcases Option.or_eq_some_iff.1 found with found | ⟨_, found⟩
      · exact .inr (.inl (before found))
      · exact .inl (operator found)
    · exact .inr (.inr (after found))

theorem not_startsOperand_of_decideRole {next : Bool} {roles : Roles} {i : Item} {text : String}
    (decides : decideRole true next roles = some i)
    (closed : (Item.symbol text roles).opensOperand = false) : i.startsOperand = false := by
  obtain ⟨operator, before, after⟩ := roles
  cases operator with
  | some o => cases next <;> cases after <;> cases decides <;> rfl
  | none =>
    cases after with
    | some m => cases decides; rfl
    | none => cases before <;> [cases decides; cases closed]

theorem Item.Of.decide {g : Grammar} {afterOperand : Bool} {next : Option Item} {i j : Item}
    (of : i.Of g) (decides : decideItem afterOperand next i = .ok j) :
    j.Of g ∧ j.isDecided := by
  unfold decideItem at decides
  split at decides
  · rename_i text roles
    cases of with
    | symbol found =>
      split at decides
      · rename_i decided
        cases decides
        rcases decideRole_eq_some decided with ⟨_, role, rfl⟩ | ⟨_, role, rfl⟩ | ⟨_, role, rfl⟩
        · exact ⟨.operator found role, rfl⟩
        · exact ⟨.before found role, rfl⟩
        · exact ⟨.after found role, rfl⟩
      · cases decides
  · rename_i undecided
    cases decides
    refine ⟨of, ?_⟩
    cases i with
    | symbol text roles => exact absurd rfl (undecided text roles)
    | operand _ | operator _ | before _ | after _ => rfl

theorem not_startsOperand_of_decideItem {next : Option Item} {i j : Item}
    (decides : decideItem true next i = .ok j) (closed : i.opensOperand = false) :
    j.startsOperand = false := by
  unfold decideItem at decides
  split at decides
  · split at decides
    · rename_i decided
      cases decides
      exact not_startsOperand_of_decideRole decided closed
    · cases decides
  · cases decides
    cases i with
    | operand _ | before _ => cases closed
    | symbol _ _ | operator _ | after _ => rfl

theorem spliced_cons (default item : Item) (splices : Bool) (more : List (Item × Bool)) :
    Line.spliced default ((item, splices) :: more) =
      item :: ((if splices then [default] else []) ++ Line.spliced default more) := by
  cases splices <;> rfl

/-- Decided items are apart, and if an operand stands in front of a line that does not start one
    before it is decided, then it does not start one afterwards. -/
theorem apart_of_decideRoles (default : Role Operator) {afterOperand : Bool} {items : List Item}
    {decided : List (Item × Bool)} (ends : decideRoles afterOperand items = .ok decided) :
    (Line.spliced (.operator default) decided).IsChain Item.Apart ∧
      (afterOperand → items.head?.any Item.opensOperand = false →
        ∀ i ∈ (Line.spliced (.operator default) decided).head?, i.startsOperand = false) := by
  induction items generalizing afterOperand decided with
  | nil =>
    cases ends
    exact ⟨.nil, fun _ _ _ member => nomatch member⟩
  | cons item rest inductionHypothesis =>
    obtain ⟨first, splices, more, decides, rfl, decidesRest, rfl⟩ := decideRoles_cons_eq_ok ends
    obtain ⟨apart, behind⟩ := inductionHypothesis decidesRest
    rw [spliced_cons]
    refine ⟨?_, fun after closed i member => ?_⟩
    · cases splices : first.closesOperand && rest.head?.any Item.opensOperand with
      | true =>
        have splicedApart : (Item.operator default :: Line.spliced (.operator default) more).IsChain
            Item.Apart := List.isChain_cons.2 ⟨fun _ _ both => Bool.noConfusion both.1, apart⟩
        refine List.isChain_cons.2 ⟨fun j member both => ?_, splicedApart⟩
        cases member
        cases both.2
      | false =>
        refine List.isChain_cons.2 ⟨fun j member both => ?_, apart⟩
        rw [splices, both.1] at behind
        rw [both.1, Bool.true_and] at splices
        exact Bool.noConfusion ((behind rfl splices j member).symm.trans both.2)
    · cases member
      subst after
      exact not_startsOperand_of_decideItem decides closed

/-! ## Grouping -/

namespace Part

def closesOperand : Part → Bool
  | .item i => i.closesOperand
  | .grouped _ => true

def startsOperand : Part → Bool
  | .item i => i.startsOperand
  | .grouped _ => true

def Apart (p q : Part) : Prop := ¬ (p.closesOperand ∧ q.startsOperand)

theorem Apart.of_not_starts (p : Part) {q : Part} (starts : q.startsOperand = false) :
    p.Apart q := fun both => Bool.noConfusion (starts.symm.trans both.2)

theorem Apart.of_not_closes {p : Part} (q : Part) (closes : p.closesOperand = false) :
    p.Apart q := fun both => Bool.noConfusion (closes.symm.trans both.1)

/-- Whether the role of a part is one of some tiers, which start at a given row. -/
def Fits (tiers : List Tier) (row : Nat) : Part → Prop
  | .item (.operator role) => row ≤ role.row ∧
    ∃ associativity members, tiers[role.row - row]? = some (.operators associativity members)
  | .item (.before role) => row ≤ role.row ∧
    ∃ entries, tiers[role.row - row]? = some (.modifiers .before entries)
  | .item (.after role) => row ≤ role.row ∧
    ∃ entries, tiers[role.row - row]? = some (.modifiers .after entries)
  | .item (.symbol _ _) => False
  | .item (.operand _) | .grouped _ => True

theorem getElem?_tighter {tier : Tier} {tiers : List Tier} {row other : Nat} (le : row ≤ other)
    (ne : other ≠ row) : (tier :: tiers)[other - row]? = tiers[other - (row + 1)]? := by
  obtain ⟨k, rfl⟩ : ∃ k, other = row + (k + 1) := ⟨other - row - 1, by omega⟩
  rw [show row + (k + 1) - row = k + 1 by omega, show row + (k + 1) - (row + 1) = k by omega,
    List.getElem?_cons_succ]

theorem fits_tighter {tier other : Tier} {tiers : List Tier} {row roleRow : Nat}
    (le : row ≤ roleRow) (found : (tier :: tiers)[roleRow - row]? = some other)
    (passed : roleRow = row → tier ≠ other) :
    row + 1 ≤ roleRow ∧ tiers[roleRow - (row + 1)]? = some other := by
  have ne : roleRow ≠ row := fun same => by
    rw [same, Nat.sub_self] at found
    exact passed same (Option.some.inj found)
  rw [getElem?_tighter le ne] at found
  exact ⟨by omega, found⟩

theorem Fits.tighter {tier : Tier} {tiers : List Tier} {row : Nat} {p : Part}
    (fits : p.Fits (tier :: tiers) row)
    (passed : match tier with
      | .operators _ _ => p.operator? row = none
      | .modifiers side _ => p.modifier? row side = none) : p.Fits tiers (row + 1) := by
  cases p with
  | grouped e => exact True.intro
  | item i =>
    cases i with
    | operand e => exact True.intro
    | symbol text roles => exact fits
    | operator role =>
      obtain ⟨le, associativity, members, found⟩ := fits
      obtain ⟨le, found⟩ := fits_tighter le found fun same tierEq => by
        subst tierEq
        simp [Part.operator?, same] at passed
      exact ⟨le, associativity, members, found⟩
    | before role =>
      obtain ⟨le, entries, found⟩ := fits
      obtain ⟨le, found⟩ := fits_tighter le found fun same tierEq => by
        subst tierEq
        simp [Part.modifier?, same] at passed
      exact ⟨le, entries, found⟩
    | after role =>
      obtain ⟨le, entries, found⟩ := fits
      obtain ⟨le, found⟩ := fits_tighter le found fun same tierEq => by
        subst tierEq
        simp [Part.modifier?, same] at passed
      exact ⟨le, entries, found⟩

theorem not_startsOperand_of_ends {p : Part} {row : Nat} (ends : p.ends row .before) :
    p.startsOperand = false := by
  cases p with
  | grouped e => cases ends
  | item i =>
    cases i with
    | operand _ | symbol _ _ | before _ => cases ends
    | operator _ | after _ => rfl

theorem not_closesOperand_of_ends {p : Part} {row : Nat} (ends : p.ends row .after) :
    p.closesOperand = false := by
  cases p with
  | grouped e => cases ends
  | item i =>
    cases i with
    | operand _ | symbol _ _ | after _ => cases ends
    | operator _ | before _ => rfl

theorem startsOperand_of_modifier? {p : Part} {row : Nat} {m : Modifier}
    (found : p.modifier? row .before = some m) : p.startsOperand := by
  cases p with
  | grouped e => rfl
  | item i =>
    cases i with
    | operand _ | before _ => rfl
    | symbol _ _ | operator _ => cases found
    | after role => simp [Part.modifier?] at found

theorem closesOperand_of_modifier? {p : Part} {row : Nat} {m : Modifier}
    (found : p.modifier? row .after = some m) : p.closesOperand := by
  cases p with
  | grouped e => rfl
  | item i =>
    cases i with
    | operand _ | after _ => rfl
    | symbol _ _ | operator _ => cases found
    | before role => simp [Part.modifier?] at found

theorem taken_append_untaken (row : Nat) (side : Side) (parts : List Part) :
    parts = (parts.takeWhile fun q => !q.ends row side) ++
      parts.dropWhile fun q => !q.ends row side :=
  List.takeWhile_append_dropWhile.symm

theorem ends_of_dropWhile {parts : List Part} {row : Nat} {side : Side} {q : Part}
    (member : q ∈ (parts.dropWhile fun q => !q.ends row side).head?) : q.ends row side := by
  have stops := List.head?_dropWhile_not (fun q => !q.ends row side) parts
  rw [Option.mem_def.1 member] at stops
  simpa using stops

end Part

/-- Whether a result is only refused because a modifier has no operand. -/
def OnlyMissing {α : Type} (result : Except ParseError α) : Prop :=
  ∀ cause, result = .error cause → ∃ symbol, cause = .operandExpected symbol

theorem OnlyMissing.bind {α β : Type} {x : Except ParseError α} {f : α → Except ParseError β}
    (first : OnlyMissing x) (second : ∀ a, x = .ok a → OnlyMissing (f a)) :
    OnlyMissing (x >>= f) := by
  intro cause failed
  rcases bind_eq_error.1 failed with failed | ⟨a, ok, failed⟩
  · exact first cause failed
  · exact second a ok cause failed

theorem OnlyMissing.ok {α : Type} (a : α) : OnlyMissing (.ok a) :=
  fun _ impossible => nomatch impossible

/-- What parts satisfy that tiers from some row on can group. -/
def Groupable (tiers : List Tier) (row : Nat) (parts : List Part) : Prop :=
  parts.IsChain Part.Apart ∧ ∀ p ∈ parts, p.Fits tiers row

theorem Groupable.of_append {tiers : List Tier} {row : Nat} {left right : List Part}
    (groupable : Groupable tiers row (left ++ right)) :
    Groupable tiers row left ∧ Groupable tiers row right :=
  ⟨⟨groupable.1.left_of_append, fun p member => groupable.2 p (List.mem_append_left _ member)⟩,
    groupable.1.right_of_append, fun p member => groupable.2 p (List.mem_append_right _ member)⟩

theorem Groupable.tail {tiers : List Tier} {row : Nat} {p : Part} {parts : List Part}
    (groupable : Groupable tiers row (p :: parts)) : Groupable tiers row parts :=
  ⟨groupable.1.tail, fun q member => groupable.2 q (List.mem_cons_of_mem p member)⟩

theorem Groupable.segment {tiers : List Tier} {row : Nat} {parts segment : List Part}
    (groupable : Groupable tiers row parts) (inside : segment <:+: parts) :
    Groupable tiers row segment := by
  obtain ⟨before, after, rfl⟩ := inside
  exact groupable.of_append.1.of_append.2

/-! ### Operators -/

theorem cutAt_cons (row : Nat) (p : Part) (rest : List Part) :
    cutAt row (p :: rest) = match p.operator? row with
      | some o => ([], (o, (cutAt row rest).1) :: (cutAt row rest).2)
      | none => (p :: (cutAt row rest).1, (cutAt row rest).2) := rfl

theorem cutAt_segments (row : Nat) (parts : List Part) :
    ((cutAt row parts).1 <+: parts ∧ ∀ p ∈ (cutAt row parts).1, p.operator? row = none) ∧
    ∀ entry ∈ (cutAt row parts).2,
      entry.2 <:+: parts ∧ ∀ p ∈ entry.2, p.operator? row = none := by
  induction parts with
  | nil => exact ⟨⟨⟨[], rfl⟩, fun _ member => nomatch member⟩, fun _ member => nomatch member⟩
  | cons p rest inductionHypothesis =>
    obtain ⟨⟨first, plain⟩, others⟩ := inductionHypothesis
    have shifted (entry : Operator × List Part) (member : entry ∈ (cutAt row rest).2) :
        entry.2 <:+: p :: rest ∧ ∀ q ∈ entry.2, q.operator? row = none :=
      ⟨(others entry member).1.trans (List.suffix_cons p rest).isInfix, (others entry member).2⟩
    rw [cutAt_cons]
    cases operator : p.operator? row with
    | none =>
      refine ⟨⟨List.prefix_cons_inj p |>.2 first, ?_⟩, shifted⟩
      exact List.forall_mem_cons.2 ⟨operator, plain⟩
    | some o =>
      refine ⟨⟨⟨p :: rest, rfl⟩, fun _ member => nomatch member⟩, ?_⟩
      refine List.forall_mem_cons.2 ⟨⟨?_, plain⟩, shifted⟩
      exact first.isInfix.trans (List.suffix_cons p rest).isInfix

/-! ### Modifiers -/

section

variable {tiers : List Tier} {row : Nat} {entries : List (String × Modifier.Action)}
  {inner : List Part → Except ParseError Expr}
  (groups : ∀ parts, Groupable tiers (row + 1) parts → OnlyMissing (inner parts))

include groups in
theorem onlyMissing_modify (m : Modifier) {operand : List Part}
    (groupable : Groupable tiers (row + 1) operand) : OnlyMissing (modify inner m operand) := by
  intro cause failed
  unfold modify at failed
  split at failed
  · cases failed
    exact ⟨_, rfl⟩
  · cases result : inner operand with
    | ok e =>
      rw [result] at failed
      cases failed
    | error other =>
      rw [result] at failed
      cases failed
      exact groups operand groupable cause result

/-- A part stays apart from what follows it when the parts behind it are grouped, as long as
    the first of them starts an operand if it did before. -/
theorem groupable_cons {tier : Tier} {p : Part} {rest after : List Part}
    (groupable : Groupable (tier :: tiers) row (p :: rest)) (kept : p.Fits tiers (row + 1))
    (following : Groupable tiers (row + 1) after)
    (head : after.head?.map Part.startsOperand = rest.head?.map Part.startsOperand) :
    Groupable tiers (row + 1) (p :: after) := by
  refine ⟨List.isChain_cons.2 ⟨fun q member both => ?_, following.1⟩,
    List.forall_mem_cons.2 ⟨kept, following.2⟩⟩
  rw [Option.mem_def.1 member] at head
  obtain ⟨r, first, same⟩ := Option.map_eq_some_iff.1 head.symm
  exact (List.isChain_cons.1 groupable.1).1 r first ⟨both.1, same.trans both.2⟩

theorem groupable_untaken {e : Expr} {after : List Part}
    (following : Groupable tiers (row + 1) after) :
    Groupable tiers (row + 1) (.grouped e :: after.dropWhile fun q => !q.ends row .before) := by
  rw [Part.taken_append_untaken row .before after] at following
  have untaken := following.of_append.2
  refine ⟨List.isChain_cons.2 ⟨fun q member => ?_, untaken.1⟩,
    List.forall_mem_cons.2 ⟨True.intro, untaken.2⟩⟩
  exact .of_not_starts _ (Part.not_startsOperand_of_ends (Part.ends_of_dropWhile member))

include groups in
theorem groupBefore_groupable {parts : List Part}
    (groupable : Groupable (.modifiers .before entries :: tiers) row parts) :
    OnlyMissing (groupBefore inner row parts) ∧ ∀ result, groupBefore inner row parts = .ok result →
      Groupable tiers (row + 1) result ∧
      result.head?.map Part.startsOperand = parts.head?.map Part.startsOperand := by
  induction parts with
  | nil =>
    refine ⟨.ok _, fun result ends => ?_⟩
    cases ends
    exact ⟨⟨.nil, fun _ member => nomatch member⟩, rfl⟩
  | cons p rest inductionHypothesis =>
    obtain ⟨missing, grouped⟩ := inductionHypothesis groupable.tail
    have fits := groupable.2 p List.mem_cons_self
    rw [groupBefore]
    refine ⟨.bind missing fun after ends => ?_, fun result ends => ?_⟩
    · -- Only a modifier can fail here, for want of an operand in what it takes.
      cases p.modifier? row .before with
      | none => exact .ok _
      | some m =>
        have split := (grouped after ends).1
        rw [Part.taken_append_untaken row .before after] at split
        exact .bind (onlyMissing_modify groups m split.of_append.1) fun _ _ => .ok _
    · obtain ⟨after, endsRest, ends⟩ := bind_eq_ok.1 ends
      obtain ⟨following, head⟩ := grouped after endsRest
      cases modifier : p.modifier? row .before with
      | none =>
        rw [modifier] at ends
        cases ends
        exact ⟨groupable_cons groupable (fits.tighter modifier) following head, rfl⟩
      | some m =>
        rw [modifier] at ends
        obtain ⟨modified, modifies, ends⟩ := bind_eq_ok.1 ends
        obtain ⟨e, _, rfl⟩ := modify_eq_ok modifies
        cases ends
        refine ⟨groupable_untaken following, ?_⟩
        exact congrArg some (Part.startsOperand_of_modifier? modifier).symm

include groups in
/-- Grouping the modifiers behind operands keeps parts apart, from the left to the right; `left`
    holds the parts that are passed, nearest first. -/
theorem groupAfter_groupable {left parts : List Part}
    (apart : (left.reverse ++ parts).IsChain Part.Apart)
    (passed : ∀ p ∈ left, p.Fits tiers (row + 1))
    (fits : ∀ p ∈ parts, p.Fits (.modifiers .after entries :: tiers) row) :
    OnlyMissing (groupAfter inner row left parts) ∧
      ∀ result, groupAfter inner row left parts = .ok result →
        Groupable tiers (row + 1) result := by
  induction parts generalizing left with
  | nil =>
    refine ⟨.ok _, fun result ends => ?_⟩
    cases ends
    rw [List.append_nil] at apart
    exact ⟨apart, fun p member => passed p (List.mem_reverse.1 member)⟩
  | cons p rest inductionHypothesis =>
    rw [List.forall_mem_cons] at fits
    rw [groupAfter]
    cases modifier : p.modifier? row .after with
    | none =>
      refine inductionHypothesis ?_ (List.forall_mem_cons.2 ⟨fits.1.tighter modifier, passed⟩) fits.2
      rwa [List.reverse_cons, List.append_assoc]
    | some m =>
      have front : Groupable tiers (row + 1) left.reverse :=
        ⟨apart.left_of_append, fun q member => passed q (List.mem_reverse.1 member)⟩
      rw [Part.taken_append_untaken row .after left, List.reverse_append] at front
      obtain ⟨untaken, operand⟩ := front.of_append
      -- The modified operand stands where the parts that it took and the modifier stood.
      have replaced (e : Expr) : ((Part.grouped e :: left.dropWhile fun q =>
          !q.ends row .after).reverse ++ rest).IsChain Part.Apart := by
        have behind : (Part.grouped e :: rest).IsChain Part.Apart := by
          have chain := apart.right_of_append
          refine List.isChain_cons.2 ⟨fun q member both => ?_, chain.tail⟩
          exact (List.isChain_cons.1 chain).1 q member
            ⟨Part.closesOperand_of_modifier? modifier, both.2⟩
        rw [List.reverse_cons, List.append_assoc]
        refine untaken.1.append behind ?_
        intro q last r first
        rw [List.getLast?_reverse] at last
        exact .of_not_closes _ (Part.not_closesOperand_of_ends (Part.ends_of_dropWhile last))
      have continues (e : Expr) := inductionHypothesis (replaced e)
        (List.forall_mem_cons.2 ⟨True.intro, fun q member =>
          untaken.2 q (List.mem_reverse.2 member)⟩) fits.2
      refine ⟨.bind (onlyMissing_modify groups m operand) fun modified modifies => ?_,
        fun result ends => ?_⟩
      · obtain ⟨e, _, rfl⟩ := modify_eq_ok modifies
        exact (continues (.unary m e)).1
      · obtain ⟨modified, modifies, ends⟩ := bind_eq_ok.1 ends
        obtain ⟨e, _, rfl⟩ := modify_eq_ok modifies
        exact (continues (.unary m e)).2 result ends

end

/-! ### Tiers -/

theorem onlyMissing_single {row : Nat} {parts : List Part} (groupable : Groupable [] row parts) :
    OnlyMissing (single parts) := by
  have isOperand (p : Part) (fits : p.Fits [] row) : p.closesOperand ∧ p.startsOperand := by
    cases p with
    | grouped e => exact ⟨rfl, rfl⟩
    | item i =>
      cases i with
      | operand e => exact ⟨rfl, rfl⟩
      | symbol text roles => exact fits.elim
      | operator role =>
        obtain ⟨_, _, _, found⟩ := fits
        cases found
      | before role | after role =>
        obtain ⟨_, _, found⟩ := fits
        cases found
  obtain ⟨apart, fits⟩ := groupable
  match parts with
  | [] => exact .ok _
  | [p] =>
    have operand := isOperand p (fits p List.mem_cons_self)
    cases p with
    | grouped e => exact .ok _
    | item i =>
      cases i with
      | operand e => exact .ok _
      | symbol _ _ | operator _ | after _ => cases operand.2
      | before _ => cases operand.1
  | p :: q :: rest =>
    rw [List.forall_mem_cons, List.forall_mem_cons] at fits
    have both := And.intro (isOperand p fits.1).1 (isOperand q fits.2.1).2
    exact absurd both ((List.isChain_cons.1 apart).1 q rfl)

theorem onlyMissing_mapM {α β : Type} {f : α → Except ParseError β} {as : List α}
    (each : ∀ a ∈ as, OnlyMissing (f a)) : OnlyMissing (as.mapM f) := by
  induction as with
  | nil => exact .ok _
  | cons a rest inductionHypothesis =>
    rw [List.forall_mem_cons] at each
    rw [List.mapM_cons]
    exact .bind each.1 fun _ _ => .bind (inductionHypothesis each.2) fun _ _ => .ok _

/-- Grouping parts that are apart only fails because a modifier has no operand. -/
theorem onlyMissing_groupTiers {tiers : List Tier} {row : Nat} {parts : List Part}
    (groupable : Groupable tiers row parts) : OnlyMissing (groupTiers tiers row parts) := by
  induction tiers generalizing row parts with
  | nil => exact onlyMissing_single groupable
  | cons tier tighter inductionHypothesis =>
    cases tier with
    | operators associativity members =>
      obtain ⟨⟨first, plain⟩, others⟩ := cutAt_segments row parts
      have segment (parts' : List Part) (inside : parts' <:+: parts)
          (plain : ∀ p ∈ parts', p.operator? row = none) : Groupable tighter (row + 1) parts' :=
        ⟨(groupable.segment inside).1, fun p member =>
          (groupable.2 p (inside.subset member)).tighter (plain p member)⟩
      refine .bind (inductionHypothesis (segment _ first.isInfix plain)) fun _ _ => ?_
      refine .bind (onlyMissing_mapM fun entry member => ?_) fun _ _ => .ok _
      obtain ⟨inside, plain⟩ := others entry member
      exact .bind (inductionHypothesis (segment _ inside plain)) fun _ _ => .ok _
    | modifiers side entries =>
      cases side with
      | before =>
        obtain ⟨missing, grouped⟩ :=
          groupBefore_groupable (fun _ => inductionHypothesis) groupable
        exact .bind missing fun result ends => inductionHypothesis (grouped result ends).1
      | after =>
        have nothing (p : Part) (member : p ∈ ([] : List Part)) : p.Fits tighter (row + 1) :=
          nomatch member
        have whole : (([] : List Part).reverse ++ parts).IsChain Part.Apart := groupable.1
        obtain ⟨missing, grouped⟩ :=
          groupAfter_groupable (fun _ => inductionHypothesis) whole nothing groupable.2
        exact .bind missing fun result ends => inductionHypothesis (grouped result ends)

end Abacus.Parse
