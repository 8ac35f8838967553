import Abacus.Proofs.Parse.Separation

/-!
# What grouping keeps

What holds of the operands of a line and of every expression that is made of such
ones holds of what the line is grouped into.
-/

namespace Abacus.Parse

open Fallible

/-- Whether the expression that a part stands for, if it stands for one, satisfies `P`. -/
def Part.Keeps (P : Expr → Prop) : Part → Prop
  | .grouped e | .item (.operand e) => P e
  | .item _ => True

section

variable {P : Expr → Prop} (void : P .void)
  (binary : ∀ o l r, P l → P r → P (.binary o l r)) (unary : ∀ m e, P e → P (.unary m e))

include void in
theorem single_keeps {parts : List Part} {e : Expr} (keeps : ∀ p ∈ parts, p.Keeps P)
    (groups : single parts = .ok e) : P e := by
  unfold single at groups
  split at groups
  · cases groups
    exact void
  · cases groups
    exact keeps _ List.mem_cons_self
  · cases groups
    exact keeps _ List.mem_cons_self
  · cases groups

include binary in
theorem fold_keeps {a : Associativity} {first : Expr} {rest : List (Operator × Expr)}
    (keeps : P first) (keepsRest : ∀ entry ∈ rest, P entry.2) : P (fold a first rest) := by
  cases a with
  | left =>
    change P (foldLeft first rest)
    induction rest generalizing first with
    | nil => exact keeps
    | cons entry rest inductionHypothesis =>
      rw [List.forall_mem_cons] at keepsRest
      exact inductionHypothesis (binary _ _ _ keeps keepsRest.1) keepsRest.2
  | right =>
    change P (foldRight first rest)
    induction rest generalizing first with
    | nil => exact keeps
    | cons entry rest inductionHypothesis =>
      rw [List.forall_mem_cons] at keepsRest
      exact binary _ _ _ keeps (inductionHypothesis keepsRest.1 keepsRest.2)

section

variable {inner : List Part → Except ParseError Expr}
  (keepsInner : ∀ parts e, (∀ p ∈ parts, p.Keeps P) → inner parts = .ok e → P e)

include unary keepsInner

theorem modify_keeps {m : Modifier} {parts : List Part} {p : Part} (keeps : ∀ q ∈ parts, q.Keeps P)
    (modifies : modify inner m parts = .ok p) : p.Keeps P := by
  obtain ⟨e, groups, rfl⟩ := modify_eq_ok modifies
  exact unary m e (keepsInner parts e keeps groups)

theorem groupBefore_keeps {row : Nat} {parts result : List Part}
    (keeps : ∀ p ∈ parts, p.Keeps P) (groups : groupBefore inner row parts = .ok result) :
    ∀ p ∈ result, p.Keeps P := by
  induction parts generalizing result with
  | nil =>
    cases groups
    exact keeps
  | cons p rest inductionHypothesis =>
    rw [List.forall_mem_cons] at keeps
    obtain ⟨after, groupsRest, groups⟩ := bind_eq_ok.1 groups
    have keepsAfter := inductionHypothesis keeps.2 groupsRest
    cases modifier : p.modifier? row .before with
    | none =>
      rw [modifier] at groups
      cases groups
      exact List.forall_mem_cons.2 ⟨keeps.1, keepsAfter⟩
    | some m =>
      rw [modifier] at groups
      obtain ⟨modified, modifies, ends⟩ := bind_eq_ok.1 groups
      cases ends
      refine List.forall_mem_cons.2 ⟨modify_keeps unary keepsInner (fun q member => ?_) modifies,
        fun q member => ?_⟩
      · exact keepsAfter q ((List.takeWhile_sublist _).subset member)
      · exact keepsAfter q ((List.dropWhile_sublist _).subset member)

theorem groupAfter_keeps {row : Nat} {left parts result : List Part}
    (keepsLeft : ∀ p ∈ left, p.Keeps P) (keeps : ∀ p ∈ parts, p.Keeps P)
    (groups : groupAfter inner row left parts = .ok result) : ∀ p ∈ result, p.Keeps P := by
  induction parts generalizing left with
  | nil =>
    cases groups
    exact fun p member => keepsLeft p (List.mem_reverse.1 member)
  | cons p rest inductionHypothesis =>
    rw [List.forall_mem_cons] at keeps
    rw [groupAfter] at groups
    cases modifier : p.modifier? row .after with
    | none =>
      rw [modifier] at groups
      exact inductionHypothesis (List.forall_mem_cons.2 ⟨keeps.1, keepsLeft⟩) keeps.2 groups
    | some m =>
      rw [modifier] at groups
      obtain ⟨modified, modifies, groups⟩ := bind_eq_ok.1 groups
      have keepsModified := modify_keeps unary keepsInner (fun q member =>
        keepsLeft q ((List.takeWhile_sublist _).subset (List.mem_reverse.1 member))) modifies
      refine inductionHypothesis (List.forall_mem_cons.2 ⟨keepsModified, fun q member => ?_⟩) keeps.2
        groups
      exact keepsLeft q ((List.dropWhile_sublist _).subset member)

end

include void binary unary

theorem groupTiers_keeps {tiers : List Tier} {row : Nat} {parts : List Part} {e : Expr}
    (keeps : ∀ p ∈ parts, p.Keeps P) (groups : groupTiers tiers row parts = .ok e) : P e := by
  induction tiers generalizing row parts e with
  | nil => exact single_keeps void keeps groups
  | cons tier tighter inductionHypothesis =>
    cases tier with
    | operators a members =>
      obtain ⟨first, rest, groupsFirst, more, rfl⟩ := groupTiers_operators.1 groups
      obtain ⟨⟨inside, _⟩, others⟩ := cutAt_segments row parts
      refine fold_keeps binary (inductionHypothesis
        (fun p member => keeps p (inside.subset member)) groupsFirst) ?_
      have segments : ∀ entry ∈ (cutAt row parts).2, ∀ p ∈ entry.2, p.Keeps P :=
        fun entry among p member => keeps p ((others entry among).1.subset member)
      generalize (cutAt row parts).2 = entries at more segments
      clear groups
      induction entries generalizing rest with
      | nil =>
        cases more
        exact fun _ member => by cases member
      | cons entry entries behind =>
        rw [List.forall_mem_cons] at segments
        obtain ⟨_, others, next, groupsOthers, rfl⟩ := mapM_eq_ok_cons.1 more
        obtain ⟨e, groupsNext, ends⟩ := bind_eq_ok.1 next
        cases ends
        exact List.forall_mem_cons.2 ⟨inductionHypothesis segments.1 groupsNext,
          behind _ groupsOthers segments.2⟩
    | modifiers side entries =>
      obtain ⟨result, applied, groups⟩ : ∃ result, applyModifiers (groupTiers tighter (row + 1)) row
          side parts = .ok result ∧ groupTiers tighter (row + 1) result = .ok e := by
        cases side <;> exact bind_eq_ok.1 groups
      refine inductionHypothesis ?_ groups
      cases side with
      | before =>
        exact groupBefore_keeps unary (fun _ _ => inductionHypothesis) keeps applied
      | after =>
        exact groupAfter_keeps unary (fun _ _ => inductionHypothesis) (List.forall_mem_nil _) keeps
          applied

end

end Abacus.Parse
