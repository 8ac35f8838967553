import Abacus.Proofs.Expr.Parts
import Abacus.Proofs.Parse.Creation
import Abacus.Proofs.Parse.Spelling

/-!
# Accounting for what a parse creates

A parse tries texts as operands in several places and creates variables while it does so.  No trial
leaves anything behind: at every moment each variable that has been created stands in an operand
that is kept, and grouping keeps all operands.
-/

namespace Abacus.Parse

open Fallible

/-! ## What is kept of a line -/

def brought (e : Option Expr) : List Expr := e.toList.flatMap Expr.subexpressions

def Item.brought : Item → List Expr
  | .operand e => e.subexpressions
  | .symbol _ _ | .operator _ | .before _ | .after _ => []

abbrev broughtAll (items : List Item) : List Expr := items.flatMap Item.brought

theorem broughtAll_flatten (items : List (List Item)) :
    broughtAll items.flatten = items.flatMap broughtAll := by
  rw [broughtAll, List.flatten_eq_flatMap, List.flatMap_assoc]
  rfl

theorem subexpressions_of_mem_items {g : Grammar} {x : Expr} : ∀ {e : Expr},
    .operand x ∈ e.items g → x.subexpressions ⊆ e.subexpressions
  | .binary o l r, member => by
    rw [Expr.items, List.mem_append, List.mem_cons] at member
    rcases member with left | impossible | right
    · exact List.Subset.trans (subexpressions_of_mem_items left)
        (List.subset_cons_of_subset _ (List.subset_append_left _ _))
    · cases impossible
    · exact List.Subset.trans (subexpressions_of_mem_items right)
        (List.subset_cons_of_subset _ (List.subset_append_right _ _))
  | .unary m e, member => by
    have inside : .operand x ∈ e.items g := by
      rw [Expr.items] at member
      cases side : m.side <;> simpa [side] using member
    exact List.Subset.trans (subexpressions_of_mem_items inside) (List.subset_cons_self _ _)
  | .literal _, member | .cell _, member | .call _ _, member | .parens _, member
  | .branches _ _, member => by
    cases List.mem_singleton.1 member
    exact fun _ => id

/-- No operand of a line is lost when its items are committed. -/
theorem Commits.keeps {g : Grammar} {leading : Option Expr} {items committed : List Item}
    (commits : Commits g leading items committed) {e : Expr} (member : .operand e ∈ items) :
    .operand e ∈ committed := by
  obtain ⟨decided, plays, rfl⟩ := commits
  have decides : .operand e ∈ decided := by
    induction plays with
    | nil => cases member
    | cons first _ inductionHypothesis =>
      rcases List.mem_cons.1 member with rfl | member
      · cases first
        exact List.mem_cons_self
      · exact List.mem_cons_of_mem _ (inductionHypothesis member)
  have spliced : .operand e ∈ withDefaults (.operator g.default) decided := by
    clear plays
    induction decided with
    | nil => cases decides
    | cons first rest inductionHypothesis =>
      rw [withDefaults]
      rcases List.mem_cons.1 decides with rfl | later
      · split <;> exact List.mem_cons_self
      · split
        · exact List.mem_cons_of_mem _ (List.mem_cons_of_mem _ (inductionHypothesis later))
        · exact List.mem_cons_of_mem _ (inductionHypothesis later)
  generalize withDefaults (.operator g.default) decided = items' at spliced ⊢
  unfold continued
  split
  · exact List.mem_cons_of_mem _ spliced
  · exact spliced

theorem brought_of_groups {p : Grammar.Plan} {g : Grammar} (accepted : p.toGrammar = .ok g)
    {items committed : List Item} {leading : Option Expr} (found : ∀ i ∈ items, i.Found g)
    (commits : Commits g leading items committed)
    (continues : ∀ e, leading = some e → e.isOperand ∧ e.isVoid = false) {e : Expr}
    (groups : groupTiers g.tiers 0 (committed.map .item) = .ok e) :
    broughtAll items ⊆ e.subexpressions := by
  have written := commits.written accepted found continues groups
  intro x inside
  obtain ⟨i, member, inside⟩ := List.mem_flatMap.1 inside
  cases i with
  | operand y =>
    have kept : .operand y ∈ e.written g := written ▸ commits.keeps member
    exact subexpressions_of_mem_items (List.mem_filter.1 kept).1 inside
  | symbol _ _ | operator _ | before _ | after _ => cases inside

/-! ## Accounting for what is created -/

/-- Variables that have been created so far, if `kept` are the expressions that have been read and
    kept: each of them is among these, and their numbers are in the order in which they came. -/
structure Scope.Recorded (scope : Scope) (kept : List Expr) (created : Table String Cell) :
    Prop where
  mentioned : ∀ name c, created.get? name = some c → .cell c ∈ kept
  numbered : created.values.map Cell.id = List.range' scope.fresh created.size

theorem Scope.Recorded.mono {scope : Scope} {kept more : List Expr} {created : Table String Cell}
    (recorded : scope.Recorded kept created) (subset : kept ⊆ more) :
    scope.Recorded more created where
  mentioned name c found := subset (recorded.mentioned name c found)
  numbered := recorded.numbered

theorem Scope.Recorded.id_lt {scope : Scope} {kept : List Expr} {created : Table String Cell}
    (recorded : scope.Recorded kept created) {name : String} {c : Cell}
    (found : created.get? name = some c) : c.id < scope.fresh + created.size := by
  have member : c.id ∈ created.values.map Cell.id :=
    List.mem_map_of_mem (List.mem_map_of_mem (f := Prod.snd) (Table.mem_entries found))
  rw [recorded.numbered] at member
  exact (List.mem_range'_1.1 member).2

/-- Whether a parse that is handed the expressions `before` has a result that satisfies `P` and
    keeps them, with all that it mentions in addition, as the expressions `after`.  Whatever
    `others` are kept elsewhere makes no difference. -/
def Parsing.Accounts {α : Type} (scope : Scope) (before : List Expr) (after : α → List Expr)
    (P : α → Prop) (m : Parsing α) : Prop :=
  ∀ others created a created', scope.Recorded (before ++ others) created →
    m.run created = .ok (a, created') → P a ∧ scope.Recorded (after a ++ others) created'

namespace Parsing

variable {α β γ : Type} {scope : Scope} {before : List Expr} {after : α → List Expr} {P : α → Prop}
  {later : β → List Expr} {Q : β → Prop}

theorem Accounts.result {a : α} (keeps : before ⊆ after a) (good : P a) :
    Accounts scope before after P (pure a) := by
  intro others created b created' recorded ends
  cases ends
  exact ⟨good, recorded.mono (List.append_subset.2
    ⟨List.Subset.trans keeps (List.subset_append_left _ _), List.subset_append_right _ _⟩)⟩

theorem Accounts.failure (cause : ParseError) :
    Accounts scope before after P (throw cause) :=
  fun _ _ _ _ _ impossible => by cases impossible

theorem Accounts.bind {m : Parsing α} {f : α → Parsing β} (first : Accounts scope before after P m)
    (second : ∀ a, P a → Accounts scope (after a) later Q (f a)) :
    Accounts scope before later Q (m >>= f) := by
  intro others created b created' recorded ends
  obtain ⟨a, between, left, right⟩ := run_bind_eq_ok.1 ends
  obtain ⟨good, recorded⟩ := first others created a between recorded left
  exact second a good others between b created' recorded right

theorem Accounts.ofExcept {x : Except ParseError α} :
    Accounts scope before (fun _ => before) (fun a => x = .ok a) (liftM x) := by
  intro others created a created' recorded ends
  cases x with
  | error cause => cases ends
  | ok b =>
    cases ends
    exact ⟨rfl, recorded⟩

theorem Accounts.mapM {handed : γ → List Expr} {f : γ → Parsing β} {cs : List γ}
    (each : ∀ c ∈ cs, Accounts scope (handed c) later Q (f c)) :
    Accounts scope (cs.flatMap handed) (fun bs => bs.flatMap later) (fun bs => ∀ b ∈ bs, Q b)
      (cs.mapM f) := by
  induction cs with
  | nil => exact .result (List.nil_subset _) (List.forall_mem_nil _)
  | cons c cs inductionHypothesis =>
    rw [List.forall_mem_cons] at each
    intro others created results created' recorded ends
    rw [List.mapM_cons] at ends
    obtain ⟨b, between, first, ends⟩ := run_bind_eq_ok.1 ends
    obtain ⟨bs, final, rest, ends⟩ := run_bind_eq_ok.1 ends
    cases ends
    rw [List.flatMap_cons, List.append_assoc] at recorded
    obtain ⟨good, recorded⟩ := each.1 _ created b between recorded first
    -- For the rest of the list, what the first one keeps is kept elsewhere.
    obtain ⟨allGood, recorded⟩ := inductionHypothesis each.2 (later b ++ others) between bs created'
      (recorded.mono fun x => by simp only [List.mem_append]; tauto) rest
    refine ⟨List.forall_mem_cons.2 ⟨good, allGood⟩, recorded.mono fun x => ?_⟩
    simp only [List.flatMap_cons, List.mem_append]
    tauto

theorem Accounts.handed {less : List Expr} {m : Parsing α}
    (accounts : Accounts scope before after P m) (subset : less ⊆ before) :
    Accounts scope less after P m :=
  fun others created a created' recorded => accounts others created a created'
    (recorded.mono fun x => by
      rw [List.mem_append, List.mem_append]
      exact Or.imp_left fun member => subset member)

end Parsing

open Parsing

theorem cell_accounts (scope : Scope) (name : String) :
    Accounts scope [] (fun c => [.cell c]) (fun _ => True) (scope.cell name) := by
  intro others created c created' recorded ends
  refine ⟨True.intro, ?_⟩
  rcases cell_cases ends with ⟨_, rfl⟩ | ⟨found, same, rfl⟩
  · exact recorded.mono (List.subset_append_right _ _)
  · -- A new variable comes last and has the next number.
    have entries := Table.entries_insert (Scope.lookup_eq_none.1 found).2 c
    have size : (created.insert name c).size = created.size + 1 := by
      rw [Table.size, entries, List.length_append]
      rfl
    refine ⟨Table.forall_insert (fun name d known => ?_) List.mem_cons_self, ?_⟩
    · exact List.mem_cons_of_mem _ (recorded.mentioned name d known)
    · rw [size, List.range'_1_concat, ← recorded.numbered, Table.values, entries, List.map_append,
        List.map_append, same]
      rfl

/-! ## Operands -/

def Filling (e : Option Expr) : Prop := ∀ x ∈ e, x.isOperand ∧ x.isVoid = false

section

variable {scope : Scope} {nested : NestedParser}
  (inside : ∀ text, Accounts scope [] brought (fun _ => True) (nested text))

include inside

theorem call?_accounts (text : List Char) :
    Accounts scope [] brought Filling (call? scope nested text) := by
  have nothing : Accounts scope [] brought Filling (pure none) :=
    .result (List.nil_subset _) (fun _ impossible => by cases impossible)
  unfold call?
  dsimp only
  split
  · exact nothing
  · split
    · exact nothing
    · split
      · exact nothing
      · rename_i inner _ _ _ function _
        have argument (text : List Char) : Accounts scope [] Expr.subexpressions (fun _ => True)
            (do return (← nested text).getD .void) := by
          refine .bind (inside text) fun e _ => .result ?_ True.intro
          cases e with
          | none => exact List.nil_subset _
          | some e => simp [brought]
        refine .bind (Accounts.handed (.mapM fun text (_ : text ∈ argumentTexts inner) =>
          argument text) (List.nil_subset _)) fun es _ => .result (fun x member => ?_) ?_
        · obtain ⟨e, among, inside⟩ := List.mem_flatMap.1 member
          simp only [brought, Option.toList_some, List.flatMap_singleton, Expr.subexpressions]
          exact List.mem_cons_of_mem _ (Expr.mem_subexpressionsAll.2 ⟨e, among, inside⟩)
        · exact fun x same => Option.some.inj same ▸ ⟨rfl, rfl⟩

theorem operand?_accounts (text : List Char) :
    Accounts scope [] brought Filling (operand? scope nested text) := by
  unfold operand?
  split
  · exact .result (List.nil_subset _) fun x same => Option.some.inj same ▸ ⟨rfl, rfl⟩
  · split
    · refine .bind (inside _) fun e _ => .result ?_ fun x same => Option.some.inj same ▸ ⟨rfl, rfl⟩
      cases e with
      | none => exact List.nil_subset _
      | some e => simp [brought, Expr.subexpressions]
    · split
      · refine .bind (cell_accounts scope _) fun c _ => .result ?_ fun x same =>
          Option.some.inj same ▸ ⟨rfl, rfl⟩
        simp [brought, Expr.subexpressions]
      · exact call?_accounts inside text

/-! ## Lines -/

theorem fragmentItem_accounts (fragment : List Char) :
    Accounts scope [] Item.brought (Item.Found scope.grammar)
      (fragmentItem scope nested fragment) := by
  refine .bind (operand?_accounts inside fragment) fun e filling => ?_
  cases e with
  | none => exact .failure _
  | some e => exact .result (by simp [brought, Item.brought]) (filling e rfl)

theorem segmentItems_accounts (cuts : Cuts) (segment : List Char) :
    Accounts scope [] broughtAll (fun items => ∀ i ∈ items, i.Found scope.grammar)
      (segmentItems scope cuts nested segment) := by
  unfold segmentItems
  split
  · rename_i roles known
    exact .result (List.nil_subset _) (List.forall_mem_singleton.2 known)
  · refine .bind (operand?_accounts inside segment) fun e filling => ?_
    cases e with
    | some e =>
      exact .result (by simp [brought, Item.brought]) (List.forall_mem_singleton.2 (filling e rfl))
    | none =>
      exact Accounts.handed (.mapM fun fragment _ => fragmentItem_accounts inside fragment)
        (List.nil_subset _)

theorem tokenItems_accounts (cuts : Cuts) {token : List Char × Option Expr}
    (filling : Filling token.2) :
    Accounts scope (brought token.2) broughtAll (fun items => ∀ i ∈ items, i.Found scope.grammar)
      (tokenItems scope cuts nested token) := by
  obtain ⟨text, e⟩ := token
  cases e with
  | some e =>
    exact .result (by simp [brought, Item.brought]) (List.forall_mem_singleton.2 (filling e rfl))
  | none =>
    refine .bind (Accounts.handed (.mapM fun segment _ => segmentItems_accounts inside cuts segment)
      (List.nil_subset _)) fun items found => .result ?_ ?_
    · rw [broughtAll_flatten]
      exact List.Subset.refl _
    · exact fun i member => by
        obtain ⟨some, among, member⟩ := List.mem_flatten.1 member
        exact found some among i member

theorem parseWith_accounts {p : Grammar.Plan} (accepted : p.toGrammar = .ok scope.grammar)
    (cuts : Cuts) (wholeLine : Bool) (text : List Char) :
    Accounts scope [] brought (fun _ => True) (parseWith scope cuts nested wholeLine text) := by
  have tried (token : List Char) : Accounts scope [] (fun entry => brought entry.2)
      (fun entry => Filling entry.2) (do return (token, ← operand? scope nested token)) :=
    .bind (operand?_accounts inside token) fun e filling => .result (List.Subset.refl _) filling
  refine .bind (Accounts.handed (.mapM fun token _ => tried token) (List.nil_subset _))
    fun entries filling => ?_
  split
  · exact .result (List.nil_subset _) True.intro
  · exact .result (by simp) True.intro
  · refine .bind (.mapM fun entry member => tokenItems_accounts inside cuts (filling entry member))
      fun items found => ?_
    have found (i : Item) (member : i ∈ items.flatten) : i.Found scope.grammar := by
      obtain ⟨some, among, member⟩ := List.mem_flatten.1 member
      exact found some among i member
    refine .bind .ofExcept fun l decides => .bind .ofExcept fun e groups =>
      .result ?_ True.intro
    rw [← broughtAll_flatten]
    have commits := commits_of_decide found decides (scope.leadingOf wholeLine text)
    simp only [brought, Option.toList_some, List.flatMap_singleton]
    refine brought_of_groups accepted found commits (fun x continues => ?_) groups
    obtain ⟨c, _, rfl⟩ := leadingOf_eq_some continues
    exact ⟨rfl, rfl⟩

omit inside in
theorem parseToDepth_accounts {p : Grammar.Plan} (accepted : p.toGrammar = .ok scope.grammar)
    (cuts : Cuts) (depth : Nat) (wholeLine : Bool) (text : List Char) :
    Accounts scope [] brought (fun _ => True) (parseToDepth scope cuts depth wholeLine text) := by
  induction depth generalizing wholeLine text with
  | zero => exact .result (List.nil_subset _) True.intro
  | succ depth inductionHypothesis =>
    exact parseWith_accounts (inductionHypothesis false) accepted cuts wholeLine text

omit inside in
theorem recorded_of_parse {p : Grammar.Plan} (accepted : p.toGrammar = .ok scope.grammar)
    {line : String} {parsed : Parsed} (parses : parse scope line = .ok parsed) :
    scope.Recorded (brought parsed.expr) parsed.created := by
  obtain ⟨_, cuts, _, reads⟩ := parse_eq_ok.1 parses
  obtain ⟨_, recorded⟩ := parseToDepth_accounts accepted cuts _ true line.toList [] ∅ _ _
    ⟨nofun, rfl⟩ reads
  rwa [List.append_nil] at recorded

end

end Abacus.Parse
