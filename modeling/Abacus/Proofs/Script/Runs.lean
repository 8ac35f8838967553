import Abacus.Script
import Mathlib.Data.List.SplitBy

/-!
# Statements are runs of lines

The lines of a script fall into runs: every line of a run goes on in the next one, except for the
last.  A collector that is handed line after line gives one statement for each run that is not
blank, in the order of the runs, and holds nothing back when the input ends.
-/

namespace Abacus.Script

open Text

/-! ## Lines -/

/-- Whether a line goes on in the next one: its code ends in a backslash, white space apart. -/
def goesOn (line : List Char) : Bool := (trimEnd (code line)).getLast? = some '\\'

/-- What a line writes: its code, without the white space at its end and one backslash if it goes
    on. -/
def written (line : List Char) : List Char :=
  if goesOn line then (trimEnd (code line)).dropLast else code line

theorem contribution_eq (line : List Char) : contribution line = (written line, goesOn line) := by
  unfold contribution written goesOn dropLast?
  by_cases ends : (trimEnd (code line)).getLast? = some '\\' <;> simp [ends]

/-- Puts what a line writes behind the text so far, on a line of its own unless that is empty. -/
def put (text line : List Char) : List Char :=
  if text = [] then written line else text ++ '\n' :: written line

/-- The text of some lines. -/
def joined (lines : List (List Char)) : List Char := lines.foldl put []

theorem join_eq_put (text line : List Char) : join text (written line) = put text line := by
  cases text <;> rfl

theorem foldl_put_of_ne_nil {text : List Char} (filled : text ≠ []) (lines : List (List Char)) :
    lines.foldl put text = ['\n'].intercalate (text :: lines.map written) := by
  induction lines generalizing text with
  | nil => exact List.intercalate_singleton.symm
  | cons line lines inductionHypothesis =>
    have put_eq : put text line = text ++ '\n' :: written line := if_neg filled
    rw [List.foldl_cons, inductionHypothesis (by simp [put_eq]), put_eq]
    cases lines <;> simp [List.intercalate]

/-- Nothing but line feeds is added to what the lines write, one between two of them from the first
    on that is not empty. -/
theorem joined_eq_intercalate (lines : List (List Char)) :
    joined lines = ['\n'].intercalate ((lines.map written).dropWhile List.isEmpty) := by
  rw [joined]
  induction lines with
  | nil => rfl
  | cons line lines inductionHypothesis =>
    have first : put [] line = written line := if_pos rfl
    rw [List.foldl_cons, first, List.map_cons]
    by_cases empty : written line = []
    · rw [empty, inductionHypothesis, List.dropWhile_cons_of_pos rfl]
    · rw [foldl_put_of_ne_nil empty, List.dropWhile_cons_of_neg (by simpa using empty)]

theorem filter_joined (lines : List (List Char)) :
    (joined lines).filter (!isBlank ·) = (lines.flatMap written).filter (!isBlank ·) := by
  have whole (text : List Char) : (lines.foldl put text).filter (!isBlank ·) =
      text.filter (!isBlank ·) ++ (lines.flatMap written).filter (!isBlank ·) := by
    induction lines generalizing text with
    | nil => simp
    | cons line lines inductionHypothesis =>
      have added : (put text line).filter (!isBlank ·) =
          text.filter (!isBlank ·) ++ (written line).filter (!isBlank ·) := by
        have feed : isBlank '\n' = true := rfl
        unfold put
        split <;> simp [*]
      rw [List.foldl_cons, inductionHypothesis, added]
      simp
  exact whole []

/-! ## Runs -/

/-- The lines with their numbers, split into runs: all but the last line of a run go on, and the
    last one does not, unless it is the last line of all. -/
def runs (number : Nat) (lines : List (List Char)) : List (List (List Char × Nat)) :=
  (lines.zipIdx number).splitBy fun line _ => goesOn line.1

/-- The statement of a run, known by the number of its first line, unless its text is blank. -/
def statementOf? : List (List Char × Nat) → Option Statement
  | [] => none
  | (line, number) :: rest =>
    let text := joined (line :: rest.map Prod.fst)
    if allBlank text then none else some (number, text)

section

variable {front rest : List (List Char)} {last : List Char}

theorem isChain_of_goesOn {α : Type} (goes : α → Bool) {front : List α}
    (going : ∀ x ∈ front, goes x = true) (last : α) :
    (front ++ [last]).IsChain fun x _ => goes x = true := by
  induction front with
  | nil => exact .singleton last
  | cons x front inductionHypothesis =>
    rw [List.forall_mem_cons] at going
    exact List.isChain_cons.2 ⟨fun _ _ => going.1, inductionHypothesis going.2⟩

theorem goesOn_of_mem_zipIdx (going : ∀ line ∈ front, goesOn line = true) (number : Nat) :
    ∀ line ∈ front.zipIdx number, goesOn line.1 = true :=
  fun _ member => going _ (List.fst_mem_of_mem_zipIdx member)

theorem runs_append (going : ∀ line ∈ front, goesOn line = true) (ends : goesOn last = false)
    (number : Nat) : runs number (front ++ last :: rest) =
      (front ++ [last]).zipIdx number :: runs (number + front.length + 1) rest := by
  have first : (front ++ [last]).zipIdx number =
      front.zipIdx number ++ [(last, number + front.length)] := by
    rw [List.zipIdx_append]
    rfl
  have whole : (front ++ last :: rest).zipIdx number =
      ((front ++ [last]).zipIdx number :: runs (number + front.length + 1) rest).flatten := by
    rw [runs, List.flatten_cons, List.flatten_splitBy, first, List.zipIdx_append, List.zipIdx_cons]
    simp
  rw [runs, whole]
  refine List.splitBy_flatten ?_ (List.forall_mem_cons.2 ⟨?_, fun run member => ?_⟩)
    (List.isChain_cons.2 ⟨fun next isNext => ?_,
      List.isChain_getLast_head_splitBy (fun (line : List Char × Nat) _ => goesOn line.1) _⟩)
  · simp [first, runs]
  · rw [first]
    exact isChain_of_goesOn (fun line : List Char × Nat => goesOn line.1)
      (goesOn_of_mem_zipIdx going number) _
  · exact List.isChain_of_mem_splitBy member
  · have filled : next ≠ [] := List.ne_nil_of_mem_splitBy (List.mem_of_mem_head? isNext)
    exact ⟨by simp [first], filled, by simp [first, ends]⟩

theorem runs_of_goesOn (going : ∀ line ∈ front, goesOn line = true)
    (filled : front ≠ []) (number : Nat) : runs number front = [front.zipIdx number] := by
  refine List.splitBy_of_isChain (by simpa using filled) ?_
  have all := goesOn_of_mem_zipIdx going number
  generalize front.zipIdx number = numbered at all
  exact (List.isChain_append.1 (isChain_of_goesOn _ all ([], 0))).1

end

/-! ## What a collector gives -/

namespace Collector

variable (c : Collector) (number : Nat)

theorem take_of_goesOn {line : List Char} (goes : goesOn line = true) :
    c.take number line = (none, ⟨some ((c.waiting.getD (number, [])).1,
      put (c.waiting.getD (number, [])).2 line)⟩) := by
  simp [take, contribution_eq, goes, join_eq_put]

theorem take_of_ends {line : List Char} (ends : goesOn line = false) :
    c.take number line = (completed (c.waiting.getD (number, [])).1
      (put (c.waiting.getD (number, [])).2 line), ⟨none⟩) := by
  simp [take, contribution_eq, ends, join_eq_put]

theorem takeAll_cons (line : List Char) (lines : List (List Char)) :
    c.takeAll number (line :: lines) =
      let next := (c.take number line).2.takeAll (number + 1) lines
      ((c.take number line).1.toList ++ next.1, next.2) := rfl

theorem takeAll_append (first second : List (List Char)) :
    c.takeAll number (first ++ second) =
      let next := (c.takeAll number first).2.takeAll (number + first.length) second
      ((c.takeAll number first).1 ++ next.1, next.2) := by
  induction first generalizing c number with
  | nil => rfl
  | cons line first inductionHypothesis =>
    have length : number + (line :: first).length = number + 1 + first.length := by
      rw [List.length_cons]
      omega
    rw [List.cons_append, takeAll_cons, takeAll_cons, inductionHypothesis, length]
    simp

theorem takeAll_of_goesOn {lines : List (List Char)} (going : ∀ line ∈ lines, goesOn line = true) :
    c.takeAll number lines = ([], if lines = [] then c else
      ⟨some ((c.waiting.getD (number, [])).1, lines.foldl put (c.waiting.getD (number, [])).2)⟩) := by
  induction lines generalizing c number with
  | nil => rfl
  | cons line lines inductionHypothesis =>
    rw [List.forall_mem_cons] at going
    rw [takeAll_cons, take_of_goesOn c number going.1, inductionHypothesis _ _ going.2]
    cases lines <;> rfl

/-- A run is given when its last line comes. -/
theorem takeAll_run {front : List (List Char)} {last : List Char}
    (going : ∀ line ∈ front, goesOn line = true) (ends : goesOn last = false) :
    ({} : Collector).takeAll number (front ++ [last]) =
      ((completed number (joined (front ++ [last]))).toList, {}) := by
  rw [takeAll_append, takeAll_of_goesOn _ _ going]
  cases front with
  | nil => simp [takeAll, take_of_ends _ _ ends, joined]
  | cons line front => simp [takeAll, take_of_ends _ _ ends, joined]

end Collector

def statementsFrom (number : Nat) (lines : List (List Char)) : List Statement :=
  let (statements, c) := ({} : Collector).takeAll number lines
  statements ++ c.flush.1.toList

theorem statementOf?_zipIdx {lines : List (List Char)} (filled : lines ≠ []) (number : Nat) :
    statementOf? (lines.zipIdx number) = completed number (joined lines) := by
  cases lines with
  | nil => exact absurd rfl filled
  | cons line lines => simp [statementOf?, completed]

theorem statementsFrom_eq (number : Nat) (lines : List (List Char)) :
    statementsFrom number lines = (runs number lines).filterMap statementOf? := by
  have whole := List.takeWhile_append_dropWhile (p := goesOn) (l := lines)
  have going : ∀ line ∈ lines.takeWhile goesOn, goesOn line = true := List.all_eq_true.1 List.all_takeWhile
  cases others : lines.dropWhile goesOn with
  | nil =>
    rw [others, List.append_nil] at whole
    rw [whole] at going
    rw [statementsFrom, Collector.takeAll_of_goesOn _ _ going]
    by_cases empty : lines = []
    · subst empty
      rfl
    · rw [runs_of_goesOn going empty, if_neg empty, List.filterMap_cons, statementOf?_zipIdx empty]
      change (completed number (joined lines)).toList = _
      cases completed number (joined lines) <;> rfl
  | cons last rest =>
    have ends : goesOn last = false := by
      have first := List.head?_dropWhile_not goesOn lines
      rw [others] at first
      simpa using first
    generalize lines.takeWhile goesOn = front at whole going
    rw [others] at whole
    have inductionHypothesis := statementsFrom_eq (number + front.length + 1) rest
    rw [← whole, runs_append going ends, List.filterMap_cons, ← inductionHypothesis, List.append_cons,
      statementOf?_zipIdx (by simp), statementsFrom, Collector.takeAll_append,
      Collector.takeAll_run _ going ends]
    cases completed number (joined (front ++ [last])) <;> simp [statementsFrom, Nat.add_assoc]
termination_by lines.length
decreasing_by
  rw [← whole, others, List.length_append, List.length_cons]
  omega

/-! ## Main result -/

theorem sublist_numbers (runs : List (List (List Char × Nat))) :
    ((runs.filterMap statementOf?).map Prod.fst).Sublist (runs.flatten.map Prod.snd) := by
  induction runs with
  | nil => exact .slnil
  | cons run runs inductionHypothesis =>
    rw [List.filterMap_cons, List.flatten_cons, List.map_append]
    cases run with
    | nil => exact inductionHypothesis
    | cons first rest =>
      have further := inductionHypothesis.trans
        (List.sublist_append_right (rest.map Prod.snd) (runs.flatten.map Prod.snd))
      cases blank : allBlank (joined (first.1 :: rest.map Prod.fst)) with
      | true => simpa [statementOf?, blank] using further.cons first.2
      | false => simpa [statementOf?, blank] using further.cons_cons first.2

theorem filter_statements (runs : List (List (List Char × Nat))) :
    ((runs.filterMap statementOf?).flatMap Prod.snd).filter (!isBlank ·) =
      ((runs.flatten.map Prod.fst).flatMap written).filter (!isBlank ·) := by
  induction runs with
  | nil => rfl
  | cons run runs inductionHypothesis =>
    have whole : ((statementOf? run).toList.flatMap Prod.snd).filter (!isBlank ·) =
        ((run.map Prod.fst).flatMap written).filter (!isBlank ·) := by
      cases run with
      | nil => rfl
      | cons first rest =>
        rw [List.map_cons, ← filter_joined]
        cases blank : allBlank (joined (first.1 :: rest.map Prod.fst)) with
        | true =>
          have nothing : (joined (first.1 :: rest.map Prod.fst)).filter (!isBlank ·) = [] :=
            List.filter_eq_nil_iff.2 fun c member => by simp [allBlank_iff.1 blank c member]
          simp [statementOf?, blank, nothing]
        | false => simp [statementOf?, blank]
    rw [List.flatten_cons, List.map_append, List.flatMap_append, List.filter_append,
      ← inductionHypothesis, ← whole, ← List.filter_append, ← List.flatMap_append]
    cases found : statementOf? run <;> simp [found]

/-- The statements of a script are its runs that are not blank, in their order and each with the
    number of its first line.  So their numbers increase; they consist of what the lines write, in
    order, with line feeds between; and lines that leave nothing waiting have the statements that
    they have alone, whatever is handed over behind them and however that is numbered. -/
theorem statements_are_runs (lines : List (List Char)) :
    statementsOfLines lines = (runs 1 lines).filterMap statementOf? ∧
    ((statementsOfLines lines).map Prod.fst).Pairwise (· < ·) ∧
    ((statementsOfLines lines).flatMap Prod.snd).filter (!isBlank ·) =
      (lines.flatMap written).filter (!isBlank ·) ∧
    (∀ run, joined run = ['\n'].intercalate ((run.map written).dropWhile List.isEmpty)) ∧
    ∀ number more, (({} : Collector).takeAll 1 lines).2.isWaiting = false →
      let first := ({} : Collector).takeAll 1 lines
      let second := first.2.takeAll number more
      first.1 ++ second.1 ++ second.2.flush.1.toList =
        statementsOfLines lines ++ statementsFrom number more := by
  have whole : statementsOfLines lines = (runs 1 lines).filterMap statementOf? :=
    statementsFrom_eq 1 lines
  have flatten : (runs 1 lines).flatten = lines.zipIdx 1 := List.flatten_splitBy ..
  refine ⟨whole, ?_, ?_, joined_eq_intercalate, fun number more rests => ?_⟩
  · have numbers := sublist_numbers (runs 1 lines)
    rw [← whole, flatten, List.zipIdx_map_snd] at numbers
    exact List.Pairwise.sublist numbers List.pairwise_lt_range'
  · have texts := filter_statements (runs 1 lines)
    rwa [← whole, flatten, List.zipIdx_map_fst] at texts
  · have nothing : (({} : Collector).takeAll 1 lines).2 = {} := by
      generalize (({} : Collector).takeAll 1 lines).2 = c at rests
      obtain ⟨waiting⟩ := c
      rw [Collector.mk.injEq]
      simpa [Collector.isWaiting] using rests
    simp [statementsOfLines, statementsFrom, nothing, Collector.flush]

theorem continued_script_stays_apart :
    let lines := ["\\ # a", "x = 1 \\ # one", "  + 2 # two \\", "# \\"].map String.toList
    let more := ["y \\", ""].map String.toList
    let first := ({} : Collector).takeAll 1 lines
    let second := first.2.takeAll 1 more
    first.2.isWaiting = false ∧
      first.1 ++ second.1 ++ second.2.flush.1.toList =
        [(1, "x = 1 \n  + 2 ".toList), (1, "y \n".toList)] := by
  intro lines more first second
  have rests : first.2.isWaiting = false := by decide
  have apart := (statements_are_runs lines).2.2.2.2 1 more rests
  exact ⟨rests, apart.trans (by decide)⟩

end Abacus.Script
