import Abacus.Lexeme
import Abacus.Number.Text
import Abacus.Text.Blank
import Mathlib

/-!
# Words

Numbers and names start and end with a character that no symbol has, and what is
printed of a number that is read is such a word throughout.
-/

namespace Abacus

namespace Text

def isWordChar (c : Char) : Bool := c.isAlphanum || c = '_' || c = '.'

def isMark (c : Char) : Bool :=
  !isWordChar c && c ≠ '(' && c ≠ ')' && c ≠ ',' && !isBlank c

theorem isMark_iff {c : Char} : isMark c = true ↔
    isWordChar c = false ∧ c ≠ '(' ∧ c ≠ ')' ∧ c ≠ ',' ∧ isBlank c = false := by
  simp [isMark, and_assoc]

theorem isBlank_of_isWordChar {c : Char} (word : isWordChar c) : isBlank c = false := by
  have range : 46 ≤ c.toNat ∧ c.toNat ≤ 122 := by
    simp only [isWordChar, Char.isAlphanum, Char.isAlpha, Char.isUpper, Char.isLower, Char.isDigit,
      Bool.or_eq_true, Bool.and_eq_true, decide_eq_true_eq, UInt32.le_iff_toNat_le,
      ge_iff_le] at word
    rcases word with (((upper | lower) | digit) | rfl) | rfl
    · exact ⟨Nat.le_trans (by decide) upper.1, Nat.le_trans upper.2 (by decide)⟩
    · exact ⟨Nat.le_trans (by decide) lower.1, lower.2⟩
    · exact ⟨Nat.le_trans (by decide) digit.1, Nat.le_trans digit.2 (by decide)⟩
    · decide
    · decide
  simp only [isBlank, Bool.or_eq_false_iff, Bool.and_eq_false_iff, decide_eq_false_iff_not]
  omega

theorem ne_comma_of_isWordChar {c : Char} (word : isWordChar c) : c ≠ ',' := by
  rintro rfl
  cases word

end Text

namespace Lexeme

open Text

theorem isWordChar_of_isDigit {c : Char} (digit : c.isDigit) : isWordChar c := by
  simp [isWordChar, Char.isAlphanum, digit]

theorem isWordChar_of_startsName {c : Char} (starts : startsName c) : isWordChar c := by
  rcases Bool.or_eq_true _ _ ▸ starts with alpha | underscore
  · simp [isWordChar, Char.isAlphanum, alpha]
  · simp [isWordChar, underscore]

theorem not_isDigit_of_startsName {c : Char} (starts : startsName c) : c.isDigit = false := by
  simp only [startsName, Char.isAlpha, Char.isUpper, Char.isLower, Char.isDigit, Bool.or_eq_true,
    Bool.and_eq_true, Bool.and_eq_false_iff, decide_eq_true_eq, decide_eq_false_iff_not,
    UInt32.le_iff_toNat_le, ge_iff_le] at starts ⊢
  have nine : '9'.val.toNat = 57 := rfl
  have upper : 'A'.val.toNat = 65 := rfl
  have lower : 'a'.val.toNat = 97 := rfl
  rcases starts with (starts | starts) | rfl
  · omega
  · omega
  · decide

theorem isWordChar_of_isName {text : List Char} (name : isName text) :
    ∀ c ∈ text, isWordChar c := by
  cases text with
  | nil => cases name
  | cons c rest =>
    obtain ⟨starts, continues⟩ := Bool.and_eq_true _ _ ▸ name
    refine List.forall_mem_cons.2 ⟨isWordChar_of_startsName starts, fun d member => ?_⟩
    rcases Bool.or_eq_true _ _ ▸ List.all_eq_true.1 continues d member with starts | digit
    · exact isWordChar_of_startsName starts
    · exact isWordChar_of_isDigit digit

theorem isName_of_mark {text : List Char} {c : Char} (mark : isMark c) (member : c ∈ text) :
    isName text = false :=
  Bool.eq_false_iff.2 fun name => Bool.noConfusion
    ((isMark_iff.1 mark).1.symm.trans (isWordChar_of_isName name c member))

/-! ## Numbers that are read -/

theorem isDigits_iff {text : List Char} : isDigits text ↔ text ≠ [] ∧ ∀ c ∈ text, c.isDigit := by
  simp [isDigits]

/-- The texts of exponents, with the mark in front. -/
inductive Exponent : List Char → Prop where
  | nil : Exponent []
  | unsigned {mark : Char} {digits : List Char} : mark = 'e' ∨ mark = 'E' → isDigits digits →
      Exponent (mark :: digits)
  | signed {mark sign : Char} {digits : List Char} : mark = 'e' ∨ mark = 'E' →
      sign = '+' ∨ sign = '-' → isDigits digits → Exponent (mark :: sign :: digits)

theorem exponent_of_exponent? {text : List Char} {e : Int} (found : exponent? text = some e) :
    Exponent text := by
  have behind {mark : Char} (letter : mark = 'e' ∨ mark = 'E') {text : List Char}
      (found : signedExponent? text = some e) : Exponent (mark :: text) := by
    unfold signedExponent? at found
    split at found
    · exact .signed letter (.inr rfl) (Option.ite_none_right_eq_some.1 found).1
    · exact .signed letter (.inl rfl) (Option.ite_none_right_eq_some.1 found).1
    · exact .unsigned letter (Option.ite_none_right_eq_some.1 found).1
  unfold exponent? at found
  split at found
  · exact .nil
  · exact behind (.inl rfl) found
  · exact behind (.inr rfl) found
  · cases found

theorem isDigit_of_takeWhile {text : List Char} : ∀ c ∈ text.takeWhile Char.isDigit, c.isDigit :=
  List.all_eq_true.1 List.all_takeWhile

/-- A number consists of digits and points, and an exponent. -/
theorem exists_mantissa {text : List Char} {l : Lexeme} (found : number? text = some l) :
    ∃ mantissa rest, text = mantissa ++ rest ∧ mantissa ≠ [] ∧
      (∀ c ∈ mantissa, c.isDigit ∨ c = '.') ∧ Exponent rest := by
  have whole : text = text.takeWhile Char.isDigit ++ text.dropWhile Char.isDigit :=
    List.takeWhile_append_dropWhile.symm
  have digits {text : List Char} : ∀ c ∈ text.takeWhile Char.isDigit, c.isDigit ∨ c = '.' :=
    fun c member => .inl (isDigit_of_takeWhile c member)
  unfold number? at found
  dsimp only at found
  split at found
  · rename_i nothing
    split at found
    · cases found
    · rename_i filled
      exact ⟨_, [], by rwa [nothing] at whole, by simpa using filled, digits, .nil⟩
  · rename_i rest behind
    split at found
    · cases found
    · obtain ⟨e, exponent, _⟩ := Option.map_eq_some_iff.1 found
      refine ⟨text.takeWhile Char.isDigit ++ '.' :: rest.takeWhile Char.isDigit, _, ?_,
        by simp, ?_, exponent_of_exponent? exponent⟩
      · rw [List.append_assoc, List.cons_append, List.takeWhile_append_dropWhile, ← behind,
          ← whole]
      · exact List.forall_mem_append.2 ⟨digits, List.forall_mem_cons.2 ⟨.inr rfl, digits⟩⟩
  · split at found
    · cases found
    · rename_i filled
      obtain ⟨e, exponent, _⟩ := Option.map_eq_some_iff.1 found
      exact ⟨_, _, whole, by simpa using filled, digits, exponent_of_exponent? exponent⟩

theorem exists_last_of_number? {text : List Char} {l : Lexeme} (found : number? text = some l) :
    ∃ front c, text = front ++ [c] ∧ (c.isDigit ∨ c = '.') := by
  have last {text : List Char} (filled : text ≠ []) (all : ∀ c ∈ text, c.isDigit ∨ c = '.')
      (before : List Char) : ∃ front c, before ++ text = front ++ [c] ∧ (c.isDigit ∨ c = '.') :=
    ⟨before ++ text.dropLast, text.getLast filled,
      by rw [List.append_assoc, List.dropLast_concat_getLast filled],
      all _ (List.getLast_mem filled)⟩
  have lastDigit {digits : List Char} (all : isDigits digits) (before : List Char) :=
    last (isDigits_iff.1 all).1 (fun c member => .inl ((isDigits_iff.1 all).2 c member)) before
  obtain ⟨mantissa, _, rfl, filled, all, exponent⟩ := exists_mantissa found
  cases exponent with
  | nil => simpa using last filled all []
  | @unsigned mark digits _ all => simpa using lastDigit all (mantissa ++ [mark])
  | @signed mark sign digits _ _ all => simpa using lastDigit all (mantissa ++ [mark, sign])

theorem startsName_of_number? {c : Char} {rest : List Char} {l : Lexeme}
    (found : number? (c :: rest) = some l) : startsName c = false := by
  obtain ⟨mantissa, _, whole, filled, all, _⟩ := exists_mantissa found
  cases mantissa with
  | nil => exact absurd rfl filled
  | cons d mantissa =>
    obtain ⟨rfl, _⟩ := List.cons.inj whole
    rcases all c List.mem_cons_self with digit | rfl
    · exact Bool.eq_false_iff.2 fun starts =>
        Bool.noConfusion ((not_isDigit_of_startsName starts).symm.trans digit)
    · rfl

theorem number?_of_head {c : Char} (digit : c.isDigit = false) (point : c ≠ '.')
    (rest : List Char) : number? (c :: rest) = none := by
  have taken : (c :: rest).takeWhile Char.isDigit = [] := by simp [digit]
  have untaken : (c :: rest).dropWhile Char.isDigit = c :: rest := by simp [digit]
  unfold number?
  dsimp only
  rw [taken, untaken]
  split
  · rename_i impossible
    cases impossible
  · rename_i same
    cases same
    exact absurd rfl point
  · rfl

end Lexeme

open Text Lexeme

theorem Number.ofText?_of_isName {text : List Char} (name : isName text) : ofText? text = none := by
  simp [ofText?, Lexeme.ofText?, name, toNumber?]

theorem Number.ofText?_of_none {text : List Char} (name : isName text = false)
    (number : number? text = none) : ofText? text = none := by
  simp [ofText?, Lexeme.ofText?, name, number]

theorem Number.exists_number? {text : List Char} {a : Number} (found : ofText? text = some a) :
    ∃ l, number? text = some l := by
  obtain ⟨l, lexeme, number⟩ := Option.bind_eq_some_iff.1 found
  unfold Lexeme.ofText? at lexeme
  split at lexeme
  · cases lexeme
    cases number
  · exact ⟨l, lexeme⟩

/-- What the sign of an exponent divides a number into.  In front of the sign stands neither a
    number nor a name. -/
structure Number.Divided (front : List Char) (sign : Char) (digits : List Char) : Prop where
  filled : front ≠ []
  words : ∀ c ∈ front, isWordChar c
  noName : isName front = false
  noNumber : ofText? front = none
  sign : sign = '+' ∨ sign = '-'
  digits : isDigits digits

/-- The characters of a number are those of words, unless its exponent has a sign. -/
theorem Number.words_or_divided {text : List Char} {a : Number} (found : ofText? text = some a) :
    (∀ c ∈ text, isWordChar c) ∨
      ∃ front sign digits, text = front ++ sign :: digits ∧ Divided front sign digits := by
  have letters {mark : Char} (letter : mark = 'e' ∨ mark = 'E') : isWordChar mark := by
    rcases letter with rfl | rfl <;> rfl
  obtain ⟨l, number⟩ := exists_number? found
  obtain ⟨mantissa, _, rfl, filled, all, exponent⟩ := exists_mantissa number
  have words : ∀ c ∈ mantissa, isWordChar c := fun c member =>
    (all c member).elim isWordChar_of_isDigit fun point => by rw [point]; rfl
  cases exponent with
  | nil => exact .inl (by simpa using words)
  | unsigned letter digits =>
    exact .inl (List.forall_mem_append.2 ⟨words, List.forall_mem_cons.2 ⟨letters letter,
      fun c member => isWordChar_of_isDigit ((isDigits_iff.1 digits).2 c member)⟩⟩)
  | @signed mark sign digits letter isSign isNumber =>
    have noName : isName (mantissa ++ [mark]) = false := by
      cases mantissa with
      | nil => exact absurd rfl filled
      | cons c rest => rw [List.cons_append, isName, startsName_of_number? number, Bool.false_and]
    have noNumber : number? (mantissa ++ [mark]) = none := by
      refine Option.eq_none_iff_forall_ne_some.2 fun l found => ?_
      obtain ⟨front, c, same, last⟩ := exists_last_of_number? found
      cases (List.append_inj' same rfl).2
      rcases letter with rfl | rfl <;> rcases last with impossible | impossible <;> cases impossible
    refine .inr ⟨mantissa ++ [mark], sign, digits, by simp, by simp, ?_, noName,
      ofText?_of_none noName noNumber, isSign, isNumber⟩
    exact List.forall_mem_append.2 ⟨words, List.forall_mem_singleton.2 (letters letter)⟩

theorem Number.word_or_sign {text : List Char} {a : Number} (found : ofText? text = some a) :
    ∀ c ∈ text, isWordChar c ∨ c = '+' ∨ c = '-' := by
  rcases words_or_divided found with words | ⟨front, sign, digits, rfl, divided⟩
  · exact fun c member => .inl (words c member)
  · refine List.forall_mem_append.2 ⟨fun c member => .inl (divided.words c member),
      List.forall_mem_cons.2 ⟨.inr divided.sign, fun c member => .inl ?_⟩⟩
    exact isWordChar_of_isDigit ((isDigits_iff.1 divided.digits).2 c member)

theorem Number.ofText?_of_spaced {text : List Char} (spaced : text.any isBlank) :
    ofText? text = none := by
  obtain ⟨c, member, blank⟩ := List.any_eq_true.1 spaced
  refine Option.eq_none_iff_forall_ne_some.2 fun a found => ?_
  rcases word_or_sign found c member with word | rfl | rfl
  · exact Bool.noConfusion ((isBlank_of_isWordChar word).symm.trans blank)
  · cases blank
  · cases blank

theorem Lexeme.isName_of_spaced {text : List Char} (spaced : text.any isBlank) :
    isName text = false := by
  obtain ⟨c, member, blank⟩ := List.any_eq_true.1 spaced
  refine Bool.eq_false_iff.2 fun name => ?_
  have filled := isBlank_of_isWordChar (isWordChar_of_isName name c member)
  exact Bool.noConfusion (filled.symm.trans blank)

/-- A text that starts or ends with a character of a symbol is no number. -/
theorem Number.ofText?_of_mark {text : List Char} {c : Char} (mark : isMark c)
    (ends : text.head? = some c ∨ text.getLast? = some c) : ofText? text = none := by
  have other := (isMark_iff.1 mark).1
  have noName := isName_of_mark mark (ends.elim List.mem_of_head? List.mem_of_getLast?)
  have noNumber : number? text = none := by
    rcases ends with first | last
    · cases text with
      | nil => cases first
      | cons d rest =>
        cases first
        refine number?_of_head ?_ ?_ rest
        · cases digit : c.isDigit with
          | false => rfl
          | true => exact (isWordChar_of_isDigit digit).symm.trans other
        · rintro rfl
          cases other
    · cases number : number? text with
      | none => rfl
      | some l =>
        obtain ⟨front, d, rfl, ends⟩ := exists_last_of_number? number
        rw [List.getLast?_concat] at last
        cases last
        rcases ends with digit | rfl
        · exact Bool.noConfusion (other.symm.trans (isWordChar_of_isDigit digit))
        · cases other
  exact ofText?_of_none noName noNumber

theorem Number.ofText?_parens (rest : List Char) : ofText? ('(' :: rest) = none :=
  ofText?_of_none rfl (number?_of_head rfl (by decide) rest)

theorem Number.ofText?_call {name : List Char} (named : isName name) (rest : List Char) :
    ofText? (name ++ '(' :: rest) = none := by
  cases name with
  | nil => cases named
  | cons c name =>
    obtain ⟨starts, _⟩ := Bool.and_eq_true _ _ ▸ named
    refine ofText?_of_none ?_ (number?_of_head (not_isDigit_of_startsName starts) ?_ _)
    · simp [isName, continuesName, startsName]
    · rintro rfl
      cases starts

/-! ## Numbers that are written -/

theorem Number.ofText?_digits (n : Nat) :
    ofText? (Decimal.digits n) = some (.integer n) := by
  have all : ∀ c ∈ Decimal.digits n, c.isDigit := fun c => Decimal.isDigit_of_mem_digits
  have taken : (Decimal.digits n).takeWhile Char.isDigit = Decimal.digits n :=
    List.takeWhile_eq_self_iff.2 all
  have untaken : (Decimal.digits n).dropWhile Char.isDigit = [] :=
    List.dropWhile_eq_nil_iff.2 all
  have noName : isName (Decimal.digits n) = false := by
    cases text : Decimal.digits n with
    | nil => rfl
    | cons c rest =>
      have digit := all c (by simp [text])
      cases starts : startsName c with
      | false => simp [isName, starts]
      | true => exact Bool.noConfusion ((not_isDigit_of_startsName starts).symm.trans digit)
  simp [ofText?, Lexeme.ofText?, noName, number?, taken, untaken, Decimal.digits_ne_nil,
    Decimal.ofDigits_digits, toNumber?]

theorem Number.toList_text_natCast (n : Nat) :
    (Number.integer n).text.toList = Decimal.digits n := by
  simp [text, Decimal.intText]

theorem isWordChar_of_digits {n : Nat} : ∀ c ∈ Decimal.digits n, isWordChar c :=
  fun _ member => isWordChar_of_isDigit (Decimal.isDigit_of_mem_digits member)

theorem Binary64.isWordChar_of_positional (d : Nat) (e : Int) :
    ∀ c ∈ positional d e, isWordChar c := by
  have zeros (k : Nat) : ∀ c ∈ List.replicate k '0', isWordChar c := fun c member => by
    rw [List.eq_of_mem_replicate member]
    rfl
  unfold positional
  dsimp only
  split
  · exact List.forall_mem_append.2 ⟨List.forall_mem_append.2 ⟨isWordChar_of_digits, zeros _⟩,
      List.all_eq_true.1 rfl⟩
  · split
    · refine List.forall_mem_append.2 ⟨fun c member => ?_, List.forall_mem_cons.2 ⟨rfl,
        fun c member => ?_⟩⟩
      · exact isWordChar_of_digits c (List.mem_of_mem_take member)
      · exact isWordChar_of_digits c (List.mem_of_mem_drop member)
    · exact List.forall_mem_append.2 ⟨List.forall_mem_append.2 ⟨List.all_eq_true.1 rfl, zeros _⟩,
        isWordChar_of_digits⟩

theorem Binary64.isWordChar_of_magnitudeText (mantissa : Nat) (exponent : Int) :
    ∀ c ∈ magnitudeText mantissa exponent, isWordChar c := by
  unfold magnitudeText
  split
  · exact List.all_eq_true.1 rfl
  · exact isWordChar_of_positional _ _

theorem Binary64.isWordChar_of_ofText? {x : Float} {a : Number}
    (reads : Number.ofText? (text x).toList = some a) : ∀ c ∈ (text x).toList, isWordChar c := by
  have named {name : String} (named : isName name.toList)
      (reads : Number.ofText? name.toList = some a) : False := by
    rw [Number.ofText?_of_isName named] at reads
    cases reads
  have signed {rest : List Char} (reads : Number.ofText? ('-' :: rest) = some a) : False := by
    rw [Number.ofText?_of_mark (by decide : isMark '-') (.inl rfl)] at reads
    cases reads
  unfold text at reads ⊢
  split at reads
  · exact (named rfl reads).elim
  · split at reads
    · exact (signed reads).elim
    · exact (named rfl reads).elim
  · rename_i negative mantissa exponent _
    rw [String.toList_ofList] at reads ⊢
    cases negative with
    | true => exact (signed reads).elim
    | false => exact isWordChar_of_magnitudeText mantissa exponent

end Abacus
