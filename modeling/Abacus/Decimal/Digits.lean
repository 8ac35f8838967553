/-!
# Decimal digits of natural numbers

`digits n` writes `n` in base ten without leading zeros and `ofDigits` reads it
back.  A number is written by halves: a block of `2 ^ (k + 1)` digits is the
block of its upper `2 ^ k` digits followed by that of its lower ones, so even
numbers of millions of digits take few divisions.
-/

namespace Abacus.Decimal

def digitValue (c : Char) : Nat := c.toNat - '0'.toNat

def digitChar (d : Nat) : Char := Char.ofNat ('0'.toNat + d)

/-- The number written by a list of digits, most significant first. -/
def ofDigits (text : List Char) : Nat := text.foldl (fun n c => n * 10 + digitValue c) 0

/-- The last `2 ^ k` decimal digits of `n`, leading zeros included. -/
def block : Nat → Nat → List Char
  | 0, n => [digitChar (n % 10)]
  | k + 1, n =>
    let unit := Nat.pow 10 (Nat.pow 2 k)
    block k (n / unit) ++ block k (n % unit)

/-- A block size, as a power of two, into which every digit of `n` fits. -/
def blockSize (n : Nat) : Nat := (n.log2 / 3 + 1).log2 + 1

/-- The decimal digits of `n`, most significant first; zero is one digit. -/
def digits (n : Nat) : List Char :=
  match (block (blockSize n) n).dropWhile (· = '0') with
  | [] => ['0']
  | text => text

/-! ## Reading back -/

theorem digitValue_digitChar {d : Nat} (h : d < 10) : digitValue (digitChar d) = d := by
  revert h d
  decide

theorem isDigit_digitChar {d : Nat} (h : d < 10) : (digitChar d).isDigit = true := by
  revert h d
  decide

theorem foldl_digits (text : List Char) (n : Nat) :
    text.foldl (fun n c => n * 10 + digitValue c) n =
      n * Nat.pow 10 text.length + ofDigits text := by
  simp only [Nat.pow_eq]
  induction text generalizing n with
  | nil => simp [ofDigits]
  | cons c rest ih =>
    simp only [List.foldl_cons, ofDigits, List.length_cons]
    rw [ih, ih (0 * 10 + digitValue c), Nat.pow_succ, Nat.add_mul, Nat.zero_mul, Nat.zero_add,
      Nat.mul_assoc, Nat.mul_comm 10, Nat.add_assoc]

theorem ofDigits_append (a b : List Char) :
    ofDigits (a ++ b) = ofDigits a * Nat.pow 10 b.length + ofDigits b := by
  rw [ofDigits, List.foldl_append, foldl_digits]
  rfl

theorem ofDigits_cons (c : Char) (text : List Char) :
    ofDigits (c :: text) = digitValue c * Nat.pow 10 text.length + ofDigits text := by
  simpa [ofDigits] using ofDigits_append [c] text

@[simp] theorem length_block (k n : Nat) : (block k n).length = Nat.pow 2 k := by
  simp only [Nat.pow_eq]
  induction k generalizing n with
  | zero => rfl
  | succ k ih =>
    simp only [block, List.length_append, ih, Nat.pow_succ]
    omega

theorem ofDigits_block (k n : Nat) : ofDigits (block k n) = n % Nat.pow 10 (Nat.pow 2 k) := by
  induction k generalizing n with
  | zero =>
    have hdigit := digitValue_digitChar (Nat.mod_lt n (by decide : 0 < 10))
    simp [block, ofDigits, hdigit]
  | succ k ih =>
    rw [block, ofDigits_append, ih, ih, length_block]
    simp only [Nat.pow_eq]
    rw [Nat.mod_mod, Nat.pow_succ, Nat.pow_mul, Nat.pow_two, Nat.mod_mul,
      Nat.mul_comm (_ % _) _, Nat.add_comm]

theorem isDigit_of_mem_block {k n : Nat} {c : Char} (h : c ∈ block k n) : c.isDigit = true := by
  induction k generalizing n with
  | zero =>
    simp only [block, List.mem_singleton] at h
    subst h
    exact isDigit_digitChar (Nat.mod_lt n (by decide))
  | succ k ih =>
    rcases List.mem_append.1 h with h | h <;> exact ih h

theorem lt_ten_pow_blockSize (n : Nat) : n < Nat.pow 10 (Nat.pow 2 (blockSize n)) := by
  have hn : n < Nat.pow 2 (n.log2 + 1) := Nat.lt_log2_self
  have hthird : n.log2 + 1 ≤ 3 * (n.log2 / 3 + 1) := by omega
  have hsize : n.log2 / 3 + 1 ≤ Nat.pow 2 (blockSize n) := Nat.le_of_lt Nat.lt_log2_self
  have height : Nat.pow 2 (3 * (n.log2 / 3 + 1)) = Nat.pow 8 (n.log2 / 3 + 1) := by
    simp only [Nat.pow_eq]
    rw [Nat.pow_mul]
  calc n < Nat.pow 2 (n.log2 + 1) := hn
    _ ≤ Nat.pow 2 (3 * (n.log2 / 3 + 1)) := Nat.pow_le_pow_right (by decide) hthird
    _ = Nat.pow 8 (n.log2 / 3 + 1) := height
    _ ≤ Nat.pow 10 (n.log2 / 3 + 1) := Nat.pow_le_pow_left (by decide) _
    _ ≤ Nat.pow 10 (Nat.pow 2 (blockSize n)) := Nat.pow_le_pow_right (by decide) hsize

theorem ofDigits_dropWhile_zero (text : List Char) :
    ofDigits (text.dropWhile (· = '0')) = ofDigits text := by
  induction text with
  | nil => rfl
  | cons c rest ih =>
    by_cases h : c = '0'
    · subst h
      rw [List.dropWhile_cons_of_pos (by simp), ih, ofDigits_cons]
      simp [digitValue]
    · rw [List.dropWhile_cons_of_neg (by simpa using h)]

theorem ofDigits_digits (n : Nat) : ofDigits (digits n) = n := by
  have h : ofDigits ((block (blockSize n) n).dropWhile (· = '0')) = n := by
    rw [ofDigits_dropWhile_zero, ofDigits_block, Nat.mod_eq_of_lt (lt_ten_pow_blockSize n)]
  unfold digits
  split
  · rename_i hnil
    rw [hnil] at h
    rw [← h]
    decide
  · exact h

theorem isDigit_of_mem_digits {n : Nat} {c : Char} (h : c ∈ digits n) : c.isDigit = true := by
  unfold digits at h
  split at h
  · simp only [List.mem_singleton] at h
    subst h
    decide
  · exact isDigit_of_mem_block ((List.dropWhile_sublist _).subset h)

theorem digits_ne_nil (n : Nat) : digits n ≠ [] := by
  unfold digits
  split
  · simp
  · assumption

end Abacus.Decimal
