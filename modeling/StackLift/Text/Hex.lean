/-!
Hexadecimal numerals of a fixed width. Writing uses lowercase digits and fills
with zeros; reading takes either case. Main statement: a number that fits in
the width is read back from its numeral.
-/

namespace StackLift.Hex

def digit (n : Nat) : Char :=
  if n < 10 then Char.ofNat (48 + n) else Char.ofNat (87 + n)

def digit? (c : Char) : Option Nat :=
  let n := c.toNat
  if 48 ≤ n ∧ n ≤ 57 then some (n - 48)
  else if 97 ≤ n ∧ n ≤ 102 then some (n - 87)
  else if 65 ≤ n ∧ n ≤ 70 then some (n - 55)
  else none

/-- The last `width` digits of a number. -/
def digits : (width n : Nat) → List Char
  | 0, _ => []
  | width + 1, n => digits width (n / 16) ++ [digit (n % 16)]

/-- The number that digits stand for, read on from what came before them. -/
def value? (before : Nat) : List Char → Option Nat
  | [] => some before
  | c :: rest => do value? (16 * before + (← digit? c)) rest

@[simp] theorem length_digits (width n : Nat) : (digits width n).length = width := by
  induction width generalizing n with
  | zero => rfl
  | succ width ih => simp [digits, ih]

theorem digit?_digit : ∀ n, n < 16 → digit? (digit n) = some n := by
  decide

theorem value?_append (before : Nat) (xs ys : List Char) :
    value? before (xs ++ ys) = (value? before xs).bind fun n => value? n ys := by
  induction xs generalizing before with
  | nil => rfl
  | cons c xs ih =>
      simp only [List.cons_append, value?]
      cases digit? c with
      | none => rfl
      | some d => exact ih _

theorem value?_digits {width n : Nat} (h : n < Nat.pow 16 width) :
    value? 0 (digits width n) = some n := by
  induction width generalizing n with
  | zero => simp_all [digits, value?]
  | succ width ih =>
      have top : n / 16 < Nat.pow 16 width := by
        have split : Nat.pow 16 (width + 1) = Nat.pow 16 width * 16 := rfl
        omega
      have low := digit?_digit (n % 16) (Nat.mod_lt n (by decide))
      simp [digits, value?_append, ih top, value?, low]
      omega

end StackLift.Hex
