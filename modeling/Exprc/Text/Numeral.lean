/-
Decimal numerals of 64-bit integers: an optional sign, then one or more decimal digits, of any
length as long as the value fits.
-/
namespace Exprc.Text

/-- The value of a decimal digit. -/
def digit? (c : Char) : Option Nat :=
  if c.isDigit then some (c.toNat - '0'.toNat) else none

/-- The value of a run of digits, which must not be empty. -/
def magnitude? : List Char → Option Nat
  | [] => none
  | cs => cs.foldlM (fun n c => (digit? c).map (10 * n + ·)) 0

/-- The value of digits behind an optional sign. -/
def signed? : List Char → Option Int
  | '-' :: cs => (magnitude? cs).map fun n => -(n : Int)
  | '+' :: cs => (magnitude? cs).map fun n => (n : Int)
  | cs => (magnitude? cs).map fun n => (n : Int)

/-- The 64-bit integer with the given value, if there is one. -/
def fit? (n : Int) : Option Int64 :=
  if Int64.minValue.toInt ≤ n ∧ n ≤ Int64.maxValue.toInt then some (Int64.ofInt n) else none

/-- The 64-bit integer that a numeral denotes. -/
def int64? (cs : List Char) : Option Int64 := (signed? cs).bind fit?

end Exprc.Text
