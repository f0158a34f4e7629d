import Mathlib.Algebra.Group.Int.Defs
import Mathlib.Algebra.GroupWithZero.Nat
import Mathlib.Tactic.Common
import Mathlib.Data.List.TakeWhile

/-!
C character strings and the C library routines on them that the shell calls.
A `char` is the character whose code is the byte's value; a string is the list
of its bytes, without the terminating NUL. All classifications are those of the
C locale.
-/
namespace Bootsh

/-- A NUL-terminated C string, as the list of the bytes before the NUL. -/
abbrev Text := List Char

/-- `intmax_t`: 64 bits, two's complement. -/
abbrev IntMax := BitVec 64

/-- The sign of a byte held in a (signed) `char`. -/
def isNegative (c : Char) : Bool := decide (128 ≤ c.toNat)

def isSpace (c : Char) : Bool :=
  c == ' ' || c == '\t' || c == '\n' || c == '\x0b' || c == '\x0c' || c == '\r'

def isDigit (c : Char) : Bool := decide ('0'.toNat ≤ c.toNat) && decide (c.toNat ≤ '9'.toNat)

def isUpper (c : Char) : Bool := decide ('A'.toNat ≤ c.toNat) && decide (c.toNat ≤ 'Z'.toNat)

def isLower (c : Char) : Bool := decide ('a'.toNat ≤ c.toNat) && decide (c.toNat ≤ 'z'.toNat)

def isAlpha (c : Char) : Bool := isUpper c || isLower c

def isAlnum (c : Char) : Bool := isAlpha c || isDigit c

/-- The macro `is_name` of the generated `syntax.h`. -/
def isName (c : Char) : Bool := c == '_' || isAlpha c

/-- The macro `is_in_name` of the generated `syntax.h`. -/
def isInName (c : Char) : Bool := c == '_' || isAlnum c

/-- The value of a digit of `strtoimax`, whatever the base. -/
def digitVal (c : Char) : ℕ :=
  if isDigit c then c.toNat - '0'.toNat
  else if isUpper c then c.toNat - 'A'.toNat + 10
  else if isLower c then c.toNat - 'a'.toNat + 10
  else 36

def isBaseDigit (base : ℕ) (c : Char) : Bool := decide (digitVal c < base)

/-- The number a string of digits denotes in the given base. -/
def magnitude (base : ℕ) (s : Text) : ℕ := s.foldl (fun n c => n * base + digitVal c) 0

def intMaxMax : ℕ := 2 ^ 63 - 1

/-- What `strtoimax` returns: the number, `*endptr`, and whether `errno` is `ERANGE`. -/
structure Strtoimax where
  val : IntMax
  endptr : Text
  erange : Bool
  deriving DecidableEq, Repr

/-- A magnitude with its sign, saturated at the ends of `intmax_t`. -/
def saturate (neg : Bool) (n : ℕ) : IntMax × Bool :=
  if neg then if n ≤ 2 ^ 63 then (-BitVec.ofNat 64 n, false) else (BitVec.intMin 64, true)
  else if n ≤ intMaxMax then (BitVec.ofNat 64 n, false) else (BitVec.intMax 64, true)

/-- The base and the digits of a numeral without its sign: base 0 reads the
prefixes `0x`, `0X` and `0` of C; base 16 reads an optional `0x`. -/
def basePrefix (base : ℕ) (s : Text) : ℕ × Text :=
  match s with
  | '0' :: x :: c :: rest =>
    if (x = 'x' ∨ x = 'X') ∧ isBaseDigit 16 c ∧ (base = 0 ∨ base = 16) then (16, c :: rest)
    else if base = 0 then (8, s) else (base, s)
  | '0' :: _ => if base = 0 then (8, s) else (base, s)
  | _ => if base = 0 then (10, s) else (base, s)

def strtoimax (s : Text) (base : ℕ) : Strtoimax :=
  let t := s.dropWhile isSpace
  let (neg, t) := match t with
    | '-' :: u => (true, u)
    | '+' :: u => (false, u)
    | u => (false, u)
  let (base, t) := basePrefix base t
  let digits := t.takeWhile (isBaseDigit base)
  if digits = [] then ⟨0, s, false⟩
  else
    let (val, erange) := saturate neg (magnitude base digits)
    ⟨val, t.dropWhile (isBaseDigit base), erange⟩

example : strtoimax " -0x1fz".toList 0 = ⟨-31, ['z'], false⟩ := by decide

/-- `"%" PRIdMAX`. -/
def fmtImax (n : IntMax) : Text :=
  if n.toInt < 0 then '-' :: Nat.toDigits 10 n.toInt.natAbs else Nat.toDigits 10 n.toInt.natAbs

end Bootsh
