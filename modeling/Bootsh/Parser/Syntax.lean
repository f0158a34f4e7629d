import Bootsh.Input.File

/-! The syntax tables that `mksyntax.c` generates, and the bytes of `parser.h`. -/
namespace Bootsh

def CTLESC : Char := '\x81'
def CTLVAR : Char := '\x82'
def CTLENDVAR : Char := '\x83'
def CTLBACKQ : Char := '\x84'
def CTLARI : Char := '\x86'
def CTLENDARI : Char := '\x87'
def CTLQUOTEMARK : Char := '\x88'

/-- From `CTL_FIRST` to `CTL_LAST`. -/
def isCtl (c : Char) : Bool := decide (CTLESC.toNat ≤ c.toNat) && decide (c.toNat ≤ CTLQUOTEMARK.toNat)

def VSTYPE : ℕ := 0x0f
def VSNUL : ℕ := 0x10
def VSBIT : ℕ := 0x20
def VSNORMAL : ℕ := 0x1
def VSMINUS : ℕ := 0x2
def VSPLUS : ℕ := 0x3
def VSQUESTION : ℕ := 0x4
def VSASSIGN : ℕ := 0x5
def VSTRIMRIGHT : ℕ := 0x6
def VSTRIMRIGHTMAX : ℕ := 0x7
def VSTRIMLEFT : ℕ := 0x8
def VSTRIMLEFTMAX : ℕ := 0x9
def VSLENGTH : ℕ := 0xa

/-- The syntax classes. -/
inductive SynClass where
  | cword | cnl | cback | csquote | cdquote | cendquote | cbquote | cvar | cendvar | clp | crp
  | ceof | cctl | cspcl
  deriving DecidableEq, Repr

/-- `BASESYNTAX`, `DQSYNTAX`, `SQSYNTAX` and `ARISYNTAX`. -/
inductive Syntax where
  | base | dq | sq | ari
  deriving DecidableEq, Repr

/-- The entries that `add` puts over those of `init`. -/
def Syntax.entries : Syntax → List (String × SynClass)
  | .base => [("\n", .cnl), ("\\", .cback), ("'", .csquote), ("\"", .cdquote), ("`", .cbquote),
      ("$", .cvar), ("\x7d", .cendvar), ("<>();&| \t", .cspcl)]
  | .dq => [("\n", .cnl), ("\\", .cback), ("\"", .cendquote), ("`", .cbquote), ("$", .cvar),
      ("\x7d", .cendvar), ("!*?[=~:/-]", .cctl)]
  | .sq => [("\n", .cnl), ("'", .cendquote), ("!*?[=~:/-]\\", .cctl)]
  | .ari => [("\n", .cnl), ("\\", .cback), ("`", .cbquote), ("$", .cvar), ("\x7d", .cendvar),
      ("(", .clp), (")", .crp)]

/-- The class of a character. -/
def Syntax.get (syn : Syntax) : Chr → SynClass
  | none => .ceof
  | some c =>
    match syn.entries.find? fun e => e.1.toList.contains c with
    | some e => e.2
    | none => if isCtl c then .cctl else .cword

/-- The characters of class `ISSPECL` or `ISDIGIT`. -/
def isSpecial (c : Char) : Bool := "#?$!-*@".toList.contains c || isDigit c

/-- Apply a character test to what `pgetc` returns; `PEOF` passes none. -/
def Chr.is (p : Char → Bool) (c : Chr) : Bool := c.any p

/-- What is stored for a character; `PEOF` is cut down to a byte. -/
def Chr.byte (c : Chr) : Char := c.getD '\x7f'

end Bootsh
