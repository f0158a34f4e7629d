import Bootsh.CString

/-! Conversion of strings to numbers, from `mystring.c` and `var.c`. -/
namespace Bootsh

/-- The text `badnum` passes to `sh_error`. -/
def badnum (s : Text) : Text := "Illegal number: ".toList ++ s

/-- Blank strings are numbers only in arithmetic, that is, for base 0. -/
def atomax (s : Text) (base : ℕ) : Except Text IntMax :=
  let r := strtoimax s base
  if r.erange then .error (badnum s)
  else if r.endptr = s ∧ base ≠ 0 then .error (badnum s)
  else if r.endptr.dropWhile isSpace ≠ [] then .error (badnum s)
  else .ok r.val

/-- Quote `s` for the shell: runs of single quotes stand between double quotes, all
other text between single quotes. -/
def singleQuote (s : Text) : Text :=
  let quoted := '\'' :: s.takeWhile (· ≠ '\'') ++ ['\'']
  match _h : s.dropWhile (· ≠ '\'') with
  | [] => quoted
  | c :: rest =>
    let run := (c :: rest).takeWhile (· = '\'')
    let rest' := rest.dropWhile (· = '\'')
    let quoted := quoted ++ '"' :: run ++ ['"']
    if rest' = [] then quoted else quoted ++ singleQuote rest'
termination_by s.length
decreasing_by
  have hle := (s.dropWhile_sublist (· ≠ '\'')).length_le
  have hle' := (rest.dropWhile_sublist (· = '\'')).length_le
  rw [_h] at hle
  simp only [List.length_cons] at hle
  omega

/-- The operations of the variable store that arithmetic uses. `setvar` fails
with the text given to `sh_error`. -/
structure VarOps (σ : Type) where
  lookupvar : Text → σ → Option Text
  setvar : Text → Text → σ → Except Text σ

variable {σ : Type}

def VarOps.lookupvarint (ops : VarOps σ) (name : Text) (vars : σ) : Except Text IntMax :=
  atomax ((ops.lookupvar name vars).getD []) 0

def VarOps.setvarint (ops : VarOps σ) (name : Text) (val : IntMax) (vars : σ) :
    Except Text (IntMax × σ) := do
  let vars ← ops.setvar name (fmtImax val) vars
  return (val, vars)

end Bootsh
