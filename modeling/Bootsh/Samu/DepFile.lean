import Mathlib.Data.List.Basic

/-!
The depfile parser of `deps.c`. The look-ahead `c` and what is left of the file are one list,
empty at the end of the file.
-/
namespace Bootsh.Samu.DepFile

abbrev Text := List Char

/-! ### The buffer -/

/-- `struct buffer`, with the bytes up to `len`. -/
structure Buffer where
  data : Text
  cap : ℕ
  fits : data.length ≤ cap

namespace Buffer

variable (buf : Buffer) (c : Char) (s t : Text)

def add : Buffer :=
  if h : buf.cap ≤ buf.data.length then
    ⟨buf.data ++ [c], if buf.cap = 0 then 256 else buf.cap * 2, by
      have := buf.fits
      rw [List.length_append, List.length_singleton]
      split <;> omega⟩
  else
    ⟨buf.data ++ [c], buf.cap, by
      rw [List.length_append, List.length_singleton]
      omega⟩

/-- The static buffer before the first call. -/
def initial : Buffer := ⟨[], 0, Nat.le_refl _⟩

/-- `buf.len = 0` -/
def reset : Buffer := ⟨[], buf.cap, Nat.zero_le _⟩

@[simp] theorem add_data : (buf.add c).data = buf.data ++ [c] := by
  unfold add
  split <;> rfl

@[simp] theorem reset_data : buf.reset.data = [] := rfl

/-- One `bufadd` for each character. -/
def addAll : Buffer := s.foldl add buf

@[simp] theorem addAll_nil : buf.addAll [] = buf := rfl

theorem addAll_append : buf.addAll (s ++ t) = (buf.addAll s).addAll t := List.foldl_append

theorem addAll_concat : buf.addAll (s ++ [c]) = (buf.addAll s).add c := by
  rw [addAll_append]
  rfl

@[simp] theorem addAll_data : (buf.addAll s).data = buf.data ++ s := by
  induction s generalizing buf with
  | nil => simp
  | cons c s ih =>
    have hrest := ih (buf.add c)
    rw [add_data] at hrest
    rw [show buf.addAll (c :: s) = (buf.add c).addAll s from rfl, hrest]
    simp

end Buffer

def bufadd (buf : Buffer) (c : Char) : Buffer := buf.add c

/-! ### One path -/

/-- `strchr`, which finds the NUL at the end too. -/
def strchr (s : String) (c : Char) : Bool := decide (c ∈ s.toList ++ ['\x00'])

def isblank (c : Char) : Bool := c == ' ' || c == '\t'

def isspace (c : Char) : Bool :=
  isblank c || c == '\n' || c == '\x0b' || c == '\x0c' || c == '\r'

/-- The condition of the loop over the characters of a path. -/
def taken (c : Char) : Bool := c.isAlphanum || strchr "$+,-./@\\_" c

/-- The run of backslashes, the first of which was read: their number, and what follows them. -/
def slashes (f : Text) (n : ℕ) (buf : Buffer) : ℕ × Buffer × Text :=
  let n := n + 1
  let buf := if n % 2 = 0 then bufadd buf '\\' else buf
  match f with
  | '\\' :: f => slashes f n buf
  | f => (n, buf, f)

/-- `for (; n > 2; n -= 2)` -/
def addSlashes : ℕ → Buffer → Buffer
  | n + 3, buf => addSlashes (n + 1) (bufadd buf '\\')
  | _, buf => buf

theorem slashes_length (f : Text) (n : ℕ) (buf : Buffer) :
    (slashes f n buf).2.2.length ≤ f.length := by
  induction f generalizing n buf with
  | nil => simp [slashes]
  | cons c f ih =>
    unfold slashes
    by_cases hc : c = '\\'
    · subst hc
      exact Nat.le_succ_of_le (ih _ _)
    · split
      · rename_i h
        exact absurd (List.cons.inj h).1 hc
      · exact Nat.le_refl _

/-- The loop over the characters of a path, from `s` on; `none` at a variable reference. -/
def word (s : Text) (buf : Buffer) : Option (Buffer × Text) :=
  match s with
  | [] => some (buf, [])
  | c :: f =>
    if taken c then
      if c = '\\' then
        have hlen := slashes_length f 0 buf
        match slashes f 0 buf, hlen with
        | (n, buf, []), _ => some (bufadd (addSlashes n buf) '\\', [])
        | (n, buf, c :: f), _ =>
          if isblank c ∧ n % 2 ≠ 0 then word f (bufadd buf c)
          else if c = '#' then word f (bufadd (addSlashes n buf) c)
          else if c = '\n' then word (' ' :: f) (addSlashes n buf)
          else word (c :: f) (bufadd (addSlashes n buf) '\\')
      else if c = '$' then
        match f with
        | '$' :: f => word f (bufadd buf '$')
        | _ => none
      else word f (bufadd buf c)
    else some (buf, s)
termination_by s.length
decreasing_by all_goals (simp_all only [List.length_cons]; omega)

/-! ### The file -/

/-- The loop that skips blanks and escaped newlines; `none` at another backslash. -/
def skip : Text → Option Text
  | '\\' :: f =>
    match f with
    | '\n' :: f => skip f
    | _ => none
  | c :: f => if isblank c then skip f else some (c :: f)
  | [] => some []

structure State where
  out : Option Text
  deps : List Text
  sawcolon : Bool
  buf : Buffer
  s : Text

/-- What `depsparse` returns: the paths, or NULL after a warning. -/
inductive Result where
  | deps (paths : List Text)
  | bad
  deriving DecidableEq, Repr

/-- The end of an iteration: `buf.len = 0` and the loop that skips blanks. -/
def State.next (st : State) (s : Text) : Except Result State :=
  match skip s with
  | none => .error .bad
  | some s => .ok { st with buf := st.buf.reset, s := s }

/-- One iteration of the outer loop. -/
def step (st : State) : Except Result State :=
  match word st.s st.buf with
  | none => .error .bad
  | some (buf, s) =>
    let st := { st with buf := buf }
    if st.sawcolon then
      let deps := if buf.data.length > 0 then st.deps ++ [buf.data] else st.deps
      match s with
      | [] => .error (.deps deps)
      | c :: f =>
        if isspace c then
          if c = '\n' then
            match f.dropWhile (· = '\n') with
            | [] => .error (.deps deps)
            | s => { st with deps := deps, sawcolon := false }.next s
          else { st with deps := deps }.next (c :: f)
        else .error .bad
    else
      match s.dropWhile isblank with
      | [] => .error (.deps st.deps)
      | c :: f =>
        if c = ':' then
          match st.out with
          | none => { st with out := some buf.data, sawcolon := true }.next f
          | some out =>
            if out = buf.data then { st with sawcolon := true }.next f else .error .bad
        else .error .bad

/-- At most `fuel` iterations. -/
def loop : ℕ → State → Option Result
  | 0, _ => none
  | fuel + 1, st =>
    match step st with
    | .error r => some r
    | .ok st => loop fuel st

/-- `depsparse` of a file (`none` when there is none), with the buffer that the last call left. -/
def depsparse (fuel : ℕ) (file : Option Text) (allowmissing : Bool) (buf : Buffer) :
    Option Result :=
  match file with
  | none => some (if allowmissing then .deps [] else .bad)
  | some s => loop fuel ⟨none, [], false, buf.reset, s⟩

end Bootsh.Samu.DepFile
