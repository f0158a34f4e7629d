import Bootsh.CString

/-!
The scanner of build manifests, `scan.c`. Its text is the byte that is looked at and the rest of
the file behind it, so that putting back a `$` leaves the text as it was. An error is the message
that `scanerror` prints.
-/
namespace Bootsh.Samu.Manifest

/-- A part of a string that is not evaluated: literal text, or a variable. -/
structure Part where
  var : Option Text
  str : Option Text
  deriving DecidableEq, Repr

abbrev EvalString := List Part

def issimplevar (c : Char) : Bool := isAlnum c || c == '_' || c == '-'

def isvar (c : Char) : Bool := issimplevar c || c == '.'

/-- The text behind the newline that stands here. -/
def newline : Text → Except String (Option Text)
  | '\r' :: '\n' :: s => .ok (some s)
  | '\r' :: _ => .error "expected '\\n' after '\\r'"
  | '\n' :: s => .ok (some s)
  | _ => .ok none

def singlespace : Text → Except String (Option Text)
  | '$' :: s => newline s
  | ' ' :: s => .ok (some s)
  | _ => .ok none

theorem newline_length {s t : Text} (h : newline s = .ok (some t)) : t.length < s.length := by
  unfold newline at h
  split at h <;> cases h
  · simp only [List.length_cons]
    omega
  · simp

theorem singlespace_length {s t : Text} (h : singlespace s = .ok (some t)) :
    t.length < s.length := by
  unfold singlespace at h
  split at h
  · exact (newline_length h).trans (by simp)
  · cases h
    simp
  · cases h

/-- `while (singlespace(s));` -/
def spaces (s : Text) : Except String Text :=
  match _h : singlespace s with
  | .error e => .error e
  | .ok none => .ok s
  | .ok (some t) => spaces t
termination_by s.length
decreasing_by exact singlespace_length _h

def space (s : Text) : Except String (Bool × Text) := do
  match ← singlespace s with
  | none => return (false, s)
  | some t => return (true, ← spaces t)

theorem spaces_eq (s : Text) : spaces s = (singlespace s).bind fun
    | none => .ok s
    | some t => spaces t := by
  rw [spaces.eq_def]
  split <;> simp_all [Except.bind]

theorem space_eq (s : Text) :
    space s = (spaces s).map fun t => (decide (singlespace s ≠ .ok none), t) := by
  rw [space, spaces_eq]
  cases singlespace s with
  | error e => rfl
  | ok o =>
    cases o with
    | none => rfl
    | some t =>
      simp only [bind, Except.bind]
      cases spaces t <;> rfl

theorem spaces_length {s t : Text} (h : spaces s = .ok t) : t.length ≤ s.length := by
  induction s using spaces.induct with
  | case1 s e hs =>
    rw [spaces_eq, hs] at h
    cases h
  | case2 s hs =>
    rw [spaces_eq, hs] at h
    cases h
    exact le_rfl
  | case3 s r hs ih =>
    rw [spaces_eq, hs] at h
    exact (ih h).trans (singlespace_length hs).le

def name (s : Text) : Except String (Text × Text) :=
  if s.takeWhile isvar = [] then .error "expected name"
  else do
    let (_, t) ← space (s.dropWhile isvar)
    return (s.takeWhile isvar, t)

/-! ### Strings -/

/-- The buffer, and the parts of the string so far. -/
structure Parts where
  buf : Text
  str : EvalString

namespace Parts

def add (p : Parts) (c : Char) : Parts := { p with buf := p.buf ++ [c] }

def addstringpart (p : Parts) (var : Bool) : Parts :=
  ⟨[], p.str ++ [if var then ⟨some p.buf, none⟩ else ⟨none, some p.buf⟩]⟩

/-- `if (buf.len > 0) addstringpart(end, false)` -/
def flush (p : Parts) : Parts := if p.buf = [] then p else p.addstringpart false

def addvar (p : Parts) (v : Text) : Parts := { p with buf := v }.addstringpart true

end Parts

/-- What stands behind a `$`. -/
def escape (p : Parts) : Text → Except String (Parts × Text)
  | '$' :: s => .ok (p.add '$', s)
  | ' ' :: s => .ok (p.add ' ', s)
  | ':' :: s => .ok (p.add ':', s)
  | '{' :: s =>
    match s.dropWhile isvar with
    | '}' :: t => .ok (p.flush.addvar (s.takeWhile isvar), t)
    | _ => .error "invalid variable name"
  | s => do
    match ← newline s with
    | some t => return (p, ← spaces t)
    | none =>
      if s.takeWhile issimplevar = [] then .error "invalid $ escape"
      else return (p.flush.addvar (s.takeWhile issimplevar), s.dropWhile issimplevar)

theorem escape_length {p q : Parts} {s t : Text} (h : escape p s = .ok (q, t)) :
    t.length ≤ s.length := by
  unfold escape at h
  split at h
  · cases h
    simp
  · cases h
    simp
  · cases h
    simp
  · rename_i s
    split at h
    · rename_i hrest
      cases h
      have := (List.dropWhile_suffix (l := s) isvar).length_le
      rw [hrest] at this
      simp only [List.length_cons] at this ⊢
      omega
    · cases h
  · cases hn : newline s with
    | error e => simp [hn, bind, Except.bind] at h
    | ok o =>
      cases o with
      | some u =>
        cases hb : spaces u with
        | error e => simp [hn, hb, bind, Except.bind] at h
        | ok v =>
          simp only [hn, hb, bind, Except.bind, pure, Except.pure] at h
          cases h
          exact (spaces_length hb).trans (newline_length hn).le
      | none =>
        simp only [hn, bind, Except.bind] at h
        split at h
        · cases h
        · cases h
          exact (List.dropWhile_suffix _).length_le

/-- `:`, `|` and blanks end a path. -/
def endsString (path : Bool) (c : Char) : Bool :=
  c == '\r' || c == '\n' || path && (c == ':' || c == '|' || c == ' ')

/-- The loop of `scanstring`. -/
def scanparts (path : Bool) (p : Parts) : Text → Except String (Parts × Text)
  | [] => .ok (p, [])
  | '$' :: s =>
    match _h : escape p s with
    | .error e => .error e
    | .ok (q, t) => scanparts path q t
  | c :: s => if endsString path c then .ok (p, c :: s) else scanparts path (p.add c) s
termination_by s => s.length
decreasing_by
  · exact Nat.lt_succ_of_le (escape_length _h)
  · exact Nat.lt_succ_self _

def scanstring (path : Bool) (s : Text) : Except String (EvalString × Text) := do
  let (p, t) ← scanparts path ⟨[], []⟩ s
  if path then
    let (_, t) ← space t
    return (p.flush.str, t)
  else return (p.flush.str, t)

/-- The loop of `scanstring` reads something, or leaves everything as it is. -/
theorem scanparts_length {path : Bool} {p q : Parts} {s t : Text}
    (h : scanparts path p s = .ok (q, t)) : t.length < s.length ∨ q = p ∧ t = s := by
  induction p, s using scanparts.induct path with
  | case1 p =>
    rw [scanparts] at h
    cases h
    exact .inr ⟨rfl, rfl⟩
  | case2 p s e he =>
    rw [scanparts] at h
    split at h <;> simp_all
  | case3 p s p' s' hesc ih =>
    have hlen := escape_length hesc
    rw [scanparts] at h
    split at h
    · cases h
    · rename_i heq
      rw [hesc] at heq
      cases heq
      refine .inl (Nat.lt_succ_of_le ?_)
      rcases ih h with hlt | ⟨-, rfl⟩
      · exact hlt.le.trans hlen
      · exact hlen
  | case4 p c s hc hends =>
    rw [scanparts, if_pos hends] at h
    · cases h
      exact .inr ⟨rfl, rfl⟩
    · exact hc
  | case5 p c s hc hends ih =>
    rw [scanparts, if_neg hends] at h
    · refine .inl (Nat.lt_succ_of_le ?_)
      rcases ih h with hlt | ⟨-, rfl⟩
      · exact hlt.le
      · exact le_rfl
    · exact hc

theorem space_length {s t : Text} {b : Bool} (h : space s = .ok (b, t)) : t.length ≤ s.length := by
  rw [space_eq] at h
  cases hs : spaces s with
  | error e => simp [hs, Except.map] at h
  | ok u =>
    rw [hs] at h
    cases h
    exact spaces_length hs

theorem scanstring_length {path : Bool} {s t : Text} {str : EvalString}
    (h : scanstring path s = .ok (str, t)) :
    t.length ≤ s.length ∧ (str ≠ [] → t.length < s.length) := by
  unfold scanstring at h
  cases hp : scanparts path ⟨[], []⟩ s with
  | error e => simp [hp, bind, Except.bind] at h
  | ok o =>
    obtain ⟨q, u⟩ := o
    have hrest : str = q.flush.str ∧ t.length ≤ u.length := by
      cases path with
      | false =>
        simp only [hp, bind, Except.bind] at h
        cases h
        exact ⟨rfl, le_rfl⟩
      | true =>
        cases hb : space u with
        | error e => simp [hp, hb, bind, Except.bind] at h
        | ok o =>
          simp only [hp, hb, bind, Except.bind] at h
          cases h
          exact ⟨rfl, space_length hb⟩
    rcases scanparts_length hp with hlt | ⟨rfl, rfl⟩
    · exact ⟨hrest.2.trans hlt.le, fun _ => hrest.2.trans_lt hlt⟩
    · exact ⟨hrest.2, fun hne => absurd hrest.1 hne⟩

/-- The paths up to the first string that has no parts. -/
def scanpaths (s : Text) : Except String (List EvalString × Text) :=
  match _h : scanstring true s with
  | .error e => .error e
  | .ok ([], t) => .ok ([], t)
  | .ok (p :: str, t) => (scanpaths t).map fun (paths, t) => ((p :: str) :: paths, t)
termination_by s.length
decreasing_by exact (scanstring_length _h).2 (List.cons_ne_nil _ _)

/-! ### Single tokens -/

def scanchar (c : Char) (s : Text) : Except String Text :=
  if s.head? = some c then do
    let (_, t) ← space s.tail
    return t
  else .error ("expected '" ++ String.singleton c ++ "'")

/-- The bits of `n` say whether `|` and `||` may stand here. -/
def scanpipe (n : ℕ) : Text → Except String (ℕ × Text)
  | '|' :: '|' :: s =>
    if n &&& 2 = 0 then .error "unexpected '||'"
    else do
      let (_, t) ← space s
      return (2, t)
  | '|' :: s =>
    if n &&& 1 = 0 then .error "expected '||'"
    else do
      let (_, t) ← space s
      return (1, t)
  | s => .ok (0, s)

def scannewline (s : Text) : Except String Text := do
  match ← newline s with
  | some t => return t
  | none => .error "expected newline"

end Bootsh.Samu.Manifest
