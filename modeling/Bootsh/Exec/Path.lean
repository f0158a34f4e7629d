import Bootsh.CString

/-! Path searches: `padvance_magic` of `exec.c`. -/
namespace Bootsh

/-- The path of `command -p`. -/
def defpath : Text := "/usr/sbin:/usr/bin:/sbin:/bin".toList

/-- The function `prefix`: what follows `p` in `s`. -/
def afterPrefix (s p : Text) : Option Text :=
  if p.isPrefixOf s then some (s.drop p.length) else none

def skipPercent : Text → Text
  | '%' :: s => s
  | s => s

/-- What follows the option at `opt`, if it is a legal one. -/
def legalPathopt (opt term : Text) (magic : ℕ) : Option Text :=
  match magic with
  | 0 => none
  | 1 => ((afterPrefix opt "builtin".toList).or (afterPrefix opt "func".toList)).map skipPercent
  | _ => some (skipPercent (opt.dropWhile fun c => !term.contains c))

/-- A step of a path search: what is left of the path before and after it, the name
that it makes, and `pathopt`. -/
structure Expansion where
  start : Text
  fullname : Text
  pathopt : Option Text
  rest : Option Text
  deriving DecidableEq, Repr

/-- An option at the front of an entry, where the entry goes on, and what ends it. -/
def leadingOpt (start : Text) (magic : ℕ) : Option Text × Text × Text :=
  match start with
  | '%' :: opt => match legalPathopt opt ['%', ':'] magic with
    | some p => (some opt, p, [':'])
    | none => (none, start, ['%', ':'])
  | _ => (none, start, ['%', ':'])

/-- The directory of an entry, its option, and what is left of the path. -/
def trailingOpt (lpathopt : Option Text) (start term : Text) (magic : ℕ) :
    Text × Option Text × Text :=
  let dir := start.takeWhile fun c => !term.contains c
  match start.dropWhile fun c => !term.contains c with
  | '%' :: opt =>
    let p := opt.dropWhile (· ≠ ':')
    match legalPathopt opt term magic with
    | some _ => (dir, some opt, p)
    | none => (dir ++ '%' :: opt.takeWhile (· ≠ ':'), lpathopt, p)
  | p => (dir, lpathopt, p)

def afterColon : Text → Option Text
  | ':' :: rest => some rest
  | _ => none

/-- One call, for a path that is not `NULL`. -/
def padvanceMagic (path name : Text) (magic : ℕ) : Expansion :=
  let (lpathopt, start, term) := leadingOpt path magic
  let (dir, lpathopt, p) := trailingOpt lpathopt start term magic
  ⟨path, if dir = [] then name else dir ++ '/' :: name, lpathopt, afterColon p⟩

theorem skipPercent_length_le (s : Text) : (skipPercent s).length ≤ s.length := by
  unfold skipPercent
  split <;> simp

theorem afterPrefix_length_le {s p t : Text} (h : afterPrefix s p = some t) :
    t.length ≤ s.length := by
  unfold afterPrefix at h
  split at h
  · obtain rfl := Option.some.inj h
    simp
  · cases h

theorem legalPathopt_length_le {opt term p : Text} {magic : ℕ}
    (h : legalPathopt opt term magic = some p) : p.length ≤ opt.length := by
  unfold legalPathopt at h
  split at h
  · cases h
  · obtain ⟨t, ht, rfl⟩ := Option.map_eq_some_iff.1 h
    apply (skipPercent_length_le t).trans
    rcases Option.or_eq_some_iff.1 ht with ht | ⟨-, ht⟩
    · exact afterPrefix_length_le ht
    · exact afterPrefix_length_le ht
  · obtain rfl := Option.some.inj h
    exact (skipPercent_length_le _).trans (List.dropWhile_sublist _).length_le

theorem leadingOpt_length_le (start : Text) (magic : ℕ) :
    (leadingOpt start magic).2.1.length ≤ start.length := by
  unfold leadingOpt
  split
  · split
    case h_1 h =>
      have := legalPathopt_length_le h
      simp
      omega
    case h_2 => simp
  · simp

theorem trailingOpt_length_le (lpathopt : Option Text) (start term : Text) (magic : ℕ) :
    (trailingOpt lpathopt start term magic).2.2.length ≤ start.length := by
  have hle := (@List.dropWhile_sublist _ start fun c => !term.contains c).length_le
  unfold trailingOpt
  dsimp only
  split
  case h_1 opt h =>
    rw [h, List.length_cons] at hle
    have := (@List.dropWhile_sublist _ opt (· ≠ ':')).length_le
    split <;> dsimp only <;> omega
  case h_2 => exact hle

theorem afterColon_length {p rest : Text} (h : afterColon p = some rest) :
    rest.length < p.length := by
  unfold afterColon at h
  split at h
  · obtain rfl := Option.some.inj h
    simp
  · cases h

/-- What is left of a path is shorter. -/
theorem padvanceMagic_rest_length {path name rest : Text} {magic : ℕ}
    (h : (padvanceMagic path name magic).rest = some rest) : rest.length < path.length := by
  have h₁ := leadingOpt_length_le path magic
  have h₂ := trailingOpt_length_le (leadingOpt path magic).1 (leadingOpt path magic).2.1
    (leadingOpt path magic).2.2 magic
  have h₃ := afterColon_length h
  exact h₃.trans_le (h₂.trans h₁)

/-- The successive calls. -/
def expansions (name : Text) (magic : ℕ) (path : Text) : List Expansion :=
  let a := padvanceMagic path name magic
  match _h : a.rest with
  | none => [a]
  | some rest => a :: expansions name magic rest
termination_by path.length
decreasing_by exact padvanceMagic_rest_length _h

end Bootsh
