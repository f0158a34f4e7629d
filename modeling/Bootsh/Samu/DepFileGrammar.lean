import Bootsh.Samu.DepFile
import Mathlib.Algebra.Group.Even
import Mathlib.Algebra.Ring.Parity

/-!
The depfiles that compilers write: rules for one target, with the paths escaped as GNU make
reads them.
-/
namespace Bootsh.Samu.DepFile

/-! ### Paths -/

/-- What is escaped: before a blank `n` backslashes of the path are doubled. -/
def escape : ℕ → Text → Text
  | n, [] => List.replicate n '\\'
  | n, c :: p =>
    if c = '\\' then escape (n + 1) p
    else if isblank c then List.replicate (2 * n + 1) '\\' ++ c :: escape 0 p
    else if c = '#' then List.replicate (n + 1) '\\' ++ c :: escape 0 p
    else if c = '$' then List.replicate n '\\' ++ '$' :: '$' :: escape 0 p
    else List.replicate n '\\' ++ c :: escape 0 p

/-- The backslashes at the end of a path, `n` of them before it. -/
def trailing : ℕ → Text → ℕ
  | n, [] => n
  | n, c :: p => if c = '\\' then trailing (n + 1) p else trailing 0 p

/-- A character that stands for itself in a path. -/
def Letter (nul : Bool) (c : Char) : Prop :=
  c.isAlphanum ∨ c ∈ "+,-./@_".toList ∨ nul ∧ c = '\x00'

/-- The alphabet of the paths. -/
def Word (nul : Bool) (p : Text) : Prop :=
  ∀ c ∈ p, Letter nul c ∨ c = '$' ∨ c = '\\' ∨ c = '#' ∨ isblank c

/-- No text has a path with backslashes at its end before these: a blank after an odd number of
them and a line end are escaped. -/
def Fits (p t : Text) : Prop :=
  ∀ c ∈ t.head?, (isblank c → Even (trailing 0 p)) ∧ (c = '\n' ∨ c = '\r' → trailing 0 p = 0)

/-! ### Files -/

inductive Eol (crlf : Bool) : Text → Prop
  | lf : Eol crlf ['\n']
  | crlf (h : crlf) : Eol crlf ['\r', '\n']

/-- Blanks and escaped line ends. -/
inductive Gap (crlf : Bool) : Text → Prop
  | nil : Gap crlf []
  | blank {c : Char} {g : Text} (hc : isblank c) (hg : Gap crlf g) : Gap crlf (c :: g)
  | continued {e g : Text} (he : Eol crlf e) (hg : Gap crlf g) : Gap crlf ('\\' :: (e ++ g))

/-- A line end, and empty lines. -/
inductive Lines (crlf : Bool) : Text → Prop
  | last {e : Text} (he : Eol crlf e) : Lines crlf e
  | more {e l : Text} (he : Eol crlf e) (hl : Lines crlf l) : Lines crlf (e ++ l)

/-- What stands between a target and its colon. -/
def Before (crlf : Bool) (p t : Text) : Prop :=
  ∃ b : Text, (∀ c ∈ b, isblank c) ∧ (t = b ∧ Fits p b ∨ ∃ e, Eol crlf e ∧ t = '\\' :: (e ++ b))

/-- `s` begins after a gap. -/
def AfterGap (escapeFirst : Bool) (s : Text) : Prop :=
  ∀ c f, s = c :: f →
    ¬ isblank c ∧ (c = '\\' → escapeFirst ∧ f.head? ≠ some '\n' ∧ f.head? ≠ some '\r')

/-- What counts as a depfile: whether a NUL is a letter, a line may end with CR and LF, a path
may begin with a backslash, an escaped blank or an escaped `#`, and the last target may lack its
colon. -/
structure Dialect where
  nul : Bool
  crlf : Bool
  escapeFirst : Bool
  bare : Bool

/-- The rest `s` of a depfile gives the paths `ds`, up to an end that `E` describes. The first
target was `out`, and `sawcolon` says whether `s` stands among the dependencies of a rule. -/
inductive Reads (d : Dialect) (E : Bool → Text → List Text → Prop) :
    Option Text → Bool → Text → List Text → Prop
  | stop {out : Option Text} {sawcolon : Bool} {s : Text} {ds : List Text}
      (h : E sawcolon s ds) : Reads d E out sawcolon s ds
  | target {out : Option Text} {p t g s : Text} {ds : List Text} (hp : Word d.nul p)
      (hout : out = none ∨ out = some p) (ht : Before d.crlf p t) (hg : Gap d.crlf g)
      (hs : AfterGap d.escapeFirst s) (hrest : Reads d E (some p) true s ds) :
      Reads d E out false (escape 0 p ++ (t ++ ':' :: (g ++ s))) ds
  | dep {out : Option Text} {p g s : Text} {ds : List Text} (hp : Word d.nul p) (hne : p ≠ [])
      (hg : Gap d.crlf g) (hgne : g ≠ []) (hfits : Fits p g) (hs : AfterGap d.escapeFirst s)
      (hrest : Reads d E out true s ds) : Reads d E out true (escape 0 p ++ (g ++ s)) (p :: ds)
  | line {out : Option Text} {p l g s : Text} {ds : List Text} (hp : Word d.nul p)
      (hl : Lines d.crlf l) (hfits : Fits p l) (hg : Gap d.crlf g)
      (hs : AfterGap d.escapeFirst s) (hlf : (g ++ s).head? ≠ some '\n')
      (hrest : Reads d E out false s ds) :
      Reads d E out true (escape 0 p ++ (l ++ (g ++ s))) (if p = [] then ds else p :: ds)

/-- The end of a depfile. -/
def End (d : Dialect) (sawcolon : Bool) (s : Text) (ds : List Text) : Prop :=
  if sawcolon then ∃ p, Word d.nul p ∧ s = escape 0 p ∧ ds = if p = [] then [] else [p]
  else ds = [] ∧ ∃ p t, Word d.nul p ∧ (p ≠ [] → d.bare) ∧ Before d.crlf p t ∧ s = escape 0 p ++ t

/-- `s` is a depfile with the paths `ds`. -/
def Depfile (d : Dialect) (s : Text) (ds : List Text) : Prop := Reads d (End d) none false s ds

/-- A depfile. -/
def Dialect.gcc : Dialect := ⟨false, true, true, false⟩

/-- A depfile with LF line ends, where no path behind a gap begins with a backslash. -/
def Dialect.plain : Dialect := ⟨false, false, false, false⟩

/-- Here a NUL is a letter as well, and the last target needs no colon. -/
def Dialect.lax : Dialect := ⟨true, false, false, true⟩

/-- White space at which the parser does not move on. -/
def StuckEnd (sawcolon : Bool) (s : Text) (_ : List Text) : Prop :=
  sawcolon ∧ ∃ p c t, Word true p ∧ (c = '\r' ∨ c = '\x0b' ∨ c = '\x0c') ∧ s = escape 0 p ++ c :: t

/-- After a rule's colon there is a CR, VT or FF where a path may end, and up to there `s` is a
depfile. -/
def Stuck (s : Text) : Prop := ∃ ds, Reads Dialect.lax StuckEnd none false s ds

/-! ### Escapes -/

variable {n : ℕ} {c : Char} {p t : Text}

theorem escape_slashes (n m : ℕ) (p : Text) :
    escape n (List.replicate m '\\' ++ p) = escape (n + m) p := by
  induction m generalizing n with
  | zero => rfl
  | succ m ih =>
    rw [List.replicate_succ, List.cons_append, escape, if_pos rfl, ih]
    congr 1
    omega

theorem trailing_slashes (n m : ℕ) (p : Text) :
    trailing n (List.replicate m '\\' ++ p) = trailing (n + m) p := by
  induction m generalizing n with
  | zero => rfl
  | succ m ih =>
    rw [List.replicate_succ, List.cons_append, trailing, if_pos rfl, ih]
    congr 1
    omega

theorem trailing_cons (hc : c ≠ '\\') : trailing n (c :: p) = trailing 0 p := by
  rw [trailing, if_neg hc]

theorem escape_blank (hc : isblank c) :
    escape n (c :: p) = List.replicate (2 * n + 1) '\\' ++ c :: escape 0 p := by
  have hne : c ≠ '\\' := by
    rintro rfl
    exact absurd hc (by decide)
  rw [escape, if_neg hne, if_pos hc]

theorem escape_hash : escape n ('#' :: p) = List.replicate (n + 1) '\\' ++ '#' :: escape 0 p := by
  rw [escape, if_neg (by decide), if_neg (by decide), if_pos rfl]

theorem escape_dollar :
    escape n ('$' :: p) = List.replicate n '\\' ++ '$' :: '$' :: escape 0 p := by
  rw [escape, if_neg (by decide), if_neg (by decide), if_neg (by decide), if_pos rfl]

theorem escape_letter (hslash : c ≠ '\\') (hblank : ¬ isblank c) (hhash : c ≠ '#') (hdollar : c ≠ '$') :
    escape n (c :: p) = List.replicate n '\\' ++ c :: escape 0 p := by
  rw [escape, if_neg hslash, if_neg hblank, if_neg hhash, if_neg hdollar]

end Bootsh.Samu.DepFile
