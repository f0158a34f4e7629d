import Bootsh.Lib.Munch
import Bootsh.Samu.Env

/-!
The syntax of strings in build manifests, and that `scanstring` reads what it says.
-/
namespace Bootsh.Samu.Manifest

/-- A byte of literal text, or a variable. -/
inductive Item where
  | lit (c : Char)
  | ref (v : Text)
  deriving DecidableEq, Repr

def Item.value (lookup : Text → Option Text) : Item → Text
  | .lit c => [c]
  | .ref v => (lookup v).getD []

/-! ### The syntax -/

inductive Newline : Text → Prop
  | lf : Newline ['\n']
  | crlf : Newline ['\r', '\n']

inductive Blank : Text → Prop
  | space : Blank [' ']
  | continuation {n : Text} : Newline n → Blank ('$' :: n)

/-- A blank or a continuation, be it a bad one. -/
def BeginsBlank (t : Text) : Prop :=
  t.head? = some ' ' ∨ ∃ u, t = '$' :: u ∧ (u.head? = some '\r' ∨ u.head? = some '\n')

/-- Blanks and continuations before `t`, all that there are. -/
inductive Blanks : Text → Text → Prop
  | nil {t : Text} : ¬ BeginsBlank t → Blanks t t
  | cons {b s t : Text} : Blank b → Blanks s t → Blanks (b ++ s) t

/-- Where a string ends. -/
def Ends (path : Bool) (s : Text) : Prop := ∀ c, s.head? = some c → endsString path c

/-- The items that are written before `r`. The names between braces are the `names`. -/
inductive Writes (names : Text → Prop) (path : Bool) : Text → List Item → Text → Prop
  | done {r : Text} : Ends path r → Writes names path r [] r
  | plain {c : Char} {s r : Text} {is : List Item} : c ≠ '$' → endsString path c = false →
      Writes names path s is r → Writes names path (c :: s) (.lit c :: is) r
  | escaped {c : Char} {s r : Text} {is : List Item} : c ∈ ['$', ' ', ':'] →
      Writes names path s is r → Writes names path ('$' :: c :: s) (.lit c :: is) r
  | braces {v s r : Text} {is : List Item} : names v → (∀ c ∈ v, isvar c) →
      Writes names path s is r → Writes names path ('$' :: '{' :: v ++ '}' :: s) (.ref v :: is) r
  | simple {v s r : Text} {is : List Item} : v ≠ [] → (∀ c ∈ v, issimplevar c) →
      (∀ c, s.head? = some c → issimplevar c = false) →
      Writes names path s is r → Writes names path ('$' :: v ++ s) (.ref v :: is) r
  | continued {n s t r : Text} {is : List Item} : Newline n → Blanks s t →
      Writes names path t is r → Writes names path ('$' :: n ++ s) is r

/-- The string with the blanks that belong to it before `r`. -/
def Written (names : Text → Prop) (path : Bool) (s : Text) (is : List Item) (r : Text) : Prop :=
  if path then ∃ t, Writes names path s is t ∧ Blanks t r else Writes names path s is r

/-- What is a name of a variable. -/
def IsVarName (v : Text) : Prop := v ≠ []

/-! ### Blanks -/

theorem newline_some {s t : Text} : newline s = .ok (some t) ↔ ∃ n, Newline n ∧ s = n ++ t := by
  constructor
  · intro h
    unfold newline at h
    split at h <;> cases h
    · exact ⟨_, .crlf, rfl⟩
    · exact ⟨_, .lf, rfl⟩
  · rintro ⟨n, hn, rfl⟩
    cases hn <;> rfl

theorem newline_none {s : Text} :
    newline s = .ok none ↔ ¬ (s.head? = some '\r' ∨ s.head? = some '\n') := by
  unfold newline
  split
  · simp
  · simp
  · simp
  · rename_i s _ hcr hlf
    refine iff_of_true rfl ?_
    rintro (h | h)
    · obtain ⟨t, rfl⟩ := List.head?_eq_some_iff.mp h
      exact hcr t rfl
    · obtain ⟨t, rfl⟩ := List.head?_eq_some_iff.mp h
      exact hlf t rfl

theorem singlespace_some {s t : Text} :
    singlespace s = .ok (some t) ↔ ∃ b, Blank b ∧ s = b ++ t := by
  constructor
  · intro h
    unfold singlespace at h
    split at h
    · obtain ⟨n, hn, rfl⟩ := newline_some.mp h
      exact ⟨_, .continuation hn, rfl⟩
    · cases h
      exact ⟨_, .space, rfl⟩
    · cases h
  · rintro ⟨b, hb, rfl⟩
    cases hb with
    | space => rfl
    | continuation hn => exact newline_some.mpr ⟨_, hn, rfl⟩

theorem singlespace_none {s : Text} : singlespace s = .ok none ↔ ¬ BeginsBlank s := by
  unfold singlespace BeginsBlank
  split
  · rw [newline_none]
    simp
  · simp
  · rename_i hdollar hspace
    refine iff_of_true rfl ?_
    rintro (h | ⟨u, rfl, -⟩)
    · obtain ⟨t, rfl⟩ := List.head?_eq_some_iff.mp h
      exact hspace t rfl
    · exact hdollar u rfl

theorem spaces_iff {s t : Text} : spaces s = .ok t ↔ Blanks s t := by
  constructor
  · intro h
    induction s using spaces.induct with
    | case1 s e hs =>
      rw [spaces_eq, hs] at h
      cases h
    | case2 s hs =>
      rw [spaces_eq, hs] at h
      cases h
      exact .nil (singlespace_none.mp hs)
    | case3 s r hs ih =>
      rw [spaces_eq, hs] at h
      obtain ⟨b, hb, rfl⟩ := singlespace_some.mp hs
      exact .cons hb (ih h)
  · intro h
    induction h with
    | nil hno => rw [spaces_eq, singlespace_none.mpr hno, Except.bind]
    | cons hb _ ih =>
      rw [spaces_eq, singlespace_some.mpr ⟨_, hb, rfl⟩]
      exact ih

theorem space_iff {s t : Text} : (∃ b, space s = .ok (b, t)) ↔ Blanks s t := by
  rw [← spaces_iff, space_eq]
  cases spaces s with
  | error e => simp [Except.map]
  | ok u =>
    constructor
    · rintro ⟨b, h⟩
      cases h
      rfl
    · intro h
      cases h
      exact ⟨_, rfl⟩

/-! ### What the parts of a string mean -/

def Part.items (p : Part) : List Item :=
  match p.var with
  | some v => [.ref v]
  | none => (p.str.getD []).map .lit

def items (str : EvalString) : List Item := str.flatMap Part.items

theorem enveval_items {envs : List Environment} {env : EnvRef} {str : EvalString} :
    enveval envs env str = (items str).flatMap (Item.value (envvar envs env)) := by
  rw [enveval, merge, items, List.flatMap_map, List.flatMap_assoc]
  congr 1
  funext p
  obtain ⟨_ | v, str⟩ := p
  · simp only [Part.items, Part.eval]
    induction str.getD [] with
    | nil => rfl
    | cons c t ih => rw [List.map_cons, List.flatMap_cons, ← ih]; rfl
  · simp [Part.items, Part.eval, Item.value]

namespace Parts

def items (p : Parts) : List Item := Manifest.items p.str ++ p.buf.map .lit

@[simp] theorem items_add (p : Parts) (c : Char) : (p.add c).items = p.items ++ [.lit c] := by
  simp [items, add]

theorem items_flush (p : Parts) : Manifest.items p.flush.str = p.items := by
  unfold flush
  split
  case isTrue h => simp [items, h]
  case isFalse h => simp [items, addstringpart, Manifest.items, Part.items]

@[simp] theorem items_addvar (p : Parts) (v : Text) :
    (p.flush.addvar v).items = p.items ++ [.ref v] := by
  rw [items, addvar, addstringpart, ← items_flush]
  simp [Manifest.items, Part.items]

end Parts
/-! ### The reader -/

/-- What `escape` reads. -/
theorem escape_reads {p q : Parts} {s t : Text} (h : escape p s = .ok (q, t)) :
    (∃ c ∈ ['$', ' ', ':'], s = c :: t ∧ q = p.add c) ∨
    (∃ v, (∀ c ∈ v, isvar c) ∧ s = '{' :: v ++ '}' :: t ∧ q = p.flush.addvar v) ∨
    (∃ v, v ≠ [] ∧ (∀ c ∈ v, issimplevar c) ∧ (∀ c, t.head? = some c → issimplevar c = false) ∧
      s = v ++ t ∧ q = p.flush.addvar v) ∨
    ∃ n u, Newline n ∧ Blanks u t ∧ s = n ++ u ∧ q = p := by
  unfold escape at h
  split at h
  · cases h
    exact .inl ⟨_, by simp, rfl, rfl⟩
  · cases h
    exact .inl ⟨_, by simp, rfl, rfl⟩
  · cases h
    exact .inl ⟨_, by simp, rfl, rfl⟩
  · rename_i s
    split at h
    · rename_i hrest
      cases h
      refine .inr (.inl ⟨_, fun c hc => List.mem_takeWhile_imp hc, ?_, rfl⟩)
      rw [← hrest, List.cons_append, List.takeWhile_append_dropWhile]
    · cases h
  · cases hn : newline s with
    | error e => simp [hn, bind, Except.bind] at h
    | ok o =>
      cases o with
      | some u =>
        obtain ⟨n, hnew, rfl⟩ := newline_some.mp hn
        cases hb : spaces u with
        | error e => simp [hn, hb, bind, Except.bind] at h
        | ok v =>
          simp only [hn, hb, bind, Except.bind, pure, Except.pure] at h
          cases h
          exact .inr (.inr (.inr ⟨n, u, hnew, spaces_iff.mp hb, rfl, rfl⟩))
      | none =>
        simp only [hn, bind, Except.bind] at h
        split at h
        · cases h
        · rename_i hne
          cases h
          refine .inr (.inr (.inl ⟨_, hne, fun c hc => List.mem_takeWhile_imp hc,
            fun c hc => Munch.head?_dropWhile hc, ?_, rfl⟩))
          rw [List.takeWhile_append_dropWhile]

theorem escape_char {p : Parts} {c : Char} {s : Text} (h : c ∈ ['$', ' ', ':']) :
    escape p (c :: s) = .ok (p.add c, s) := by
  simp only [List.mem_cons, List.not_mem_nil, or_false] at h
  rcases h with rfl | rfl | rfl <;> rfl

theorem escape_braces {p : Parts} {v s : Text} (h : ∀ c ∈ v, isvar c) :
    escape p ('{' :: v ++ '}' :: s) = .ok (p.flush.addvar v, s) := by
  have hstop : ∀ c, ('}' :: s).head? = some c → isvar c = false := by
    intro c hc
    cases hc
    rfl
  rw [List.cons_append, escape]
  simp only [Munch.dropWhile_stop h hstop, Munch.takeWhile_stop h hstop]

theorem escape_continued {p : Parts} {n s t : Text} (hn : Newline n) (hs : Blanks s t) :
    escape p (n ++ s) = .ok (p, t) := by
  have hescape : escape p (n ++ s) = (spaces s).bind fun t => .ok (p, t) := by
    cases hn <;> rfl
  rw [hescape, spaces_iff.mpr hs]
  rfl

theorem escape_simple {p : Parts} {v s : Text} (hne : v ≠ []) (h : ∀ c ∈ v, issimplevar c)
    (hstop : ∀ c, s.head? = some c → issimplevar c = false) :
    escape p (v ++ s) = .ok (p.flush.addvar v, s) := by
  cases v with
  | nil => exact absurd rfl hne
  | cons c v =>
    have hc : issimplevar c := h c (by simp)
    have hnewline : newline (c :: v ++ s) = .ok none := by
      refine newline_none.mpr ?_
      rintro (heq | heq) <;> cases heq <;> cases hc
    have htake := Munch.takeWhile_stop h hstop
    have hdrop := Munch.dropWhile_stop h hstop
    unfold escape
    split
    · rename_i heq
      cases heq
      cases hc
    · rename_i heq
      cases heq
      cases hc
    · rename_i heq
      cases heq
      cases hc
    · rename_i heq
      cases heq
      cases hc
    · simp only [hnewline, htake, hdrop, bind, Except.bind]
      rfl

theorem scanparts_dollar {path : Bool} {p q : Parts} {s t : Text}
    (h : escape p s = .ok (q, t)) : scanparts path p ('$' :: s) = scanparts path q t := by
  rw [scanparts]
  split <;> simp_all

/-- What is read is what is written. -/
theorem scanparts_sound {path : Bool} {p q : Parts} {s t : Text}
    (h : scanparts path p s = .ok (q, t)) :
    ∃ is, Writes (fun _ => True) path s is t ∧ q.items = p.items ++ is := by
  induction p, s using scanparts.induct path with
  | case1 p =>
    rw [scanparts] at h
    cases h
    exact ⟨[], .done (by simp [Ends]), (List.append_nil _).symm⟩
  | case2 p s e he =>
    rw [scanparts] at h
    split at h <;> simp_all
  | case3 p s p' s' hesc ih =>
    rw [scanparts_dollar hesc] at h
    obtain ⟨is, hwrites, hitems⟩ := ih h
    rcases escape_reads hesc with ⟨c, hc, rfl, rfl⟩ | ⟨v, hv, rfl, rfl⟩ |
      ⟨v, hne, hv, hstop, rfl, rfl⟩ | ⟨n, u, hn, hu, rfl, rfl⟩
    · exact ⟨_, .escaped hc hwrites, by simp [hitems]⟩
    · exact ⟨_, .braces trivial hv hwrites, by simp [hitems]⟩
    · exact ⟨_, .simple hne hv hstop hwrites, by simp [hitems]⟩
    · exact ⟨_, .continued hn hu hwrites, hitems⟩
  | case4 p c s hc hends =>
    rw [scanparts, if_pos hends] at h
    · cases h
      refine ⟨[], .done ?_, (List.append_nil _).symm⟩
      intro d hd
      cases hd
      exact hends
    · exact hc
  | case5 p c s hc hends ih =>
    rw [scanparts, if_neg hends] at h
    · obtain ⟨is, hwrites, hitems⟩ := ih h
      exact ⟨_, .plain hc (by simpa using hends) hwrites, by simp [hitems]⟩
    · exact hc

/-- What is written is read. -/
theorem scanparts_complete {path : Bool} {names : Text → Prop} {s t : Text} {is : List Item}
    (h : Writes names path s is t) (p : Parts) :
    ∃ q, scanparts path p s = .ok (q, t) ∧ q.items = p.items ++ is := by
  induction h generalizing p with
  | @done r hends =>
    refine ⟨p, ?_, (List.append_nil _).symm⟩
    cases r with
    | nil => rw [scanparts]
    | cons c r =>
      have hc : endsString path c := hends c rfl
      rw [scanparts, if_pos hc]
      rintro rfl
      cases path <;> cases hc
  | @plain c s r is hne hends _ ih =>
    obtain ⟨q, hq, hitems⟩ := ih (p.add c)
    refine ⟨q, ?_, by simp [hitems]⟩
    rw [scanparts, if_neg (by simp [hends]), hq]
    exact hne
  | @escaped c s r is hc _ ih =>
    obtain ⟨q, hq, hitems⟩ := ih (p.add c)
    exact ⟨q, (scanparts_dollar (escape_char hc)).trans hq, by simp [hitems]⟩
  | braces _ hv _ ih =>
    obtain ⟨q, hq, hitems⟩ := ih (p.flush.addvar _)
    exact ⟨q, (scanparts_dollar (escape_braces hv)).trans hq, by simp [hitems]⟩
  | simple hne hv hstop _ ih =>
    obtain ⟨q, hq, hitems⟩ := ih (p.flush.addvar _)
    exact ⟨q, (scanparts_dollar (escape_simple hne hv hstop)).trans hq, by simp [hitems]⟩
  | continued hn hs _ ih =>
    obtain ⟨q, hq, hitems⟩ := ih p
    exact ⟨q, (scanparts_dollar (escape_continued hn hs)).trans hq, hitems⟩

theorem scanstring_sound {path : Bool} {s t : Text} {str : EvalString}
    (h : scanstring path s = .ok (str, t)) : Written (fun _ => True) path s (items str) t := by
  unfold scanstring at h
  cases hp : scanparts path ⟨[], []⟩ s with
  | error e => simp [hp, bind, Except.bind] at h
  | ok o =>
    obtain ⟨q, u⟩ := o
    obtain ⟨is, hwrites, hitems⟩ := scanparts_sound hp
    have hstr : items q.flush.str = is := (Parts.items_flush q).trans hitems
    cases path with
    | false =>
      simp only [hp, bind, Except.bind] at h
      cases h
      rw [hstr]
      exact hwrites
    | true =>
      cases hb : space u with
      | error e => simp [hp, hb, bind, Except.bind] at h
      | ok o =>
        simp only [hp, hb, bind, Except.bind] at h
        cases h
        rw [hstr]
        exact ⟨u, hwrites, space_iff.mp ⟨_, hb⟩⟩

theorem scanstring_complete {path : Bool} {names : Text → Prop} {s t : Text} {is : List Item}
    (h : Written names path s is t) :
    ∃ str, scanstring path s = .ok (str, t) ∧ items str = is := by
  unfold scanstring
  cases path with
  | false =>
    obtain ⟨q, hq, hitems⟩ := scanparts_complete h ⟨[], []⟩
    refine ⟨q.flush.str, ?_, (Parts.items_flush q).trans hitems⟩
    simp only [hq, bind, Except.bind]
    rfl
  | true =>
    obtain ⟨u, hwrites, hblanks⟩ := h
    obtain ⟨q, hq, hitems⟩ := scanparts_complete hwrites ⟨[], []⟩
    obtain ⟨b, hb⟩ := space_iff.mpr hblanks
    refine ⟨q.flush.str, ?_, (Parts.items_flush q).trans hitems⟩
    simp only [hq, hb, bind, Except.bind]
    rfl

/-! ### Exactness -/

theorem Writes.named {names names' : Text → Prop} {path : Bool} {s t : Text} {is : List Item}
    (h : Writes names path s is t) (hnames : ∀ v, .ref v ∈ is → names v → names' v) :
    Writes names' path s is t := by
  induction h with
  | done hends => exact .done hends
  | plain hne hends _ ih => exact .plain hne hends (ih fun v hv => hnames v (by simp [hv]))
  | escaped hc _ ih => exact .escaped hc (ih fun v hv => hnames v (by simp [hv]))
  | braces hname hv _ ih =>
    exact .braces (hnames _ (by simp) hname) hv (ih fun v hv => hnames v (by simp [hv]))
  | simple hne hv hstop _ ih =>
    exact .simple hne hv hstop (ih fun v hv => hnames v (by simp [hv]))
  | continued hn hs _ ih => exact .continued hn hs (ih hnames)

theorem Writes.isVarName {path : Bool} {s t : Text} {is : List Item}
    (h : Writes IsVarName path s is t) {v : Text} (hv : .ref v ∈ is) : IsVarName v := by
  induction h with
  | done _ => cases hv
  | plain _ _ _ ih => exact ih (by simpa using hv)
  | escaped _ _ ih => exact ih (by simpa using hv)
  | braces hname _ _ ih =>
    rcases List.mem_cons.mp hv with heq | hmem
    · cases heq
      exact hname
    · exact ih hmem
  | simple hne _ _ _ ih =>
    rcases List.mem_cons.mp hv with heq | hmem
    · cases heq
      exact hne
    · exact ih hmem
  | continued _ _ _ ih => exact ih hv

theorem Written.named {names names' : Text → Prop} {path : Bool} {s t : Text} {is : List Item}
    (h : Written names path s is t) (hnames : ∀ v, .ref v ∈ is → names v → names' v) :
    Written names' path s is t := by
  cases path with
  | false => exact Writes.named h hnames
  | true =>
    obtain ⟨u, hwrites, hblanks⟩ := h
    exact ⟨u, hwrites.named hnames, hblanks⟩

theorem Written.isVarName {path : Bool} {s t : Text} {is : List Item}
    (h : Written IsVarName path s is t) {v : Text} (hv : .ref v ∈ is) : IsVarName v := by
  cases path with
  | false => exact Writes.isVarName h hv
  | true =>
    obtain ⟨u, hwrites, -⟩ := h
    exact hwrites.isVarName hv

/-- The text is read as the syntax says: with the value that the parts have in any environment,
and not at all where it is written otherwise. -/
structure ScannedExactly (path : Bool) (s : Text) : Prop where
  reads : ∀ is t, Written IsVarName path s is t →
    ∃ str, scanstring path s = .ok (str, t) ∧
      ∀ envs env, enveval envs env str = is.flatMap (Item.value (envvar envs env))
  rejects : (∀ is t, ¬ Written IsVarName path s is t) → ∃ e, scanstring path s = .error e

/-- `${}` stands where a variable can stand, in a text that is well written otherwise. -/
def EmptyBraces (path : Bool) (s : Text) : Prop :=
  ∃ is t, Written (fun _ => True) path s is t ∧ .ref [] ∈ is

/-- A string is scanned exactly if and only if it has no `${}`. -/
theorem scanstring_exact_iff (path : Bool) (s : Text) :
    ScannedExactly path s ↔ ¬ EmptyBraces path s := by
  constructor
  · rintro ⟨-, hrejects⟩ ⟨is, t, hwritten, hempty⟩
    obtain ⟨str, hread, hitems⟩ := scanstring_complete hwritten
    have hno : ∀ is' t', ¬ Written IsVarName path s is' t' := by
      intro is' t' hwritten'
      obtain ⟨str', hread', hitems'⟩ := scanstring_complete hwritten'
      rw [hread] at hread'
      cases hread'
      rw [← hitems, hitems'] at hempty
      exact hwritten'.isVarName hempty rfl
    obtain ⟨e, he⟩ := hrejects hno
    rw [hread] at he
    cases he
  · intro hbraces
    refine ⟨fun is t hwritten => ?_, fun hno => ?_⟩
    · obtain ⟨str, hread, hitems⟩ := scanstring_complete hwritten
      exact ⟨str, hread, fun envs env => by rw [enveval_items, hitems]⟩
    · cases hread : scanstring path s with
      | error e => exact ⟨e, rfl⟩
      | ok o =>
        obtain ⟨str, t⟩ := o
        have hwritten := scanstring_sound hread
        refine absurd (hwritten.named fun v hv _ => ?_) (hno (items str) t)
        rintro rfl
        exact hbraces ⟨_, _, hwritten, hv⟩

/-- `${}` is read, as a variable without a name. -/
theorem scanstring_empty_braces : ¬ ScannedExactly false ['$', '{', '}'] := by
  rintro ⟨-, hrejects⟩
  have hread : scanstring false ['$', '{', '}'] = .ok ([⟨some [], none⟩], []) := by
    have hescape : escape ⟨[], []⟩ ['{', '}'] = .ok (⟨[], [⟨some [], none⟩]⟩, []) := rfl
    rw [scanstring, scanparts_dollar hescape, scanparts]
    rfl
  have hno : ∀ is t, ¬ Written IsVarName false ['$', '{', '}'] is t := by
    intro is t hwritten
    obtain ⟨str, hread', hitems⟩ := scanstring_complete hwritten
    rw [hread] at hread'
    cases hread'
    have hempty : .ref [] ∈ is := by rw [← hitems]; decide
    exact hwritten.isVarName hempty rfl
  obtain ⟨e, he⟩ := hrejects hno
  rw [hread] at he
  cases he

end Bootsh.Samu.Manifest
