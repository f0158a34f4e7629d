import Bootsh.Samu.DepFileStep

/-!
Which depfiles `depsparse` reads as they were written, and where it does not end.
-/
namespace Bootsh.Samu.DepFile

variable {b : Buffer} {c : Char} {f g p s t : Text} {o : Option Text} {sawcolon : Bool}
variable {a l : List Text} {st st' : State} {n : ℕ}

/-! ### Runs -/

theorem loop_ok (h : step st = .ok st') : loop (n + 1) st = loop n st' := by
  rw [loop, h]

theorem loop_error {r : Result} (h : step st = .error r) : loop (n + 1) st = some r := by
  rw [loop, h]

/-- At a CR, VT or FF the loop goes round for ever. -/
theorem loop_stuck (hc : c = '\r' ∨ c = '\x0b' ∨ c = '\x0c') (n : ℕ) :
    ∀ {p : Text} {a : List Text} {b : Buffer}, Word true p → b.data = [] →
      loop n ⟨o, a, true, b, escape 0 p ++ c :: f⟩ = none := by
  induction n with
  | zero => exact fun _ _ => rfl
  | succ n ih =>
    intro p a b hp hbuf
    obtain ⟨buf', hbuf', hstep⟩ := step_stuck (o := o) (a := a) (f := f) hbuf hp hc
    rw [loop_ok hstep]
    exact ih (p := []) (by simp [Word]) hbuf'

theorem reads_nil {d : Dialect} {E : Bool → Text → List Text → Prop}
    (h : Reads d E o false [] l) : E false [] l := by
  generalize hs : ([] : Text) = s at h
  generalize hsaw : false = sawcolon at h
  cases h with
  | stop h => exact h
  | target => simp at hs
  | dep => cases hsaw
  | line => cases hsaw

/-- A depfile with LF line ends is read, as long as no path behind a gap begins with a
backslash. -/
theorem loop_of_reads (h : Reads Dialect.lax (End Dialect.lax) o sawcolon s l) :
    ∀ (a : List Text) {b : Buffer}, b.data = [] →
      ∃ n, loop n ⟨o, a, sawcolon, b, s⟩ = some (.deps (a ++ l)) := by
  induction h with
  | @stop o sawcolon s l h =>
    intro a b hbuf
    cases sawcolon with
    | false =>
      obtain ⟨rfl, p, t, hp, -, ht, rfl⟩ := h
      exact ⟨1, by rw [loop_error (step_target_end hp ht), List.append_nil]⟩
    | true =>
      obtain ⟨p, hp, rfl, rfl⟩ := h
      exact ⟨1, by rw [loop_error (step_end hbuf hp), ← addPath_append, List.append_nil]⟩
  | target hp hout ht hg hs _ ih =>
    intro a b hbuf
    obtain ⟨buf', hbuf', hstep⟩ := step_target (a := a) hbuf hp hout ht hg hs
    obtain ⟨n, hn⟩ := ih a hbuf'
    exact ⟨n + 1, by rw [loop_ok hstep, hn]⟩
  | @dep o p _ _ l hp hne hg hgne hfits hs _ ih =>
    intro a b hbuf
    obtain ⟨buf', hbuf', hstep⟩ := step_dep (o := o) (a := a) hbuf hp hne hg hgne hfits hs
    obtain ⟨n, hn⟩ := ih (a ++ [p]) hbuf'
    refine ⟨n + 1, ?_⟩
    rw [loop_ok hstep, hn, List.append_assoc]
    rfl
  | @line o p t g s l hp hl hfits hg hs hlf hrest ih =>
    intro a b hbuf
    by_cases hne : g ++ s = []
    · obtain ⟨rfl, rfl⟩ := List.append_eq_nil_iff.mp hne
      have hl' : l = [] := (reads_nil hrest).1
      refine ⟨1, ?_⟩
      rw [List.append_nil, List.append_nil, loop_error (step_line_end hbuf hp hl hfits), hl',
        ← addPath_append, List.append_nil]
    · obtain ⟨buf', hbuf', hstep⟩ :=
        step_line (o := o) (a := a) hbuf hp hl hfits hg hs hlf hne
      obtain ⟨n, hn⟩ := ih (addPath a p) hbuf'
      exact ⟨n + 1, by rw [loop_ok hstep, hn, addPath_append]⟩

theorem loop_none_of_reads (h : Reads Dialect.lax StuckEnd o sawcolon s l) :
    ∀ (n : ℕ) (a : List Text) {b : Buffer}, b.data = [] →
      loop n ⟨o, a, sawcolon, b, s⟩ = none := by
  induction h with
  | stop h =>
    intro n a b hbuf
    obtain ⟨hsaw, p, c, t, hp, hc, rfl⟩ := h
    rw [hsaw]
    exact loop_stuck hc n hp hbuf
  | target hp hout ht hg hs _ ih =>
    intro n a b hbuf
    obtain ⟨buf', hbuf', hstep⟩ := step_target (a := a) hbuf hp hout ht hg hs
    cases n with
    | zero => rfl
    | succ n => rw [loop_ok hstep, ih n a hbuf']
  | @dep o p _ _ l hp hne hg hgne hfits hs _ ih =>
    intro n a b hbuf
    obtain ⟨buf', hbuf', hstep⟩ := step_dep (o := o) (a := a) hbuf hp hne hg hgne hfits hs
    cases n with
    | zero => rfl
    | succ n => rw [loop_ok hstep, ih n _ hbuf']
  | @line o p t g s l hp hl hfits hg hs hlf hrest ih =>
    intro n a b hbuf
    have hne : g ++ s ≠ [] := by
      intro hne
      obtain ⟨-, rfl⟩ := List.append_eq_nil_iff.mp hne
      exact absurd (reads_nil hrest).1 (by simp)
    obtain ⟨buf', hbuf', hstep⟩ :=
      step_line (o := o) (a := a) hbuf hp hl hfits hg hs hlf hne
    cases n with
    | zero => rfl
    | succ n => rw [loop_ok hstep, ih n _ hbuf']

/-- What is read was a depfile, where a NUL is a letter and the last target needs no colon. -/
theorem reads_of_loop (hready : Ready st) (h : loop n st = some (.deps l)) :
    ∃ l', l = st.deps ++ l' ∧ Reads Dialect.lax (End Dialect.lax) st.out st.sawcolon st.s l' := by
  induction n generalizing st with
  | zero => cases h
  | succ n ih =>
    match hstep : step st with
    | .error r =>
      rw [loop_error hstep] at h
      cases h
      exact step_done hready hstep
    | .ok st' =>
      rcases step_ok hready hstep with ⟨hready', hadv⟩ | hstuck
      · rw [loop_ok hstep] at h
        obtain ⟨l', rfl, hreads⟩ := ih hready' h
        exact hadv.2 _ l' hreads
      · have hreads : Reads Dialect.lax StuckEnd st.out st.sawcolon st.s [] := .stop hstuck
        rw [loop_none_of_reads hreads (n + 1) st.deps hready.empty] at h
        cases h

theorem reads_of_loop_none (hready : Ready st) (h : loop n st = none) (hn : st.s.length < n) :
    ∃ l', Reads Dialect.lax StuckEnd st.out st.sawcolon st.s l' := by
  induction n generalizing st with
  | zero => cases hn
  | succ n ih =>
    match hstep : step st with
    | .error r =>
      rw [loop_error hstep] at h
      cases h
    | .ok st' =>
      rcases step_ok hready hstep with ⟨hready', hadv⟩ | hstuck
      · rw [loop_ok hstep] at h
        obtain ⟨l', hreads⟩ := ih hready' h (by have := hadv.1; omega)
        obtain ⟨l', -, hreads⟩ := hadv.2 _ l' hreads
        exact ⟨l', hreads⟩
      · exact ⟨[], .stop hstuck⟩

/-! ### Depfiles as compilers write them -/

theorem next_plain (hg : Gap true g) (hs : AfterGap true s) (h : st.next (g ++ s) = .ok st') :
    Gap false g ∧ AfterGap false s ∧ st' = { st with buf := st.buf.reset, s := s } := by
  unfold State.next at h
  split at h
  case h_1 => cases h
  case h_2 s' hskip =>
    cases h
    obtain ⟨hg, hs, rfl⟩ := gap_plain hg hs hskip
    exact ⟨hg, hs, rfl⟩

theorem Word.nul (hp : Word false p) : Word true p := by
  intro c hc
  rcases hp c hc with (h | h | h) | h
  · exact .inl (.inl h)
  · exact .inl (.inr (.inl h))
  · exact absurd h.1 (by simp)
  · exact .inr h

theorem word_slash_cr (hp : Word false p) :
    word (escape 0 p ++ '\\' :: '\r' :: f) b =
      some (b.addAll (p ++ ['\\']), '\r' :: f) := by
  have hslash : Word true ['\\'] := Word.slashes 1
  have hstops : Stops (trailing 0 (p ++ ['\\'])) ('\r' :: f) := by
    rintro _ ⟨rfl⟩
    exact ⟨by decide, by simp [isblank], by simp⟩
  have hword := @word_escape_stop b (p ++ ['\\']) ('\r' :: f) true (hp.nul.append hslash) hstops
  rwa [escape_concat_slash, List.append_assoc] at hword

/-- The target of a rule that is read is followed by LF line ends. -/
theorem before_plain {r : Text} (hp : Word false p) (ht : Before true p t)
    (h : step ⟨o, a, false, b, escape 0 p ++ (t ++ r)⟩ ≠ .error .bad) : Before false p t := by
  obtain ⟨w, hw, ⟨rfl, hfits⟩ | ⟨e, he, rfl⟩⟩ := ht
  · exact ⟨t, hw, .inl ⟨rfl, hfits⟩⟩
  · cases he with
    | lf => exact ⟨w, hw, .inr ⟨_, .lf, rfl⟩⟩
    | crlf _ =>
      refine absurd ?_ h
      have hword : word (escape 0 p ++ ('\\' :: (['\r', '\n'] ++ w) ++ r)) b = _ :=
        word_slash_cr (f := '\n' :: (w ++ r)) hp
      unfold step
      dsimp only
      rw [hword]
      rfl

theorem lines_plain (hl : Lines true t) :
    Lines false t ∨ ∃ k f, t = List.replicate k '\n' ++ '\r' :: f := by
  induction hl with
  | last he =>
    cases he with
    | lf => exact .inl (.last .lf)
    | crlf _ => exact .inr ⟨0, _, rfl⟩
  | more he _ ih =>
    cases he with
    | lf =>
      rcases ih with hl | ⟨k, f, rfl⟩
      · exact .inl (.more .lf hl)
      · exact .inr ⟨k + 1, f, rfl⟩
    | crlf _ => exact .inr ⟨0, _, rfl⟩

theorem loop_gap {st₀ : State} (hstep : step st = st₀.next (g ++ s)) (hg : Gap true g)
    (hs : AfterGap true s) (h : loop (n + 1) st = some (.deps l)) :
    Gap false g ∧ AfterGap false s ∧
      loop n { st₀ with buf := st₀.buf.reset, s := s } = some (.deps l) := by
  match hnext : st₀.next (g ++ s) with
  | .error r =>
    rw [loop_error (hstep.trans hnext)] at h
    cases h
    exact absurd hnext (next_ne_deps _ _ _)
  | .ok st' =>
    rw [loop_ok (hstep.trans hnext)] at h
    obtain ⟨hg, hs, rfl⟩ := next_plain hg hs hnext
    exact ⟨hg, hs, h⟩

theorem step_eof : step ⟨o, a, false, b, []⟩ = .error (.deps a) := by
  unfold step
  dsimp only
  rw [word_nil]
  rfl

theorem step_cr : step ⟨o, a, false, b, '\r' :: f⟩ = .error .bad := by
  unfold step
  dsimp only
  rw [word_stop (by decide)]
  rfl

/-- An empty line that ends with CR and LF is no target, and after a path the loop is stuck. -/
theorem loop_line_cr {k : ℕ} (hbuf : b.data = []) (hp : Word false p)
    (hfits : Fits p (List.replicate k '\n' ++ '\r' :: f)) :
    loop n ⟨o, a, true, b, escape 0 p ++ (List.replicate k '\n' ++ ('\r' :: f ++ s))⟩ ≠
      some (.deps l) := by
  intro hloop
  cases k with
  | zero =>
    have hnone := loop_stuck (o := o) (a := a) (f := f ++ s) (.inl rfl) n hp.nul hbuf
    cases hnone.symm.trans hloop
  | succ k =>
    cases n with
    | zero => cases hloop
    | succ n =>
      rw [List.replicate_succ, List.cons_append] at hloop hfits
      have hstops : Stops (trailing 0 p)
          ('\n' :: (List.replicate k '\n' ++ ('\r' :: f ++ s))) := by
        rintro _ ⟨rfl⟩
        have hlast := (hfits '\n' rfl).2 (.inl rfl)
        exact ⟨by decide, by simp [isblank], fun _ => hlast⟩
      have hstep := step_newline (o := o) (a := a) hbuf (word_escape_stop hp.nul hstops)
        (by simp) (by simp)
      have hskip : skip ('\r' :: f ++ s) = some ('\r' :: (f ++ s)) :=
        skip_cons (by decide) (by decide)
      rw [loop_ok (hstep.trans (next_skip hskip))] at hloop
      cases n with
      | zero => cases hloop
      | succ n =>
        rw [loop_error step_cr] at hloop
        cases hloop

/-- A depfile that is read has LF line ends, and no path behind a gap begins with a
backslash. -/
theorem Reads.plain (h : Reads Dialect.gcc (End Dialect.gcc) o sawcolon s l) :
    ∀ {n : ℕ} {a l' : List Text} {b : Buffer}, b.data = [] →
      loop n ⟨o, a, sawcolon, b, s⟩ = some (.deps l') →
        Reads Dialect.plain (End Dialect.plain) o sawcolon s l := by
  induction h with
  | @stop o sawcolon s l h =>
    intro n a l' b hbuf hloop
    cases n with
    | zero => cases hloop
    | succ n =>
      cases sawcolon with
      | true => exact .stop h
      | false =>
        obtain ⟨rfl, p, t, hp, hbare, ht, rfl⟩ := h
        have ht' : Before false p t := by
          refine before_plain (r := []) (o := o) (a := a) (b := b) hp ht ?_
          intro hbad
          rw [List.append_nil] at hbad
          rw [loop_error hbad] at hloop
          cases hloop
        exact .stop ⟨rfl, p, t, hp, hbare, ht', rfl⟩
  | @target o p t g s l hp hout ht hg hs _ ih =>
    intro n a l' b hbuf hloop
    cases n with
    | zero => cases hloop
    | succ n =>
      have ht' : Before false p t := by
        refine before_plain (r := ':' :: (g ++ s)) (o := o) (a := a) (b := b) hp ht ?_
        intro hbad
        rw [loop_error hbad] at hloop
        cases hloop
      obtain ⟨hg, hs, hrest⟩ := loop_gap (step_colon hbuf hp.nul hout ht') hg hs hloop
      exact .target hp hout ht' hg hs (ih rfl hrest)
  | @dep o p g s l hp hne hg hgne hfits hs _ ih =>
    intro n a l' b hbuf hloop
    cases n with
    | zero => cases hloop
    | succ n =>
      have hgap := hg
      cases hg with
      | nil => exact absurd rfl hgne
      | blank hc _ =>
        obtain ⟨hg, hs, hrest⟩ := loop_gap (step_blank hbuf hp.nul hc hfits) hgap hs hloop
        exact .dep hp hne hg hgne hfits hs (ih rfl hrest)
      | @continued e g he hg =>
        cases he with
        | lf =>
          have hstep : step ⟨o, a, true, b, escape 0 p ++ ('\\' :: (['\n'] ++ g) ++ s)⟩ = _ :=
            step_continued (r := g ++ s) hbuf hp.nul
          obtain ⟨hg, hs, hrest⟩ := loop_gap hstep hg hs hloop
          exact .dep hp hne (.continued .lf hg) hgne hfits hs (ih rfl hrest)
        | crlf _ =>
          have hstuck := @loop_stuck '\r' ('\n' :: (g ++ s)) o (.inl rfl) (n + 1) (p ++ ['\\'])
            a b (hp.nul.append (Word.slashes 1)) hbuf
          rw [escape_concat_slash, List.append_assoc] at hstuck
          have hnone := hstuck.symm.trans hloop
          cases hnone
  | @line o p t g s l hp hl hfits hg hs hlf hrest ih =>
    intro n a l' b hbuf hloop
    rcases lines_plain hl with hl | ⟨k, f, rfl⟩
    · cases n with
      | zero => cases hloop
      | succ n =>
        by_cases hne : g ++ s = []
        · obtain ⟨rfl, rfl⟩ := List.append_eq_nil_iff.mp hne
          have hend : loop 1 ⟨o, a, false, b, []⟩ = some (.deps a) := loop_error step_eof
          exact .line hp hl hfits .nil (by simp [AfterGap]) hlf (ih hbuf hend)
        · obtain ⟨k, hword⟩ := word_line (u := g ++ s) (b := b) hp.nul hl hfits
          obtain ⟨hg, hs, hrest⟩ := loop_gap (step_newline hbuf hword hlf hne) hg hs hloop
          exact .line hp hl hfits hg hs hlf (ih rfl hrest)
    · rw [List.append_assoc] at hloop
      exact absurd hloop (loop_line_cr hbuf hp hfits)

theorem End.lax (h : End Dialect.plain sawcolon s l) : End Dialect.lax sawcolon s l := by
  cases sawcolon with
  | true =>
    obtain ⟨p, hp, hs, hl⟩ := h
    exact ⟨p, hp.nul, hs, hl⟩
  | false =>
    obtain ⟨hl, p, t, hp, -, ht, hs⟩ := h
    exact ⟨hl, p, t, hp.nul, fun _ => rfl, ht, hs⟩

theorem Reads.lax (h : Reads Dialect.plain (End Dialect.plain) o sawcolon s l) :
    Reads Dialect.lax (End Dialect.lax) o sawcolon s l := by
  induction h with
  | stop h => exact .stop h.lax
  | target hp hout ht hg hs _ ih => exact .target hp.nul hout ht hg hs ih
  | dep hp hne hg hgne hfits hs _ ih => exact .dep hp.nul hne hg hgne hfits hs ih
  | line hp hl hfits hg hs hlf _ ih => exact .line hp.nul hl hfits hg hs hlf ih

/-! ### The parser -/

/-- `depsparse` returns `r` for a file with the content `s`. -/
def Parses (b : Buffer) (s : Text) (r : Result) : Prop :=
  ∃ n, depsparse n (some s) false b = some r

theorem loop_mono {r : Result} (h : loop n st = some r) (k : ℕ) : loop (n + k) st = some r := by
  induction n generalizing st with
  | zero => cases h
  | succ n ih =>
    rw [Nat.succ_add]
    match hstep : step st with
    | .error r' => rwa [loop_error hstep] at h ⊢
    | .ok st' =>
      rw [loop_ok hstep] at h ⊢
      exact ih h

theorem parses_unique {r r' : Result} (h : Parses b s r) (h' : Parses b s r') : r = r' := by
  obtain ⟨n, hn⟩ := h
  obtain ⟨m, hm⟩ := h'
  have hr := loop_mono hn m
  rw [Nat.add_comm] at hr
  exact Option.some.inj (hr.symm.trans (loop_mono hm n))

/-- The loop ends unless it meets white space that it does not read. -/
theorem parses_iff (b : Buffer) (s : Text) : (∃ r, Parses b s r) ↔ ¬ Stuck s := by
  constructor
  · rintro ⟨r, n, hn⟩ ⟨l, hl⟩
    cases (loop_none_of_reads hl n [] b.reset_data).symm.trans hn
  · intro hstuck
    by_contra hnone
    push Not at hnone
    have hready : Ready ⟨none, [], false, b.reset, s⟩ := ⟨rfl, fun h => by cases h⟩
    refine hstuck (reads_of_loop_none (n := s.length + 1) hready ?_ (Nat.lt_succ_self _))
    match hloop : loop (s.length + 1) ⟨none, [], false, b.reset, s⟩ with
    | none => rfl
    | some r => exact absurd ⟨s.length + 1, hloop⟩ (hnone r)

theorem parses_deps_iff (b : Buffer) (s : Text) (l : List Text) :
    Parses b s (.deps l) ↔ Depfile Dialect.lax s l := by
  constructor
  · rintro ⟨n, hn⟩
    have hready : Ready ⟨none, [], false, b.reset, s⟩ := ⟨rfl, fun h => by cases h⟩
    obtain ⟨l', rfl, hreads⟩ := reads_of_loop hready hn
    exact hreads
  · intro h
    exact loop_of_reads h [] rfl

/-- The parser ends; it returns the paths of a depfile, and for another text it reports a bad
depfile. -/
def Exact (b : Buffer) (s : Text) : Prop :=
  (∃ r, Parses b s r) ∧ (∀ l, Depfile Dialect.gcc s l → Parses b s (.deps l)) ∧
    ((∀ l, ¬ Depfile Dialect.gcc s l) → Parses b s .bad)

/-- A text is read exactly unless there is a CR, VT or FF after a rule's colon, it is a depfile
with CR in its line ends or with a path behind a gap that begins with a backslash, or it is no
depfile but would be one if a NUL were a letter or the last target could lack its colon. -/
theorem depsparse_exact_iff (b : Buffer) (s : Text) :
    Exact b s ↔ ¬ Stuck s ∧ (∀ l, Depfile Dialect.gcc s l → Depfile Dialect.plain s l) ∧
      ((∀ l, ¬ Depfile Dialect.gcc s l) → ∀ l, ¬ Depfile Dialect.lax s l) := by
  constructor
  · rintro ⟨hends, hdeps, hbad⟩
    refine ⟨(parses_iff b s).mp hends, ?_, ?_⟩
    · intro l hl
      obtain ⟨n, hn⟩ := hdeps l hl
      exact hl.plain rfl hn
    · intro hnone l hl
      have hboth := parses_unique (hbad hnone) ((parses_deps_iff b s l).mpr hl)
      cases hboth
  · rintro ⟨hstuck, hplain, hlax⟩
    have hends := (parses_iff b s).mpr hstuck
    refine ⟨hends, ?_, ?_⟩
    · intro l hl
      exact (parses_deps_iff b s l).mpr (hplain l hl).lax
    · intro hnone
      obtain ⟨r, hr⟩ := hends
      cases r with
      | bad => exact hr
      | deps l => exact absurd ((parses_deps_iff b s l).mp hr) (hlax hnone l)

theorem before_nil {crlf : Bool} (p : Text) : Before crlf p [] :=
  ⟨[], by simp, .inl ⟨rfl, by simp [Fits]⟩⟩

theorem afterGap_cons {escapeFirst : Bool} (hblank : ¬ isblank c) (hslash : c ≠ '\\') :
    AfterGap escapeFirst (c :: f) := by
  rintro _ _ ⟨rfl, rfl⟩
  exact ⟨hblank, fun h => absurd h hslash⟩

/-- CR and LF at the end of a line keep the parser from ending, an escaped `#` at the beginning of
a path is refused, and a text without a colon is taken for a depfile. -/
theorem depsparse_not_exact :
    (Depfile Dialect.gcc ['t', ':', ' ', 'a', '\r', '\n'] [['a']] ∧ ¬ ∃ r, Parses Buffer.initial ['t', ':', ' ', 'a', '\r', '\n'] r) ∧
    (Depfile Dialect.gcc ['t', ':', ' ', '\\', '#', 'a', '\n'] [['#', 'a']] ∧
      Parses Buffer.initial ['t', ':', ' ', '\\', '#', 'a', '\n'] .bad) ∧
    Parses Buffer.initial ['t'] (.deps []) := by
  have hword (nul : Bool) (c : Char) (hc : c = 't' ∨ c = 'a') : Word nul [c] := by
    rintro c' hc'
    rw [List.mem_singleton.mp hc']
    rcases hc with rfl | rfl
    · exact .inl (.inl (by decide))
    · exact .inl (.inl (by decide))
  have hhash : Word false ['#', 'a'] := by
    intro c hc
    rcases List.mem_cons.mp hc with rfl | hc
    · exact .inr (.inr (.inr (.inl rfl)))
    · exact hword false 'a' (.inr rfl) c hc
  have hafter : AfterGap true ['\\', '#', 'a', '\n'] := by
    rintro _ _ ⟨rfl, rfl⟩
    exact ⟨by decide, fun _ => ⟨rfl, by simp, by simp⟩⟩
  have hgap (crlf : Bool) : Gap crlf [' '] := .blank (by decide) .nil
  have hend {sawcolon : Bool} (h : sawcolon = false) : End Dialect.gcc sawcolon [] [] := by
    subst h
    exact ⟨rfl, [], [], by simp [Word], by simp, before_nil [], rfl⟩
  refine ⟨⟨?_, ?_⟩, ⟨?_, ?_⟩, ?_⟩
  · have hline : Reads Dialect.gcc (End Dialect.gcc) (some ['t']) true ['a', '\r', '\n'] [['a']] :=
      .line (p := ['a']) (l := ['\r', '\n']) (g := []) (s := []) (hword false 'a' (.inr rfl))
        (.last (.crlf rfl)) (by simp [Fits, isblank, trailing]) .nil (by simp [AfterGap])
        (by simp) (.stop (hend rfl))
    exact .target (p := ['t']) (t := []) (g := [' ']) (hword false 't' (.inl rfl)) (.inl rfl)
      (before_nil _) (hgap true) (afterGap_cons (by decide) (by decide)) hline
  · rw [parses_iff]
    have hstuck : Reads Dialect.lax StuckEnd (some ['t']) true ['a', '\r', '\n'] [] :=
      .stop ⟨rfl, ['a'], '\r', ['\n'], hword true 'a' (.inr rfl), .inl rfl, rfl⟩
    exact not_not_intro ⟨[], .target (p := ['t']) (t := []) (g := [' ']) (hword true 't' (.inl rfl))
      (.inl rfl) (before_nil _) (hgap false) (afterGap_cons (by decide) (by decide)) hstuck⟩
  · have hline : Reads Dialect.gcc (End Dialect.gcc) (some ['t']) true ['\\', '#', 'a', '\n']
        [['#', 'a']] :=
      .line (p := ['#', 'a']) (l := ['\n']) (g := []) (s := []) hhash (.last .lf)
        (by simp [Fits, isblank, trailing]) .nil (by simp [AfterGap]) (by simp) (.stop (hend rfl))
    exact .target (p := ['t']) (t := []) (g := [' ']) (hword false 't' (.inl rfl)) (.inl rfl)
      (before_nil _) (hgap true) hafter hline
  · have hstep := step_colon (o := none) (a := []) (r := [' ', '\\', '#', 'a', '\n']) Buffer.initial.reset_data
      (hword true 't' (.inl rfl)) (.inl rfl) (before_nil ['t'])
    exact ⟨1, loop_error hstep⟩
  · exact (parses_deps_iff Buffer.initial _ _).mpr
      (.stop ⟨rfl, ['t'], [], hword true 't' (.inl rfl), fun _ => rfl, before_nil _, rfl⟩)

end Bootsh.Samu.DepFile
