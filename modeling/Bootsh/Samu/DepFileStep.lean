import Bootsh.Samu.DepFileWord
import Mathlib.Data.List.TakeWhile

/-!
What an iteration of the outer loop of `depsparse` takes from the file.
-/
namespace Bootsh.Samu.DepFile

variable {b buf' : Buffer} {c : Char} {f g p rest s s' t u : Text} {o : Option Text}
variable {a : List Text} {st st' : State}

/-! ### Gaps -/

theorem skip_cons (hslash : c ≠ '\\') (hblank : ¬ isblank c) : skip (c :: f) = some (c :: f) := by
  unfold skip
  split
  · rename_i h
    exact absurd (List.cons.inj h).1 hslash
  · rename_i h
    obtain ⟨rfl, rfl⟩ := List.cons.inj h
    rw [if_neg hblank]
  · rename_i h
    cases h

theorem skip_blank (hc : isblank c) : skip (c :: f) = skip f := by
  have hslash : c ≠ '\\' := by
    rintro rfl
    exact absurd hc (by decide)
  rw [skip.eq_def]
  split
  · rename_i h
    exact absurd (List.cons.inj h).1 hslash
  · rename_i h
    obtain ⟨rfl, rfl⟩ := List.cons.inj h
    rw [if_pos hc]
  · rename_i h
    cases h

theorem skip_slash (hf : f.head? ≠ some '\n') : skip ('\\' :: f) = none := by
  rw [skip]
  intro f' h
  exact hf (by rw [h]; rfl)

theorem skip_afterGap (hs : AfterGap false s) : skip s = some s := by
  match s with
  | [] => rfl
  | c :: f =>
    obtain ⟨hblank, hslash⟩ := hs c f rfl
    exact skip_cons (fun h => by simpa using (hslash h).1) hblank

theorem skip_gap (hg : Gap false g) (hs : AfterGap false s) : skip (g ++ s) = some s := by
  induction hg with
  | nil => exact skip_afterGap hs
  | blank hc _ ih => rw [List.cons_append, skip_blank hc, ih]
  | continued he _ ih =>
    cases he with
    | lf => exact ih
    | crlf h => cases h

theorem gap_of_skip (h : skip s = some s') :
    ∃ g, Gap false g ∧ s = g ++ s' ∧ AfterGap false s' := by
  fun_induction skip s with
  | case1 f ih =>
    obtain ⟨g, hg, rfl, hs⟩ := ih h
    exact ⟨_, .continued .lf hg, rfl, hs⟩
  | case2 => cases h
  | case3 c f hslash hc ih =>
    obtain ⟨g, hg, rfl, hs⟩ := ih h
    exact ⟨_, .blank hc hg, rfl, hs⟩
  | case4 c f hslash hc =>
    cases h
    refine ⟨[], .nil, rfl, ?_⟩
    rintro _ _ ⟨rfl, rfl⟩
    exact ⟨hc, fun h => absurd h hslash⟩
  | case5 =>
    cases h
    exact ⟨[], .nil, rfl, by simp [AfterGap]⟩

/-- A gap that is skipped has LF line ends, and the path behind it does not begin with a
backslash. -/
theorem gap_plain (hg : Gap true g) (hs : AfterGap true s) (h : skip (g ++ s) = some s') :
    Gap false g ∧ AfterGap false s ∧ s' = s := by
  induction hg with
  | nil =>
    rw [List.nil_append] at h
    match s with
    | [] =>
      cases h
      exact ⟨.nil, by simp [AfterGap], rfl⟩
    | c :: f =>
      obtain ⟨hblank, hslash⟩ := hs c f rfl
      by_cases hc : c = '\\'
      · subst hc
        rw [skip_slash (hslash rfl).2.1] at h
        cases h
      · rw [skip_cons hc hblank] at h
        cases h
        refine ⟨.nil, ?_, rfl⟩
        rintro _ _ ⟨rfl, rfl⟩
        exact ⟨hblank, fun h => absurd h hc⟩
  | blank hc _ ih =>
    rw [List.cons_append, skip_blank hc] at h
    obtain ⟨hg, hs, rfl⟩ := ih h
    exact ⟨.blank hc hg, hs, rfl⟩
  | continued he _ ih =>
    cases he with
    | lf =>
      obtain ⟨hg, hs, rfl⟩ := ih h
      exact ⟨.continued .lf hg, hs, rfl⟩
    | crlf _ => cases h

/-! ### Targets -/

theorem stops_of_fits (hu : ∀ c ∈ u.head?, taken c = false ∧ c ≠ '#' ∧ c ≠ '\r')
    (h : Fits p u) : Stops (trailing 0 p) u := by
  intro c hc
  obtain ⟨htaken, hhash, _⟩ := hu c hc
  refine ⟨htaken, (h c hc).1, ?_⟩
  rintro (h' | h')
  · exact absurd h' hhash
  · exact (h c hc).2 (.inl h')

theorem blank_stops (hc : isblank c) : taken c = false ∧ c ≠ '#' ∧ c ≠ '\r' ∧ c ≠ '\n' := by
  rcases (Bool.or_eq_true _ _).mp hc with h | h
  · rw [beq_iff_eq.mp h]
    decide
  · rw [beq_iff_eq.mp h]
    decide

/-- A target, to its colon or to the end of the file. -/
theorem word_before (hp : Word true p) (ht : Before false p t) (hu : ∀ c ∈ u.head?, c = ':') :
    ∃ rest, word (escape 0 p ++ (t ++ u)) b = some (b.addAll p, rest) ∧
      rest.dropWhile isblank = u := by
  have hdrop : u.dropWhile isblank = u := by
    cases u with
    | nil => rfl
    | cons c u =>
      rw [hu c rfl]
      rfl
  obtain ⟨w, hw, ⟨rfl, hfits⟩ | ⟨e, he, rfl⟩⟩ := ht
  · refine ⟨t ++ u, word_escape_stop hp ?_, by rw [List.dropWhile_append_of_pos hw, hdrop]⟩
    cases t with
    | nil =>
      intro c hc
      rw [hu c hc]
      exact ⟨by decide, by simp [isblank], by simp⟩
    | cons c t =>
      have hc := hw c List.mem_cons_self
      have hstop := blank_stops hc
      refine stops_of_fits ?_ hfits
      rintro _ ⟨rfl⟩
      exact ⟨hstop.1, hstop.2.1, hstop.2.2.1⟩
  · cases he with
    | lf =>
      refine ⟨' ' :: (w ++ u), ?_, ?_⟩
      · simpa using word_escape_continued (f := w ++ u) hp
      · rw [List.dropWhile_cons_of_pos (by decide), List.dropWhile_append_of_pos hw, hdrop]
    | crlf h => cases h

theorem before_of_took (h : Took s p rest) :
    ∃ t, Before false p t ∧ s = escape 0 p ++ (t ++ rest.dropWhile isblank) := by
  cases h with
  | stop hs h =>
    refine ⟨rest.takeWhile isblank, ⟨_, fun c hc => List.mem_takeWhile_imp hc, .inl ⟨rfl, ?_⟩⟩, ?_⟩
    · intro c hc
      have hblank : isblank c := List.mem_takeWhile_imp (List.mem_of_mem_head? hc)
      have hstop := blank_stops hblank
      refine ⟨fun _ => (h c ?_).2.1 hblank, ?_⟩
      · cases rest with
        | nil => cases hc
        | cons d rest =>
          by_cases hd : isblank d
          · rwa [List.takeWhile_cons_of_pos hd] at hc
          · rw [List.takeWhile_cons_of_neg hd] at hc
            cases hc
      · rintro (h | h)
        · exact absurd h hstop.2.2.2
        · exact absurd h hstop.2.2.1
    · rw [List.takeWhile_append_dropWhile, hs]
  | continued t hs hrest =>
    refine ⟨'\\' :: (['\n'] ++ t.takeWhile isblank),
      ⟨_, fun c hc => List.mem_takeWhile_imp hc, .inr ⟨_, .lf, rfl⟩⟩, ?_⟩
    rw [hrest, List.dropWhile_cons_of_pos (by decide), hs]
    simp [List.takeWhile_append_dropWhile]

/-- The target of a rule and its colon. -/
theorem step_colon {r : Text} (hbuf : b.data = []) (hp : Word true p)
    (hout : o = none ∨ o = some p) (ht : Before false p t) :
    step ⟨o, a, false, b, escape 0 p ++ (t ++ ':' :: r)⟩ =
      State.next ⟨some p, a, true, b.addAll p, escape 0 p ++ (t ++ ':' :: r)⟩ r := by
  obtain ⟨rest, hword, hrest⟩ := word_before (b := b) (u := ':' :: r) hp ht (by simp)
  have hdata : (b.addAll p).data = p := by rw [Buffer.addAll_data, hbuf, List.nil_append]
  unfold step
  dsimp only
  rw [hword]
  dsimp only
  rw [if_neg (by simp), hrest]
  dsimp only
  rw [if_pos rfl, hdata]
  rcases hout with rfl | rfl
  · rfl
  · dsimp only
    rw [if_pos rfl]

theorem next_skip (h : skip s = some s') :
    st.next s = .ok { st with buf := st.buf.reset, s := s' } := by
  rw [State.next, h]

theorem step_target (hbuf : b.data = []) (hp : Word true p) (hout : o = none ∨ o = some p)
    (ht : Before false p t) (hg : Gap false g) (hs : AfterGap false s) : ∃ buf' : Buffer,
    buf'.data = [] ∧ step ⟨o, a, false, b, escape 0 p ++ (t ++ ':' :: (g ++ s))⟩ =
      .ok ⟨some p, a, true, buf', s⟩ :=
  ⟨(b.addAll p).reset, rfl, by rw [step_colon hbuf hp hout ht, next_skip (skip_gap hg hs)]⟩

theorem step_target_end (hp : Word true p) (ht : Before false p t) :
    step ⟨o, a, false, b, escape 0 p ++ t⟩ = .error (.deps a) := by
  obtain ⟨rest, hword, hrest⟩ := word_before (b := b) (u := []) hp ht (by simp)
  rw [List.append_nil] at hword
  unfold step
  dsimp only
  rw [hword]
  dsimp only
  rw [if_neg (by simp), hrest]

/-! ### Dependencies -/

/-- The list with the path that is in the buffer, if there is one. -/
def addPath (a : List Text) (p : Text) : List Text := if p.length > 0 then a ++ [p] else a

theorem addPath_append (a l : List Text) (p : Text) :
    addPath a p ++ l = a ++ if p = [] then l else p :: l := by
  cases p <;> simp [addPath]

/-- An iteration among the dependencies, where `rest` follows the path. -/
def afterPath (st : State) (a : List Text) : Text → Except Result State
  | [] => .error (.deps a)
  | c :: f =>
    if isspace c then
      if c = '\n' then
        match f.dropWhile (· = '\n') with
        | [] => .error (.deps a)
        | s => State.next { st with deps := a, sawcolon := false } s
      else State.next { st with deps := a } (c :: f)
    else .error .bad

theorem step_deps (hbuf : b.data = []) (hword : word s b = some (b.addAll p, rest)) :
    step ⟨o, a, true, b, s⟩ =
      afterPath ⟨o, a, true, b.addAll p, s⟩ (addPath a p) rest := by
  have hdata : (b.addAll p).data = p := by rw [Buffer.addAll_data, hbuf, List.nil_append]
  unfold step
  dsimp only
  rw [hword]
  dsimp only
  rw [if_pos rfl, hdata]
  rfl

theorem blank_space (hc : isblank c) : isspace c := by
  simp [isspace, hc]

/-- A path with a gap behind it. -/
theorem step_blank {r : Text} (hbuf : b.data = []) (hp : Word true p) (hc : isblank c)
    (hfits : Fits p (c :: g)) :
    step ⟨o, a, true, b, escape 0 p ++ (c :: g ++ r)⟩ =
      State.next ⟨o, addPath a p, true, b.addAll p, escape 0 p ++ (c :: g ++ r)⟩
        (c :: g ++ r) := by
  have hstop := blank_stops hc
  have hword : word (escape 0 p ++ (c :: g ++ r)) b = some (b.addAll p, c :: g ++ r) := by
    refine word_escape_stop hp (stops_of_fits ?_ hfits)
    rintro _ ⟨rfl⟩
    exact ⟨hstop.1, hstop.2.1, hstop.2.2.1⟩
  rw [step_deps hbuf hword, List.cons_append, afterPath, if_pos (blank_space hc),
    if_neg hstop.2.2.2]

theorem step_continued {r : Text} (hbuf : b.data = []) (hp : Word true p) :
    step ⟨o, a, true, b, escape 0 p ++ '\\' :: '\n' :: r⟩ =
      State.next ⟨o, addPath a p, true, b.addAll p, escape 0 p ++ '\\' :: '\n' :: r⟩ r := by
  rw [step_deps hbuf (word_escape_continued hp), afterPath, if_pos (by decide),
    if_neg (by decide), State.next, skip_blank (by decide)]
  rfl

theorem addPath_ne (a : List Text) (hne : p ≠ []) : addPath a p = a ++ [p] := by
  simp [addPath, List.length_pos_iff.mpr hne]

theorem step_dep (hbuf : b.data = []) (hp : Word true p) (hne : p ≠ []) (hg : Gap false g)
    (hgne : g ≠ []) (hfits : Fits p g) (hs : AfterGap false s) : ∃ buf' : Buffer,
    buf'.data = [] ∧ step ⟨o, a, true, b, escape 0 p ++ (g ++ s)⟩ =
      .ok ⟨o, a ++ [p], true, buf', s⟩ := by
  refine ⟨(b.addAll p).reset, rfl, ?_⟩
  have hskip := skip_gap hg hs
  cases hg with
  | nil => exact absurd rfl hgne
  | blank hc hg => rw [step_blank hbuf hp hc hfits, next_skip hskip, addPath_ne a hne]
  | @continued e g he hg =>
    cases he with
    | lf =>
      have hstep := step_continued (o := o) (a := a) (r := g ++ s) hbuf hp
      rw [next_skip (skip_gap hg hs), addPath_ne a hne] at hstep
      exact hstep
    | crlf h => cases h

theorem lines_lf (hl : Lines false t) : ∃ k, t = '\n' :: List.replicate k '\n' := by
  induction hl with
  | last he =>
    cases he with
    | lf => exact ⟨0, rfl⟩
    | crlf h => cases h
  | more he _ ih =>
    obtain ⟨k, rfl⟩ := ih
    cases he with
    | lf => exact ⟨k + 1, rfl⟩
    | crlf h => cases h

theorem dropWhile_lines {k : ℕ} (h : s.head? ≠ some '\n') :
    (List.replicate k '\n' ++ s).dropWhile (· = '\n') = s := by
  rw [List.dropWhile_append_of_pos (by simp)]
  cases s with
  | nil => rfl
  | cons c s => exact List.dropWhile_cons_of_neg (by simpa using h)

theorem word_line (hp : Word true p) (hl : Lines false t) (hfits : Fits p t) :
    ∃ k, word (escape 0 p ++ (t ++ u)) b =
      some (b.addAll p, '\n' :: (List.replicate k '\n' ++ u)) := by
  obtain ⟨k, rfl⟩ := lines_lf hl
  refine ⟨k, word_escape_stop hp (stops_of_fits ?_ ?_)⟩
  · rintro _ ⟨rfl⟩
    decide
  · rintro _ ⟨rfl⟩
    exact hfits _ rfl

theorem step_newline {k : ℕ} (hbuf : b.data = [])
    (hword : word s b = some (b.addAll p, '\n' :: (List.replicate k '\n' ++ u)))
    (hlf : u.head? ≠ some '\n') (hne : u ≠ []) :
    step ⟨o, a, true, b, s⟩ =
      State.next ⟨o, addPath a p, false, b.addAll p, s⟩ u := by
  rw [step_deps hbuf hword, afterPath, if_pos (by decide), if_pos rfl, dropWhile_lines hlf]
  split
  · rename_i h
    exact absurd rfl hne
  · rfl

theorem step_line (hbuf : b.data = []) (hp : Word true p) (hl : Lines false t)
    (hfits : Fits p t) (hg : Gap false g) (hs : AfterGap false s) (hlf : (g ++ s).head? ≠ some '\n')
    (hne : g ++ s ≠ []) : ∃ buf' : Buffer,
    buf'.data = [] ∧ step ⟨o, a, true, b, escape 0 p ++ (t ++ (g ++ s))⟩ =
      .ok ⟨o, addPath a p, false, buf', s⟩ := by
  refine ⟨(b.addAll p).reset, rfl, ?_⟩
  obtain ⟨k, hword⟩ := word_line (u := g ++ s) (b := b) hp hl hfits
  rw [step_newline hbuf hword hlf hne, next_skip (skip_gap hg hs)]

theorem step_line_end (hbuf : b.data = []) (hp : Word true p) (hl : Lines false t)
    (hfits : Fits p t) :
    step ⟨o, a, true, b, escape 0 p ++ t⟩ = .error (.deps (addPath a p)) := by
  obtain ⟨k, hword⟩ := word_line (u := []) (b := b) hp hl hfits
  rw [List.append_nil] at hword
  rw [step_deps hbuf hword, afterPath, if_pos (by decide), if_pos rfl, dropWhile_lines (by simp)]

theorem step_end (hbuf : b.data = []) (hp : Word true p) :
    step ⟨o, a, true, b, escape 0 p⟩ = .error (.deps (addPath a p)) := by
  have hword := word_escape_stop (r := []) (b := b) hp (by simp [Stops])
  rw [List.append_nil] at hword
  rw [step_deps hbuf hword, afterPath]

/-- White space other than blanks and newlines is not read. -/
theorem step_stuck (hbuf : b.data = []) (hp : Word true p)
    (hc : c = '\r' ∨ c = '\x0b' ∨ c = '\x0c') : ∃ buf' : Buffer,
    buf'.data = [] ∧ step ⟨o, a, true, b, escape 0 p ++ c :: f⟩ =
      .ok ⟨o, addPath a p, true, buf', c :: f⟩ := by
  have hfacts : taken c = false ∧ isblank c = false ∧ isspace c = true ∧ c ≠ '#' ∧ c ≠ '\n' ∧
      c ≠ '\\' := by
    rcases hc with rfl | rfl | rfl <;> decide
  obtain ⟨htaken, hblank, hspace, hhash, hlf, hslash⟩ := hfacts
  have hword : word (escape 0 p ++ c :: f) b = some (b.addAll p, c :: f) := by
    refine word_escape_stop hp ?_
    rintro _ ⟨rfl⟩
    exact ⟨htaken, by simp [hblank], by simp [hhash, hlf]⟩
  refine ⟨(b.addAll p).reset, rfl, ?_⟩
  rw [step_deps hbuf hword, afterPath, if_pos hspace, if_neg hlf, next_skip (skip_cons hslash (by simp [hblank]))]

/-! ### What an iteration took -/

/-- At the start of an iteration. -/
structure Ready (st : State) : Prop where
  empty : st.buf.data = []
  afterGap : st.sawcolon → AfterGap false st.s

/-- The iteration took a part of the file by one rule of the grammar. -/
def Advances (st st' : State) : Prop :=
  st'.s.length < st.s.length ∧ ∀ E l, Reads Dialect.lax E st'.out st'.sawcolon st'.s l →
    ∃ l', st'.deps ++ l = st.deps ++ l' ∧ Reads Dialect.lax E st.out st.sawcolon st.s l'

theorem next_ok (h : st.next s = .ok st') :
    ∃ g s', Gap false g ∧ s = g ++ s' ∧ AfterGap false s' ∧
      st' = { st with buf := st.buf.reset, s := s' } := by
  unfold State.next at h
  split at h
  case h_1 => cases h
  case h_2 s' hskip =>
    cases h
    obtain ⟨g, hg, hs, hafter⟩ := gap_of_skip hskip
    exact ⟨g, s', hg, hs, hafter, rfl⟩

theorem lines_takeWhile (f : Text) : Lines false ('\n' :: f.takeWhile (· = '\n')) := by
  induction f with
  | nil => exact .last .lf
  | cons c f ih =>
    by_cases hc : c = '\n'
    · rw [List.takeWhile_cons_of_pos (by simpa using hc), hc]
      exact .more .lf ih
    · rw [List.takeWhile_cons_of_neg (by simpa using hc)]
      exact .last .lf

theorem head_dropWhile (f : Text) : (f.dropWhile (· = '\n')).head? ≠ some '\n' := by
  intro h
  have := List.head?_dropWhile_not (fun c : Char => decide (c = '\n')) f
  rw [h] at this
  simp at this

theorem step_ok_target (hready : Ready ⟨o, a, false, b, s⟩)
    (h : step ⟨o, a, false, b, s⟩ = .ok st') :
    Ready st' ∧ Advances ⟨o, a, false, b, s⟩ st' := by
  unfold step at h
  dsimp only at h
  split at h
  case h_1 => cases h
  case h_2 buf' rest hword =>
    obtain ⟨p, hp, rfl, htook⟩ := word_took 0 s b hword
    rw [List.replicate_zero, List.nil_append] at htook
    have hdata : (b.addAll p).data = p := by
      rw [Buffer.addAll_data, hready.empty, List.nil_append]
    obtain ⟨t, ht, hs⟩ := before_of_took htook
    rw [if_neg (by simp)] at h
    split at h
    case h_1 => cases h
    case h_2 c f hrest =>
      rw [hrest] at hs
      split at h
      case isFalse => cases h
      case isTrue hc =>
        subst hc
        rw [hdata] at h
        have hout : (o = none ∨ o = some p) ∧
            State.next ⟨some p, a, true, b.addAll p, s⟩ f = .ok st' := by
          split at h
          · exact ⟨.inl rfl, h⟩
          · split at h
            case isTrue heq =>
              rw [heq] at h ⊢
              exact ⟨.inr rfl, h⟩
            case isFalse => cases h
        obtain ⟨hout, hnext⟩ := hout
        obtain ⟨g, s', hg, rfl, hafter, rfl⟩ := next_ok hnext
        subst hs
        refine ⟨⟨rfl, fun _ => hafter⟩, ?_, ?_⟩
        · simp only [List.length_append, List.length_cons]
          omega
        · intro E l hreads
          exact ⟨l, rfl, .target hp hout ht hg hafter hreads⟩

theorem fits_of_stops (h : Stops (trailing 0 p) (c :: f)) (hc : c ≠ '\r') : Fits p (c :: u) := by
  rintro _ ⟨rfl⟩
  obtain ⟨_, hblank, hlast⟩ := h c rfl
  refine ⟨hblank, ?_⟩
  rintro (h' | h')
  · exact hlast (.inr h')
  · exact absurd h' hc

theorem space_cases (hc : isspace c) (hlf : c ≠ '\n') :
    isblank c ∨ c = '\r' ∨ c = '\x0b' ∨ c = '\x0c' := by
  simp only [isspace, Bool.or_eq_true, beq_iff_eq] at hc
  tauto

theorem advances_line (hp : Word true p) (htook : Took s p ('\n' :: f))
    (h : State.next ⟨o, addPath a p, false, buf', s⟩ (f.dropWhile (· = '\n')) = .ok st') :
    Ready st' ∧ Advances ⟨o, a, true, b, s⟩ st' := by
  cases htook with
  | continued t _ hrest => cases hrest
  | stop hs hstops =>
    obtain ⟨g, s', hg, hdrop, hafter, rfl⟩ := next_ok h
    have hsplit : s = escape 0 p ++ ('\n' :: f.takeWhile (· = '\n') ++ (g ++ s')) := by
      rw [hs, ← hdrop, List.cons_append, List.takeWhile_append_dropWhile]
    refine ⟨⟨rfl, fun _ => hafter⟩, ?_, ?_⟩
    · dsimp only
      rw [hsplit]
      simp only [List.length_append, List.length_cons]
      omega
    · intro E l hreads
      refine ⟨if p = [] then l else p :: l, addPath_append a l p, ?_⟩
      dsimp only
      rw [hsplit]
      exact .line hp (lines_takeWhile f) (fits_of_stops hstops (by decide)) hg hafter
        (hdrop ▸ head_dropWhile f) hreads

theorem advances_dep (hready : Ready ⟨o, a, true, b, s⟩) (hp : Word true p)
    (htook : Took s p (c :: f)) (hc : isblank c)
    (h : State.next ⟨o, addPath a p, true, buf', s⟩ (c :: f) = .ok st') :
    Ready st' ∧ Advances ⟨o, a, true, b, s⟩ st' := by
  have hstop := blank_stops hc
  obtain ⟨g, s', hg, hgs, hafter, rfl⟩ := next_ok h
  -- the gap with the backslash of an escaped newline
  obtain ⟨g, hg, hgne, hfits, hsplit⟩ : ∃ g, Gap false g ∧ g ≠ [] ∧ Fits p g ∧
      s = escape 0 p ++ (g ++ s') := by
    cases hg with
    | nil =>
      rw [List.nil_append] at hgs
      exact absurd hc (hafter c f hgs.symm).1
    | continued _ _ =>
      rw [List.cons_append] at hgs
      obtain ⟨rfl, _⟩ := List.cons.inj hgs
      exact absurd hc (by decide)
    | @blank d g hd hg =>
      rw [List.cons_append] at hgs
      obtain ⟨rfl, hf⟩ := List.cons.inj hgs
      cases htook with
      | stop hs hstops =>
        refine ⟨c :: g, .blank hc hg, by simp, fits_of_stops hstops hstop.2.2.1, ?_⟩
        rw [hs, hf, List.cons_append]
      | continued t hs hrest =>
        obtain ⟨_, rfl⟩ := List.cons.inj hrest
        refine ⟨'\\' :: (['\n'] ++ g), .continued .lf hg, by simp, ?_, ?_⟩
        · rintro _ ⟨rfl⟩
          simp [isblank]
        · rw [hs, hf]
          rfl
  have hne : p ≠ [] := by
    rintro rfl
    have hready' := hready.afterGap rfl
    rw [hsplit] at hready'
    cases hg with
    | nil => exact hgne rfl
    | blank hc _ => exact (hready' _ _ rfl).1 hc
    | continued _ _ => exact absurd ((hready' _ _ rfl).2 rfl).1 (by simp)
  refine ⟨⟨rfl, fun _ => hafter⟩, ?_, ?_⟩
  · dsimp only
    rw [hsplit]
    have hpos := List.length_pos_iff.mpr hgne
    simp only [List.length_append]
    omega
  · intro E l hreads
    refine ⟨p :: l, ?_, ?_⟩
    · rw [addPath_append, if_neg hne]
    · dsimp only
      rw [hsplit]
      exact .dep hp hne hg hgne hfits hafter hreads

theorem step_ok_deps (hready : Ready ⟨o, a, true, b, s⟩)
    (h : step ⟨o, a, true, b, s⟩ = .ok st') :
    Ready st' ∧ Advances ⟨o, a, true, b, s⟩ st' ∨ StuckEnd true s [] := by
  match hword : word s b with
  | none =>
    unfold step at h
    dsimp only at h
    rw [hword] at h
    cases h
  | some (buf', rest) =>
    obtain ⟨p, hp, rfl, htook⟩ := word_took 0 s b hword
    rw [List.replicate_zero, List.nil_append] at htook
    rw [step_deps hready.empty hword] at h
    match rest with
    | [] => cases h
    | c :: f =>
      rw [afterPath] at h
      split at h
      case isFalse => cases h
      case isTrue hspace =>
        split at h
        case isTrue hlf =>
          subst hlf
          split at h
          case h_1 => cases h
          case h_2 => exact .inl (advances_line hp htook h)
        case isFalse hlf =>
          rcases space_cases hspace hlf with hblank | hstuck
          · exact .inl (advances_dep hready hp htook hblank h)
          · refine .inr ⟨rfl, p, c, f, hp, hstuck, ?_⟩
            cases htook with
            | stop hs _ => exact hs
            | continued t _ hrest =>
              obtain ⟨rfl, _⟩ := List.cons.inj hrest
              exact absurd hstuck (by decide)

theorem step_ok (hready : Ready st) (h : step st = .ok st') :
    Ready st' ∧ Advances st st' ∨ StuckEnd st.sawcolon st.s [] := by
  obtain ⟨o, a, sawcolon, b, s⟩ := st
  cases sawcolon with
  | false => exact .inl (step_ok_target hready h)
  | true => exact step_ok_deps hready h

theorem next_ne_deps (st : State) (s : Text) (l : List Text) :
    st.next s ≠ .error (.deps l) := by
  unfold State.next
  split
  · simp
  · simp

theorem reads_last_line (hp : Word true p) (hl : Lines false t) (hfits : Fits p t) :
    Reads Dialect.lax (End Dialect.lax) o true (escape 0 p ++ t) (if p = [] then [] else [p]) := by
  have hend : End Dialect.lax false [] [] :=
    ⟨rfl, [], [], by simp [Word], by simp, ⟨[], by simp, .inl ⟨rfl, by simp [Fits]⟩⟩, rfl⟩
  have hline : Reads Dialect.lax (End Dialect.lax) o true (escape 0 p ++ (t ++ ([] ++ [])))
      (if p = [] then [] else [p]) :=
    .line hp hl hfits .nil (by simp [AfterGap]) (by simp) (.stop hend)
  rwa [List.append_nil, List.append_nil] at hline

/-- The file ends in this iteration. -/
theorem step_done {l : List Text} (hready : Ready st) (h : step st = .error (.deps l)) :
    ∃ l', l = st.deps ++ l' ∧
      Reads Dialect.lax (End Dialect.lax) st.out st.sawcolon st.s l' := by
  obtain ⟨o, a, sawcolon, b, s⟩ := st
  dsimp only
  match hword : word s b with
  | none =>
    unfold step at h
    dsimp only at h
    rw [hword] at h
    cases h
  | some (buf', rest) =>
    obtain ⟨p, hp, rfl, htook⟩ := word_took 0 s b hword
    rw [List.replicate_zero, List.nil_append] at htook
    cases sawcolon with
    | false =>
      obtain ⟨t, ht, hs⟩ := before_of_took htook
      unfold step at h
      dsimp only at h
      rw [hword] at h
      dsimp only at h
      rw [if_neg (by simp)] at h
      split at h
      case h_1 hrest =>
        cases h
        rw [hrest, List.append_nil] at hs
        exact ⟨[], (List.append_nil _).symm, .stop ⟨rfl, p, t, hp, fun _ => rfl, ht, hs⟩⟩
      case h_2 =>
        split at h
        case isFalse => cases h
        case isTrue =>
          split at h
          · exact absurd h (next_ne_deps _ _ _)
          · split at h
            · exact absurd h (next_ne_deps _ _ _)
            · cases h
    | true =>
      rw [step_deps hready.empty hword] at h
      match rest with
      | [] =>
        cases h
        cases htook with
        | continued t _ hrest => cases hrest
        | stop hs _ =>
          rw [List.append_nil] at hs
          refine ⟨if p = [] then [] else [p], ?_, .stop ⟨p, hp, hs, rfl⟩⟩
          rw [← addPath_append, List.append_nil]
      | c :: f =>
        rw [afterPath] at h
        split at h
        case isFalse => cases h
        case isTrue =>
          split at h
          case isFalse => exact absurd h (next_ne_deps _ _ _)
          case isTrue hlf =>
            subst hlf
            split at h
            case h_2 => exact absurd h (next_ne_deps _ _ _)
            case h_1 hdrop =>
              cases h
              cases htook with
              | continued t _ hrest => cases hrest
              | stop hs hstops =>
                refine ⟨if p = [] then [] else [p], ?_, ?_⟩
                · rw [← addPath_append, List.append_nil]
                · have hall : f.takeWhile (· = '\n') = f := by
                    conv_rhs => rw [← List.takeWhile_append_dropWhile (p := (· = '\n')) (l := f), hdrop,
                      List.append_nil]
                  have hlines := lines_takeWhile f
                  rw [hall] at hlines
                  rw [hs]
                  exact reads_last_line hp hlines (fits_of_stops hstops (by decide))

end Bootsh.Samu.DepFile
