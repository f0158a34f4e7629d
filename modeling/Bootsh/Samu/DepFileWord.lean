import Bootsh.Samu.DepFileGrammar

/-!
The loop over the characters of a path takes an escaped path back.
-/
namespace Bootsh.Samu.DepFile

variable {n k : ℕ} {c : Char} {b buf' : Buffer} {s t x f p r : Text}

/-! ### Runs of backslashes -/

theorem add_even (n : ℕ) (b : Buffer) :
    (if (n + 1) % 2 = 0 then bufadd b '\\' else b) =
      b.addAll (List.replicate ((n + 1) / 2 - n / 2) '\\') := by
  by_cases h : (n + 1) % 2 = 0
  · have hone : (n + 1) / 2 - n / 2 = 1 := by omega
    rw [if_pos h, hone]
    rfl
  · have hzero : (n + 1) / 2 - n / 2 = 0 := by omega
    rw [if_neg h, hzero]
    rfl

theorem slashes_run (hx : x.head? ≠ some '\\') (k n : ℕ) (b : Buffer) :
    slashes (List.replicate k '\\' ++ x) n b =
      (n + k + 1, b.addAll (List.replicate ((n + k + 1) / 2 - n / 2) '\\'), x) := by
  induction k generalizing n b with
  | zero =>
    rw [List.replicate_zero, List.nil_append, slashes.eq_def]
    dsimp only
    rw [add_even]
    split
    · exact absurd rfl hx
    · rfl
  | succ k ih =>
    rw [List.replicate_succ, List.cons_append, slashes.eq_def]
    dsimp only
    rw [add_even]
    change slashes (List.replicate k '\\' ++ x) (n + 1) _ = _
    rw [ih, ← Buffer.addAll_append, ← List.replicate_add]
    have hlen : n + 1 + k + 1 = n + (k + 1) + 1 := by omega
    have hsum : (n + 1) / 2 - n / 2 + ((n + (k + 1) + 1) / 2 - (n + 1) / 2) =
        (n + (k + 1) + 1) / 2 - n / 2 := by omega
    rw [hlen, hsum]

theorem addSlashes_eq (n : ℕ) (b : Buffer) :
    addSlashes n b = b.addAll (List.replicate ((n - 1) / 2) '\\') := by
  fun_induction addSlashes n b with
  | case1 n b ih =>
    have hsucc : (n + 3 - 1) / 2 = (n + 1 - 1) / 2 + 1 := by omega
    rw [ih, hsucc, List.replicate_succ]
    rfl
  | case2 n b h =>
    have hzero : (n - 1) / 2 = 0 := by
      match n, h with
      | 0, _ => rfl
      | 1, _ => rfl
      | 2, _ => rfl
      | n + 3, h => exact absurd rfl (h n)
    rw [hzero]
    rfl

/-- The number of backslashes that a run of `k + 1` leaves behind the last one. -/
theorem addSlashes_run (k : ℕ) (b : Buffer) :
    addSlashes (k + 1) (b.addAll (List.replicate ((k + 1) / 2) '\\')) =
      b.addAll (List.replicate k '\\') := by
  have hsum : (k + 1) / 2 + (k + 1 - 1) / 2 = k := by omega
  rw [addSlashes_eq, ← Buffer.addAll_append, ← List.replicate_add, hsum]

theorem taken_slash : taken '\\' = true := by decide

/-- What follows a run of backslashes. -/
theorem word_slash (h : slashes f 0 b = (n, buf', x)) :
    word ('\\' :: f) b = match x with
      | [] => some (bufadd (addSlashes n buf') '\\', [])
      | c :: f =>
        if isblank c ∧ n % 2 ≠ 0 then word f (bufadd buf' c)
        else if c = '#' then word f (bufadd (addSlashes n buf') c)
        else if c = '\n' then word (' ' :: f) (addSlashes n buf')
        else word (c :: f) (bufadd (addSlashes n buf') '\\') := by
  rw [word.eq_def]
  dsimp only
  rw [if_pos taken_slash, if_pos rfl]
  split
  · rename_i heq _
    cases h.symm.trans heq
    rfl
  · rename_i heq _
    cases h.symm.trans heq
    rfl

theorem word_run_nil (k : ℕ) (b : Buffer) :
    word (List.replicate (k + 1) '\\') b =
      some (b.addAll (List.replicate (k + 1) '\\'), []) := by
  have hrun := slashes_run (x := []) (by simp) k 0 b
  rw [List.append_nil, Nat.zero_add, Nat.zero_div, Nat.sub_zero] at hrun
  rw [List.replicate_succ, word_slash hrun]
  dsimp only
  rw [addSlashes_run, ← List.replicate_succ, List.replicate_succ', Buffer.addAll_concat]
  rfl

theorem word_run_cons (hc : c ≠ '\\') (k : ℕ) (b : Buffer) :
    word (List.replicate (k + 1) '\\' ++ c :: f) b =
      if isblank c ∧ (k + 1) % 2 ≠ 0 then
        word f (b.addAll (List.replicate ((k + 1) / 2) '\\' ++ [c]))
      else if c = '#' then word f (b.addAll (List.replicate k '\\' ++ ['#']))
      else if c = '\n' then some (b.addAll (List.replicate k '\\'), ' ' :: f)
      else word (c :: f) (b.addAll (List.replicate (k + 1) '\\')) := by
  have hrun := slashes_run (x := c :: f) (by simpa using hc) k 0 b
  rw [Nat.zero_add, Nat.zero_div, Nat.sub_zero] at hrun
  have hstop (b : Buffer) : word (' ' :: f) b = some (b, ' ' :: f) := by
    rw [word.eq_def]
    rfl
  rw [List.replicate_succ, List.cons_append, word_slash hrun]
  dsimp only
  rw [addSlashes_run, hstop, ← List.replicate_succ, List.replicate_succ', Buffer.addAll_concat,
    Buffer.addAll_concat, Buffer.addAll_concat]
  split
  · rfl
  · split
    · rename_i hhash
      rw [hhash]
      rfl
    · rfl

theorem word_stop (hc : taken c = false) : word (c :: f) b = some (b, c :: f) := by
  rw [word.eq_def]
  dsimp only
  rw [hc]
  rfl

theorem word_nil (b : Buffer) : word [] b = some (b, []) := by rw [word]

theorem word_letter (hc : taken c) (hslash : c ≠ '\\') (hdollar : c ≠ '$') :
    word (c :: f) b = word f (bufadd b c) := by
  rw [word.eq_def]
  dsimp only
  rw [if_pos hc, if_neg hslash, if_neg hdollar]

theorem word_dollar : word ('$' :: '$' :: f) b = word f (bufadd b '$') := by
  rw [word.eq_def]
  rfl

/-! ### Escaped paths -/

theorem taken_iff : taken c = true ↔ Letter true c ∨ c = '$' ∨ c = '\\' := by
  have hall : "$+,-./@\\_".toList = ['$', '+', ',', '-', '.', '/', '@', '\\', '_'] := by decide
  have hletters : "+,-./@_".toList = ['+', ',', '-', '.', '/', '@', '_'] := by decide
  simp only [taken, strchr, Letter, hall, hletters, Bool.or_eq_true, decide_eq_true_eq,
    List.mem_append, List.mem_cons, List.not_mem_nil, or_false, true_and]
  tauto

/-- A character of a path that is neither escaped nor a backslash. -/
structure Ordinary (c : Char) : Prop where
  slash : c ≠ '\\'
  blank : ¬ isblank c
  hash : c ≠ '#'
  newline : c ≠ '\n'

theorem ordinary_of_taken (hc : taken c) (hslash : c ≠ '\\') : Ordinary c := by
  refine ⟨hslash, ?_, ?_, ?_⟩
  · intro hblank
    rcases (Bool.or_eq_true _ _).mp hblank with h | h
    · rw [beq_iff_eq.mp h] at hc
      exact absurd hc (by decide)
    · rw [beq_iff_eq.mp h] at hc
      exact absurd hc (by decide)
  · rintro rfl
    exact absurd hc (by decide)
  · rintro rfl
    exact absurd hc (by decide)

/-- Before other characters a backslash stands for itself. -/
theorem word_run (hc : Ordinary c) (n : ℕ) (b : Buffer) :
    word (List.replicate n '\\' ++ c :: f) b =
      word (c :: f) (b.addAll (List.replicate n '\\')) := by
  cases n with
  | zero => rfl
  | succ k =>
    rw [word_run_cons hc.slash, if_neg fun h => hc.blank h.1, if_neg hc.hash, if_neg hc.newline]

/-- An escaped path is taken up to the backslashes at its end. -/
theorem word_escape {nul : Bool} (hp : Word nul p) (n : ℕ) (b : Buffer) : ∃ q,
    List.replicate n '\\' ++ p = q ++ List.replicate (trailing n p) '\\' ∧
      word (escape n p ++ r) b =
        word (List.replicate (trailing n p) '\\' ++ r) (b.addAll q) := by
  induction p generalizing n b with
  | nil => exact ⟨[], by simp [trailing], rfl⟩
  | cons c p ih =>
    have hp' : Word nul p := fun c hc => hp c (List.mem_cons_of_mem _ hc)
    by_cases hslash : c = '\\'
    · subst hslash
      obtain ⟨q, hq, hword⟩ := ih hp' (n + 1) b
      rw [escape, if_pos rfl, trailing, if_pos rfl]
      refine ⟨q, ?_, hword⟩
      rw [← hq, List.replicate_succ']
      simp
    rw [trailing_cons hslash]
    -- the rest of the path, after the `n` backslashes and `c`
    have hrest (buf' : Buffer) (hbuf : buf' = b.addAll (List.replicate n '\\' ++ [c])) : ∃ q,
        List.replicate n '\\' ++ c :: p = q ++ List.replicate (trailing 0 p) '\\' ∧
          word (escape 0 p ++ r) buf' =
            word (List.replicate (trailing 0 p) '\\' ++ r) (b.addAll q) := by
      obtain ⟨q, hq, hword⟩ := ih hp' 0 buf'
      rw [List.replicate_zero, List.nil_append] at hq
      refine ⟨List.replicate n '\\' ++ [c] ++ q, ?_, ?_⟩
      · rw [List.append_assoc _ q, ← hq]
        simp
      · rw [hword, hbuf, ← Buffer.addAll_append]
    by_cases hblank : isblank c
    · rw [escape_blank hblank, List.append_assoc, List.cons_append, word_run_cons hslash,
        if_pos ⟨hblank, by omega⟩]
      have hhalf : (2 * n + 1) / 2 = n := by omega
      rw [hhalf]
      exact hrest _ rfl
    by_cases hhash : c = '#'
    · subst hhash
      rw [escape_hash, List.append_assoc, List.cons_append, word_run_cons hslash,
        if_neg fun h => hblank h.1, if_pos rfl]
      exact hrest _ rfl
    have hletter : taken c := by
      rcases hp c List.mem_cons_self with h | h | h | h | h
      · rcases h with h | h | h
        · exact taken_iff.mpr (.inl (.inl h))
        · exact taken_iff.mpr (.inl (.inr (.inl h)))
        · exact taken_iff.mpr (.inl (.inr (.inr ⟨rfl, h.2⟩)))
      · exact taken_iff.mpr (.inr (.inl h))
      · exact absurd h hslash
      · exact absurd h hhash
      · exact absurd h hblank
    have hord := ordinary_of_taken hletter hslash
    by_cases hdollar : c = '$'
    · subst hdollar
      rw [escape_dollar, List.append_assoc, List.cons_append, List.cons_append, word_run hord,
        word_dollar]
      exact hrest _ (Buffer.addAll_concat _ _ _).symm
    · rw [escape_letter hslash hblank hhash hdollar, List.append_assoc, List.cons_append,
        word_run hord, word_letter hletter hslash hdollar]
      exact hrest _ (Buffer.addAll_concat _ _ _).symm

/-- What stands behind an escaped path whose last `k` characters are backslashes. -/
def Stops (k : ℕ) (r : Text) : Prop :=
  ∀ c ∈ r.head?, taken c = false ∧ (isblank c → Even k) ∧ (c = '#' ∨ c = '\n' → k = 0)

theorem word_slashes_stop (h : Stops k r) :
    word (List.replicate k '\\' ++ r) b = some (b.addAll (List.replicate k '\\'), r) := by
  cases r with
  | nil =>
    rw [List.append_nil]
    cases k with
    | zero => exact word_nil b
    | succ k => exact word_run_nil k b
  | cons c f =>
    obtain ⟨htaken, hblank, hlast⟩ := h c rfl
    cases k with
    | zero => exact word_stop htaken
    | succ k =>
      have hslash : c ≠ '\\' := by
        rintro rfl
        exact absurd htaken (by decide)
      have hodd : ¬ (isblank c ∧ (k + 1) % 2 ≠ 0) := fun h => h.2 (Nat.even_iff.mp (hblank h.1))
      have hhash : c ≠ '#' := fun h => absurd (hlast (.inl h)) (Nat.succ_ne_zero k)
      have hlf : c ≠ '\n' := fun h => absurd (hlast (.inr h)) (Nat.succ_ne_zero k)
      rw [word_run_cons hslash, if_neg hodd, if_neg hhash, if_neg hlf, word_stop htaken]

/-- An escaped path is taken back. -/
theorem word_escape_stop {nul : Bool} (hp : Word nul p) (h : Stops (trailing 0 p) r) :
    word (escape 0 p ++ r) b = some (b.addAll p, r) := by
  obtain ⟨q, hq, hword⟩ := word_escape (r := r) hp 0 b
  rw [List.replicate_zero, List.nil_append] at hq
  rw [hword, word_slashes_stop h, ← Buffer.addAll_append, ← hq]

/-- An escaped newline ends it as a blank does. -/
theorem word_escape_continued {nul : Bool} (hp : Word nul p) :
    word (escape 0 p ++ '\\' :: '\n' :: f) b = some (b.addAll p, ' ' :: f) := by
  obtain ⟨q, hq, hword⟩ := word_escape (r := '\\' :: '\n' :: f) hp 0 b
  rw [List.replicate_zero, List.nil_append] at hq
  have hrun : List.replicate (trailing 0 p) '\\' ++ '\\' :: '\n' :: f =
      List.replicate (trailing 0 p + 1) '\\' ++ '\n' :: f := by
    rw [List.replicate_succ', List.append_assoc]
    rfl
  rw [hword, hrun, word_run_cons (by decide), if_neg (by simp [isblank]), if_neg (by decide),
    if_pos rfl, ← Buffer.addAll_append, ← hq]

theorem Word.concat {nul : Bool} (hp : Word nul p) (hc : Word nul [c]) : Word nul (p ++ [c]) := by
  intro c' hc'
  rcases List.mem_append.mp hc' with h | h
  · exact hp c' h
  · exact hc c' h

theorem escape_concat_slash (n : ℕ) (p : Text) : escape n (p ++ ['\\']) = escape n p ++ ['\\'] := by
  induction p generalizing n with
  | nil => simp [escape, List.replicate_succ']
  | cons c p ih =>
    rw [List.cons_append, escape, escape]
    split_ifs <;> simp [ih]

/-! ### What is taken was an escaped path -/

/-- `word` took the path `q` from `s` and left `r`. -/
inductive Took (s : Text) (q : Text) (r : Text) : Prop
  | stop (hs : s = escape 0 q ++ r) (h : Stops (trailing 0 q) r)
  | continued (t : Text) (hs : s = escape 0 q ++ '\\' :: '\n' :: t) (hrest : r = ' ' :: t)

theorem Word.slashes (n : ℕ) : Word true (List.replicate n '\\') := by
  intro c hc
  rw [List.eq_of_mem_replicate hc]
  exact .inr (.inr (.inl rfl))

theorem Word.cons (hc : Letter true c ∨ c = '$' ∨ c = '\\' ∨ c = '#' ∨ isblank c)
    (hp : Word true p) : Word true (c :: p) := by
  intro c' hc'
  rcases List.mem_cons.mp hc' with rfl | h
  · exact hc
  · exact hp c' h

theorem Word.append (hp : Word true p) (hq : Word true t) : Word true (p ++ t) := by
  intro c hc
  rcases List.mem_append.mp hc with h | h
  · exact hp c h
  · exact hq c h

/-- The path that `word` took behind a part `escape n [c]` of it. -/
theorem Took.behind (hc : c ≠ '\\') (hs : x = escape n [c] ++ s) (h : Took s p r) :
    Took x (List.replicate n '\\' ++ c :: p) r := by
  have hescape : escape 0 (List.replicate n '\\' ++ c :: p) = escape n [c] ++ escape 0 p := by
    rw [escape_slashes, Nat.zero_add, escape, escape, if_neg hc, if_neg hc]
    split_ifs <;> simp [escape]
  have htrailing : trailing 0 (List.replicate n '\\' ++ c :: p) = trailing 0 p := by
    rw [trailing_slashes, trailing_cons hc]
  cases h with
  | stop h hstops =>
    refine .stop ?_ (htrailing ▸ hstops)
    rw [hs, h, hescape, List.append_assoc]
  | continued t h hrest =>
    refine .continued t ?_ hrest
    rw [hs, h, hescape, List.append_assoc]

theorem took_slashes (h : Stops n r) :
    Took (List.replicate n '\\' ++ r) (List.replicate n '\\') r := by
  have hescape := escape_slashes 0 n []
  have htrailing := trailing_slashes 0 n []
  rw [List.append_nil, Nat.zero_add] at hescape htrailing
  refine .stop ?_ ?_
  · rw [hescape]
    rfl
  · rw [htrailing]
    exact h

/-- `word` takes nothing but escaped paths. -/
theorem word_took (n : ℕ) (s : Text) (b : Buffer)
    (h : word (List.replicate n '\\' ++ s) b = some (buf', r)) :
    ∃ q, Word true q ∧ buf' = b.addAll q ∧ Took (List.replicate n '\\' ++ s) q r := by
  induction hlen : s.length using Nat.strong_induction_on generalizing n s b with
  | _ len ih =>
  cases s with
  | nil =>
    have hstops : Stops n [] := by simp [Stops]
    rw [word_slashes_stop hstops] at h
    cases h
    exact ⟨_, Word.slashes n, rfl, took_slashes hstops⟩
  | cons c f =>
    by_cases hslash : c = '\\'
    · subst hslash
      have hrun : List.replicate n '\\' ++ '\\' :: f = List.replicate (n + 1) '\\' ++ f := by
        rw [List.replicate_succ', List.append_assoc]
        rfl
      rw [hrun] at h ⊢
      exact ih f.length (by rw [← hlen, List.length_cons]; omega) (n + 1) f b h rfl
    have hlen' := hlen
    -- the rest of the path, after the part `escape m [c]`
    have hrest {m : ℕ} {f' : Text} (hlen : f'.length ≤ f.length)
        (hc : Letter true c ∨ c = '$' ∨ c = '\\' ∨ c = '#' ∨ isblank c)
        (hs : List.replicate n '\\' ++ c :: f = escape m [c] ++ f')
        (hword : word f' (b.addAll (List.replicate m '\\' ++ [c])) = some (buf', r)) :
        ∃ q, Word true q ∧ buf' = b.addAll q ∧ Took (List.replicate n '\\' ++ c :: f) q r := by
      have hshort : f'.length < len := by
        rw [← hlen', List.length_cons]
        omega
      obtain ⟨q, hq, hbuf, htook⟩ := ih f'.length hshort 0 f' _ hword rfl
      refine ⟨List.replicate m '\\' ++ c :: q, (Word.slashes m).append (hq.cons hc), ?_,
        htook.behind hslash hs⟩
      rw [hbuf, ← Buffer.addAll_append]
      simp
    by_cases htaken : taken c
    · have hord := ordinary_of_taken htaken hslash
      rw [word_run hord] at h
      by_cases hdollar : c = '$'
      · subst hdollar
        cases f with
        | nil =>
          rw [word.eq_def] at h
          cases h
        | cons c' f =>
          by_cases hdollar : c' = '$'
          · subst hdollar
            rw [word_dollar] at h
            have hlen : f.length < ('$' :: '$' :: f).length := by
              rw [List.length_cons, List.length_cons]
              omega
            refine @hrest n f (Nat.le_of_lt_succ hlen) (.inr (.inl rfl)) ?_ ?_
            · rw [escape_dollar]
              simp [escape]
            · rw [Buffer.addAll_concat]
              exact h
          · rw [word.eq_def] at h
            simp [hdollar, taken, strchr] at h
      · rw [word_letter htaken hslash hdollar] at h
        have hletter : Letter true c := by
          rcases taken_iff.mp htaken with h | h | h
          · exact h
          · exact absurd h hdollar
          · exact absurd h hslash
        refine @hrest n f (by simp) (.inl hletter) ?_ ?_
        · rw [escape_letter hslash hord.blank hord.hash hdollar]
          simp [escape]
        · rw [Buffer.addAll_concat]
          exact h
    · have hstop : taken c = false := by simpa using htaken
      cases n with
      | zero =>
        have hstops : Stops 0 (c :: f) := by
          rintro c' ⟨rfl⟩
          exact ⟨hstop, fun _ => Even.zero, fun _ => rfl⟩
        rw [word_slashes_stop hstops] at h
        cases h
        exact ⟨_, Word.slashes 0, rfl, took_slashes hstops⟩
      | succ k =>
        rw [word_run_cons hslash] at h
        split at h
        case isTrue hodd =>
          obtain ⟨m, hm⟩ : ∃ m, k + 1 = 2 * m + 1 := ⟨k / 2, by omega⟩
          have hhalf : (k + 1) / 2 = m := by omega
          rw [hhalf] at h
          refine @hrest m f (by simp) (.inr (.inr (.inr (.inr hodd.1)))) ?_ h
          rw [escape_blank hodd.1, hm]
          simp [escape]
        case isFalse hodd =>
          split at h
          case isTrue hhash =>
            subst hhash
            refine @hrest k f (by simp) (.inr (.inr (.inr (.inl rfl)))) ?_ h
            rw [escape_hash]
            simp [escape]
          case isFalse hhash =>
            split at h
            case isTrue hlf =>
              cases h
              subst hlf
              refine ⟨_, Word.slashes k, rfl, .continued f ?_ rfl⟩
              have hescape := escape_slashes 0 k []
              rw [List.append_nil, Nat.zero_add] at hescape
              rw [hescape, List.replicate_succ', List.append_assoc]
              rfl
            case isFalse hlf =>
              have hstops : Stops (k + 1) (c :: f) := by
                rintro c' ⟨rfl⟩
                refine ⟨hstop, fun hblank => ?_, fun h => absurd h (by simp [hhash, hlf])⟩
                by_contra hn
                exact hodd ⟨hblank, fun h => hn (Nat.even_iff.mpr h)⟩
              rw [word_stop hstop] at h
              cases h
              exact ⟨_, Word.slashes _, rfl, took_slashes hstops⟩

end Bootsh.Samu.DepFile
