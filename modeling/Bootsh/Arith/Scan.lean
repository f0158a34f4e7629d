import Bootsh.Arith.Grammar

/-!
`yylex` yields the lexemes of the grammar: the longest constant, identifier or
operator after any blanks. The end of the input and a bad character both stay
where they are, so the lexemes of a string are a finite list.
-/
namespace Bootsh.Arith
open Munch

theorem checkeq_length (op : Binop) (buf : Text) : (checkeq op buf).2.length ≤ buf.length := by
  unfold checkeq
  split <;> simp

theorem yydouble_length (c : Char) (double : Token) (op : Binop) (buf : Text) :
    (yydouble c double op buf).2.length ≤ buf.length := by
  cases buf with
  | nil => exact checkeq_length op []
  | cons d buf =>
    by_cases hd : d = c
    · simp [yydouble, hd]
    · simpa [yydouble, hd] using checkeq_length op (d :: buf)

theorem yyeq_length (withEq alone : Token) (buf : Text) :
    (yyeq withEq alone buf).2.length ≤ buf.length := by
  unfold yyeq
  split <;> simp

theorem yygt_length (buf : Text) : (yygt buf).2.length ≤ buf.length := by
  unfold yygt
  split
  · simp
  · exact (checkeq_length _ _).trans (by simp)
  · simp

theorem yylt_length (buf : Text) : (yylt buf).2.length ≤ buf.length := by
  unfold yylt
  split
  · simp
  · exact (checkeq_length _ _).trans (by simp)
  · simp

theorem yyop_longest {p : String × Token} (hp : p ∈ spellings) {c : Char} {tok : Text}
    (hc : p.1.toList = c :: tok) (r : Text) :
    ∃ q, yyop c (tok ++ r) = some q ∧ q.2.length ≤ r.length := by
  simp only [spellings, List.mem_cons, List.not_mem_nil, or_false] at hp
  rcases hp with rfl | rfl | rfl | rfl | rfl | rfl | rfl | rfl | rfl | rfl | rfl | rfl | rfl | rfl |
    rfl | rfl | rfl | rfl | rfl | rfl | rfl | rfl | rfl | rfl | rfl | rfl | rfl | rfl | rfl | rfl |
    rfl | rfl | rfl | rfl | rfl <;>
  · simp only [String.reduceToList, List.cons.injEq] at hc
    obtain ⟨rfl, rfl⟩ := hc
    refine ⟨_, rfl, ?_⟩
    first
      | exact yydouble_length _ _ _ r
      | exact yyeq_length _ _ r
      | exact yygt_length r
      | exact yylt_length r
      | exact checkeq_length _ r
      | simp [yydouble, yyeq, yygt, yylt, checkeq]
    
instance (s : Text) (t : Token) : Decidable (Spells s t) :=
  inferInstanceAs (Decidable (∃ p ∈ spellings, p.1.toList = s ∧ p.2 = t))

theorem checkeq_spells (op : Binop) (pre : Text) (h₁ : Spells pre (.binop op))
    (h₂ : Spells (pre ++ ['=']) (.binopAss op)) (buf : Text) :
    ∃ tok, Spells tok (checkeq op buf).1 ∧ pre ++ buf = tok ++ (checkeq op buf).2 := by
  unfold checkeq
  split
  · exact ⟨pre ++ ['='], h₂, by simp⟩
  · exact ⟨pre, h₁, rfl⟩

theorem yydouble_spells {c : Char} {double : Token} {op : Binop} (h : Spells [c, c] double)
    (h₁ : Spells [c] (.binop op)) (h₂ : Spells [c, '='] (.binopAss op)) (buf : Text) :
    ∃ tok, Spells tok (yydouble c double op buf).1 ∧
      c :: buf = tok ++ (yydouble c double op buf).2 := by
  cases buf with
  | nil => exact ⟨[c], h₁, rfl⟩
  | cons d buf =>
    by_cases hd : d = c
    · exact ⟨[c, c], by simp [yydouble, hd, h], by simp [yydouble, hd]⟩
    · simpa [yydouble, hd] using checkeq_spells op [c] h₁ h₂ (d :: buf)

theorem yyeq_spells {c : Char} {withEq alone : Token} (h₁ : Spells [c, '='] withEq)
    (h₂ : Spells [c] alone) (buf : Text) :
    ∃ tok, Spells tok (yyeq withEq alone buf).1 ∧ c :: buf = tok ++ (yyeq withEq alone buf).2 := by
  unfold yyeq
  split
  · exact ⟨[c, '='], h₁, rfl⟩
  · exact ⟨[c], h₂, rfl⟩

theorem yygt_spells (buf : Text) :
    ∃ tok, Spells tok (yygt buf).1 ∧ '>' :: buf = tok ++ (yygt buf).2 := by
  unfold yygt
  split
  · exact ⟨['>', '='], (by decide : Spells _ (.binop .ge)), rfl⟩
  · exact checkeq_spells .rshift ['>', '>'] (by decide) (by decide) _
  · exact ⟨['>'], (by decide : Spells _ (.binop .gt)), rfl⟩

theorem yylt_spells (buf : Text) :
    ∃ tok, Spells tok (yylt buf).1 ∧ '<' :: buf = tok ++ (yylt buf).2 := by
  unfold yylt
  split
  · exact ⟨['<', '='], (by decide : Spells _ (.binop .le)), rfl⟩
  · exact checkeq_spells .lshift ['<', '<'] (by decide) (by decide) _
  · exact ⟨['<'], (by decide : Spells _ (.binop .lt)), rfl⟩

theorem yyop_spells {c : Char} {buf : Text} {q : Token × Text} (h : yyop c buf = some q) :
    ∃ tok, Spells tok q.1 ∧ c :: buf = tok ++ q.2 := by
  have single (d : Char) (t : Token) (hs : Spells [d] t) :
      ∃ tok, Spells tok (t, buf).1 ∧ d :: buf = tok ++ (t, buf).2 := ⟨[d], hs, rfl⟩
  unfold yyop at h
  split at h <;> simp only [Option.some.injEq, reduceCtorEq] at h <;> subst h
  · exact yyeq_spells (by decide) (by decide) buf
  · exact yygt_spells buf
  · exact yylt_spells buf
  · exact yydouble_spells (by decide) (by decide) (by decide) buf
  · exact yydouble_spells (by decide) (by decide) (by decide) buf
  · exact yyeq_spells (by decide) (by decide) buf
  · exact single _ _ (by decide)
  · exact single _ _ (by decide)
  · exact checkeq_spells .mul ['*'] (by decide) (by decide) buf
  · exact checkeq_spells .div ['/'] (by decide) (by decide) buf
  · exact checkeq_spells .rem ['%'] (by decide) (by decide) buf
  · exact checkeq_spells .add ['+'] (by decide) (by decide) buf
  · exact checkeq_spells .sub ['-'] (by decide) (by decide) buf
  · exact single _ _ (by decide)
  · exact checkeq_spells .bxor ['^'] (by decide) (by decide) buf
  · exact single _ _ (by decide)
  · exact single _ _ (by decide)

/-! ### One lexeme -/

/-- The lexeme at the start of the input and the input after it. A bad character
is the lexeme `sym bad`, and is not consumed. -/
def scan (s : Text) : Option (Lexeme × Text) :=
  match s.dropWhile isBlankChar with
  | [] => none
  | c :: buf =>
    if isDigit c then
      let r := basePrefix 0 (c :: buf)
      some (.num (magnitude r.1 (r.2.takeWhile (isBaseDigit r.1))),
        r.2.dropWhile (isBaseDigit r.1))
    else if isName c then
      some (.var (c :: buf.takeWhile isInName), buf.dropWhile isInName)
    else
      match yyop c buf with
      | some (token, buf) => some (.sym token, buf)
      | none => some (.sym .bad, s)

/-- What `yylex` returns for a lexeme. -/
def Lexeme.token : Lexeme → Token
  | .num _ => .num
  | .var _ => .var
  | .sym t => t

/-- What `yylex` leaves in `yylval`. -/
def Lexeme.val (yylval : YYSType) : Lexeme → YYSType
  | .num n => .val (saturate false n).1
  | .var x => .name x
  | .sym _ => yylval

theorem isDigit_iff {c : Char} : isDigit c ↔ 48 ≤ c.toNat ∧ c.toNat ≤ 57 := by
  simp [isDigit]

theorem isBaseDigit_of_isDigit {c : Char} (h : isDigit c) : isBaseDigit 10 c := by
  have := isDigit_iff.mp h
  simp [isBaseDigit, digitVal, h]
  omega

theorem ne_of_isDigit {c d : Char} (h : isDigit c) (hd : isDigit d = false) : c ≠ d := by
  rintro rfl
  simp [h] at hd

theorem isSpace_of_isDigit {c : Char} (h : isDigit c) : isSpace c = false := by
  simp only [isSpace, Bool.or_eq_false_iff, beq_eq_false_iff_ne]
  exact ⟨⟨⟨⟨⟨ne_of_isDigit h (by decide), ne_of_isDigit h (by decide)⟩,
    ne_of_isDigit h (by decide)⟩, ne_of_isDigit h (by decide)⟩, ne_of_isDigit h (by decide)⟩,
    ne_of_isDigit h (by decide)⟩

/-- After `basePrefix` there is a digit of its base to read. -/
theorem basePrefix_takeWhile_ne_nil {c : Char} (hc : isDigit c) (buf : Text) :
    (basePrefix 0 (c :: buf)).2.takeWhile (isBaseDigit (basePrefix 0 (c :: buf)).1) ≠ [] := by
  have hzero : isBaseDigit 8 '0' := by decide
  unfold basePrefix
  split
  · split
    · rename_i heq h
      simp [h.2.1]
    · rename_i heq h
      cases heq
      simp [hzero]
  · rename_i heq
    cases heq
    simp [hzero]
  · simp [isBaseDigit_of_isDigit hc]

theorem yylex_eq (yylval : YYSType) (s : Text) :
    yylex yylval s = match scan s with
      | none => ⟨.eof, yylval, []⟩
      | some (l, buf) => ⟨l.token, l.val yylval, buf⟩ := by
  unfold yylex scan
  cases s.dropWhile isBlankChar with
  | nil => rfl
  | cons c buf =>
    by_cases hd : isDigit c
    · have hne := basePrefix_takeWhile_ne_nil hd buf
      simp only [hd, if_true, strtoimax, isSpace_of_isDigit hd, List.dropWhile_cons_of_neg,
        Bool.false_eq_true, not_false_eq_true]
      split
      · rename_i heq
        cases heq
        simp [isDigit] at hd
      · rename_i heq
        cases heq
        simp [isDigit] at hd
      · simp [hne, Lexeme.token, Lexeme.val]
    · by_cases hn : isName c
      · simp [hd, hn, Lexeme.token, Lexeme.val]
      · simp only [hd, hn, Bool.false_eq_true, if_false]
        cases yyop c buf <;> rfl

theorem magnitude_zero_cons (base : ℕ) (s : Text) : magnitude base ('0' :: s) = magnitude base s := by
  simp [magnitude, digitVal, isDigit]

theorem basePrefix_dec {c : Char} {buf : Text} (h : c ≠ '0') :
    basePrefix 0 (c :: buf) = (10, c :: buf) := by
  unfold basePrefix
  split
  · rename_i heq
    cases heq
    contradiction
  · rename_i heq
    cases heq
    contradiction
  · rfl

/-- `0x` and a digit: the start of a hexadecimal constant. -/
def HexPrefix (buf : Text) : Prop :=
  ∃ x d r, buf = x :: d :: r ∧ (x = 'x' ∨ x = 'X') ∧ isBaseDigit 16 d

theorem basePrefix_oct {buf : Text} (h : ¬ HexPrefix buf) :
    basePrefix 0 ('0' :: buf) = (8, '0' :: buf) := by
  unfold basePrefix
  split
  next x d r heq =>
    obtain rfl := (List.cons.inj heq).2
    rw [if_neg fun hh => h ⟨x, d, r, rfl, hh.1, hh.2.1⟩, if_pos rfl]
  · simp
  next hne => exact absurd rfl (hne buf)

theorem longest_dec {c : Char} {buf : Text} (hd : isDigit c) (h : c ≠ '0') :
    Longest IsConstant (c :: buf) (c :: buf.takeWhile (isBaseDigit 10))
      (buf.dropWhile (isBaseDigit 10)) := by
  apply longest_cons_takeWhile
  · exact ⟨_, .dec c _ hd h fun d hd => List.mem_takeWhile_imp hd⟩
  · rintro t ⟨n, ht⟩ -
    cases ht with
    | dec _ _ _ _ hall => exact hall
    | oct => exact absurd rfl h
    | hex => exact absurd rfl h

theorem longest_oct {buf : Text} (h : ¬ HexPrefix buf) :
    Longest IsConstant ('0' :: buf) ('0' :: buf.takeWhile (isBaseDigit 8))
      (buf.dropWhile (isBaseDigit 8)) := by
  apply longest_cons_takeWhile
  · exact ⟨_, .oct _ fun d hd => List.mem_takeWhile_imp hd⟩
  · rintro t ⟨n, ht⟩ hpre
    cases ht with
    | dec _ _ _ h0 => exact absurd rfl h0
    | oct _ hall => exact hall
    | hex x ds hx hds hall =>
      obtain ⟨d, ds, rfl⟩ := List.exists_cons_of_ne_nil hds
      obtain ⟨r, rfl⟩ := hpre
      exact absurd ⟨x, d, ds ++ r, rfl, hx, hall d (by simp)⟩ h

theorem longest_hex {x d : Char} {r : Text} (hx : x = 'x' ∨ x = 'X') (hd : isBaseDigit 16 d) :
    Longest IsConstant ('0' :: x :: d :: r) ('0' :: x :: (d :: r).takeWhile (isBaseDigit 16))
      ((d :: r).dropWhile (isBaseDigit 16)) := by
  refine ⟨by simp, ⟨_, .hex x _ hx (by simp [hd]) fun c hc => List.mem_takeWhile_imp hc⟩, ?_⟩
  rintro t ⟨n, ht⟩ hpre
  cases ht with
  | dec c _ _ h0 => exact absurd (List.cons_prefix_cons.mp hpre).1 h0
  | oct ds hall =>
    have hds := (List.cons_prefix_cons.mp hpre).2
    cases ds with
    | nil => simp
    | cons c ds =>
      obtain ⟨rfl, -⟩ := List.cons_prefix_cons.mp hds
      have hoct := hall c (by simp)
      rcases hx with rfl | rfl <;> exact absurd hoct (by decide)
  | hex y ds _ _ hall =>
    obtain ⟨-, hds⟩ := List.cons_prefix_cons.mp (List.cons_prefix_cons.mp hpre).2
    simpa using (prefix_takeWhile hds hall).length_le

/-- A numeral is munched whole. -/
theorem basePrefix_longest {c : Char} (hc : isDigit c) (buf : Text) :
    ∃ tok, Constant tok (magnitude (basePrefix 0 (c :: buf)).1
        ((basePrefix 0 (c :: buf)).2.takeWhile (isBaseDigit (basePrefix 0 (c :: buf)).1))) ∧
      Longest IsConstant (c :: buf) tok
        ((basePrefix 0 (c :: buf)).2.dropWhile (isBaseDigit (basePrefix 0 (c :: buf)).1)) := by
  by_cases h0 : c = '0'
  · subst h0
    by_cases hh : HexPrefix buf
    · obtain ⟨x, d, r, rfl, hx, hd⟩ := hh
      have heq : basePrefix 0 ('0' :: x :: d :: r) = (16, d :: r) := by simp [basePrefix, hx, hd]
      rw [heq]
      refine ⟨_, ?_, longest_hex hx hd⟩
      exact .hex x _ hx (by simp [hd]) fun c hc => List.mem_takeWhile_imp hc
    · have hzero : isBaseDigit 8 '0' := by decide
      rw [basePrefix_oct hh]
      simp only [hzero, List.takeWhile_cons_of_pos, List.dropWhile_cons_of_pos,
        magnitude_zero_cons]
      exact ⟨_, .oct _ fun d hd => List.mem_takeWhile_imp hd, longest_oct hh⟩
  · have hten := isBaseDigit_of_isDigit hc
    rw [basePrefix_dec h0]
    simp only [hten, List.takeWhile_cons_of_pos, List.dropWhile_cons_of_pos]
    exact ⟨_, .dec c _ hc h0 fun d hd => List.mem_takeWhile_imp hd, longest_dec hc h0⟩

theorem Constant.unique {tok : Text} {m n : ℕ} (h : Constant tok m) (h' : Constant tok n) :
    m = n := by
  cases h with
  | dec c ds hc h0 hall =>
    cases h' with
    | dec => rfl
    | oct => exact absurd rfl h0
    | hex => exact absurd rfl h0
  | oct ds hall =>
    cases h' with
    | dec _ _ _ h0 => exact absurd rfl h0
    | oct => rfl
    | hex x _ hx =>
      have := hall x (by simp)
      rcases hx with rfl | rfl <;> exact absurd this (by decide)
  | hex x ds hx hds hall =>
    cases h' with
    | dec _ _ _ h0 => exact absurd rfl h0
    | oct _ hoct =>
      have := hoct x (by simp)
      rcases hx with rfl | rfl <;> exact absurd this (by decide)
    | hex => rfl

theorem Spells.unique {tok : Text} {t u : Token} (h : Spells tok t) (h' : Spells tok u) :
    t = u := by
  have key : ∀ p ∈ spellings, ∀ q ∈ spellings, p.1.toList = q.1.toList → p.2 = q.2 := by
    decide +kernel
  obtain ⟨p, hp, rfl, rfl⟩ := h
  obtain ⟨q, hq, hpq, rfl⟩ := h'
  exact key p hp q hq hpq.symm

/-- Constants start with a digit, identifiers with a name character, and
operators and blanks with neither. -/
theorem IsConstant.head {tok : Text} (h : IsConstant tok) :
    ∃ c cs, tok = c :: cs ∧ isDigit c := by
  obtain ⟨n, h⟩ := h
  cases h with
  | dec c ds hc => exact ⟨c, ds, rfl, hc⟩
  | oct ds => exact ⟨_, ds, rfl, by decide⟩
  | hex x ds => exact ⟨_, x :: ds, rfl, by decide⟩

theorem Spells.head {tok : Text} {t : Token} (h : Spells tok t) :
    ∃ c cs, tok = c :: cs ∧ isDigit c = false ∧ isName c = false ∧ isBlankChar c = false := by
  have key : ∀ p ∈ spellings, p.1.toList.head?.any
      (fun c => !isDigit c && !isName c && !isBlankChar c) = true := by
    decide +kernel
  obtain ⟨p, hp, rfl, rfl⟩ := h
  have hp := key p hp
  cases hs : p.1.toList with
  | nil => simp [hs] at hp
  | cons c cs => exact ⟨c, cs, rfl, by simpa [hs, and_assoc] using hp⟩

theorem isBlankChar_of_isDigit {c : Char} (h : isDigit c) : isBlankChar c = false := by
  simp only [isBlankChar, Bool.or_eq_false_iff, beq_eq_false_iff_ne]
  exact ⟨⟨ne_of_isDigit h (by decide), ne_of_isDigit h (by decide)⟩, ne_of_isDigit h (by decide)⟩

theorem isBlankChar_of_isName {c : Char} (h : isName c) : isBlankChar c = false := by
  have hne (d : Char) (hd : isName d = false) : c ≠ d := by
    rintro rfl
    simp [h] at hd
  simp only [isBlankChar, Bool.or_eq_false_iff, beq_eq_false_iff_ne]
  exact ⟨⟨hne _ (by decide), hne _ (by decide)⟩, hne _ (by decide)⟩

theorem isDigit_of_isName {c : Char} (h : isName c) : isDigit c = false := by
  by_contra hd
  have hd := isDigit_iff.mp (by simpa using hd)
  simp only [isName, isAlpha, isUpper, isLower, Bool.or_eq_true, beq_iff_eq, Bool.and_eq_true,
    decide_eq_true_eq] at h
  rcases h with rfl | ⟨h, -⟩ | ⟨h, -⟩
  · exact absurd hd (by decide)
  · have : ('A' : Char).toNat = 65 := rfl
    omega
  · have : ('a' : Char).toNat = 97 := rfl
    omega

theorem scan_num {s tok rest : Text} {n : ℕ} (h : Longest IsConstant s tok rest)
    (hn : Constant tok n) : scan s = some (.num n, rest) := by
  obtain ⟨c, cs, rfl, hc⟩ := h.mem.head
  obtain rfl := h.split
  obtain ⟨tok', hn', h'⟩ := basePrefix_longest hc (cs ++ rest)
  obtain ⟨rfl, hrest⟩ := h'.unique h
  simp [scan, isBlankChar_of_isDigit hc, hc, hrest, hn'.unique hn]

theorem longest_identifier {c : Char} (hc : isName c) (buf : Text) :
    Longest IsIdentifier (c :: buf) (c :: buf.takeWhile isInName) (buf.dropWhile isInName) := by
  apply longest_cons_takeWhile
  · exact ⟨c, _, rfl, hc, fun d hd => List.mem_takeWhile_imp hd⟩
  · rintro t ⟨c', cs, heq, -, hall⟩ -
    obtain ⟨-, rfl⟩ := List.cons.inj heq
    exact hall

theorem scan_var {s tok rest : Text} (h : Longest IsIdentifier s tok rest) :
    scan s = some (.var tok, rest) := by
  obtain ⟨c, cs, rfl, hc, -⟩ := h.mem
  obtain rfl := h.split
  obtain ⟨htok, hrest⟩ := (longest_identifier hc (cs ++ rest)).unique h
  have htok := (List.cons.inj htok).2
  simp [scan, isBlankChar_of_isName hc, isDigit_of_isName hc, hc, htok, hrest]

theorem yyop_isLongest {c : Char} {buf : Text} {q : Token × Text} (h : yyop c buf = some q) :
    ∃ tok, Spells tok q.1 ∧ Longest IsSymbol (c :: buf) tok q.2 := by
  obtain ⟨tok, hs, heq⟩ := yyop_spells h
  refine ⟨tok, hs, heq, ⟨_, hs⟩, ?_⟩
  rintro tok' ⟨t', p, hp, hp', -⟩ ⟨r, hr⟩
  obtain ⟨d, cs, rfl, -⟩ := Spells.head ⟨p, hp, hp', rfl⟩
  obtain ⟨rfl, hbuf⟩ : d = c ∧ cs ++ r = buf := by simpa using hr
  obtain ⟨q', hq', hlen⟩ := yyop_longest hp hp' r
  obtain rfl : q' = q := Option.some.inj ((hbuf ▸ hq').symm.trans h)
  have htot := congrArg List.length heq
  simp only [← hbuf, List.length_cons, List.length_append] at htot ⊢
  omega

theorem scan_sym {s tok rest : Text} {t : Token} (h : Longest IsSymbol s tok rest)
    (ht : Spells tok t) : scan s = some (.sym t, rest) := by
  obtain ⟨c, cs, rfl, hd, hn, hb⟩ := ht.head
  obtain rfl := h.split
  obtain ⟨p, hp, hp', -⟩ := id ht
  obtain ⟨q, hq, -⟩ := yyop_longest hp hp' rest
  obtain ⟨tok', hs, h'⟩ := yyop_isLongest hq
  obtain ⟨rfl, hrest⟩ := h'.unique h
  obtain rfl := hs.unique ht
  simp [scan, hb, hd, hn, hq, hrest]
/-! ### The whole input -/

theorem scan_eq_none {s : Text} (h : scan s = none) : s.dropWhile isBlankChar = [] := by
  unfold scan at h
  split at h
  · assumption
  · split_ifs at h
    split at h <;> simp at h

/-- A lexeme that is not bad is one of the grammar, and is consumed. -/
theorem scan_eq_some {s buf : Text} {l : Lexeme} (h : scan s = some (l, buf))
    (hl : l ≠ .sym .bad) : buf.length < s.length ∧
      ∀ ls, Lexes buf ls → Lexes (s.dropWhile isBlankChar) (l :: ls) := by
  have hdrop : (s.dropWhile isBlankChar).length ≤ s.length := (List.dropWhile_sublist _).length_le
  have hshort {P : Text → Prop} {t tok rest : Text} (hm : Longest P t tok rest)
      (hne : ∃ c cs, tok = c :: cs) : rest.length < t.length := by
    obtain ⟨c, cs, rfl⟩ := hne
    rw [hm.split, List.length_append, List.length_cons]
    omega
  unfold scan at h
  split at h
  · simp at h
  next c t heq =>
    rw [heq] at hdrop ⊢
    split_ifs at h with hd hn
    · obtain ⟨tok, hc, hm⟩ := basePrefix_longest hd t
      obtain ⟨rfl, rfl⟩ := Prod.mk.inj (Option.some.inj h)
      obtain ⟨c', cs, htok, -⟩ := IsConstant.head ⟨_, hc⟩
      exact ⟨(hshort hm ⟨c', cs, htok⟩).trans_le hdrop, fun ls => .num hm hc⟩
    · obtain ⟨rfl, rfl⟩ := Prod.mk.inj (Option.some.inj h)
      have hm := longest_identifier hn t
      exact ⟨(hshort hm ⟨_, _, rfl⟩).trans_le hdrop, fun ls => .var hm⟩
    · split at h
      next token rest hq =>
        obtain ⟨rfl, rfl⟩ := Prod.mk.inj (Option.some.inj h)
        obtain ⟨tok, hs, hm⟩ := yyop_isLongest hq
        obtain ⟨c', cs, htok, -⟩ := hs.head
        exact ⟨(hshort hm ⟨c', cs, htok⟩).trans_le hdrop, fun ls => .sym hm hs⟩
      · exact absurd (Prod.mk.inj (Option.some.inj h)).1.symm hl

/-- The lexemes `yylex` returns up to the end of the input or a bad character. -/
def lexemes (s : Text) : List Lexeme :=
  match h : scan s with
  | none => []
  | some (l, buf) =>
    if hl : l = .sym .bad then [l]
    else
      have := (scan_eq_some h hl).1
      l :: lexemes buf
termination_by s.length

theorem lexemes_none {s : Text} (h : scan s = none) : lexemes s = [] := by
  rw [lexemes]
  split <;> simp_all

theorem lexemes_bad {s buf : Text} (h : scan s = some (.sym .bad, buf)) :
    lexemes s = [.sym .bad] := by
  rw [lexemes]
  split <;> simp_all

theorem lexemes_some {s buf : Text} {l : Lexeme} (h : scan s = some (l, buf))
    (hl : l ≠ .sym .bad) : lexemes s = l :: lexemes buf := by
  rw [lexemes]
  split
  · simp_all
  next l' buf' heq =>
    obtain ⟨rfl, rfl⟩ := Prod.mk.inj (Option.some.inj (heq.symm.trans h))
    rw [dif_neg hl]

theorem scan_blank {c : Char} (hc : isBlankChar c) (s : Text) :
    (scan (c :: s) = scan s) ∨
      scan (c :: s) = some (.sym .bad, c :: s) ∧ scan s = some (.sym .bad, s) := by
  unfold scan
  rw [List.dropWhile_cons_of_pos hc]
  split
  · exact .inl rfl
  next c t _ =>
    split_ifs
    · exact .inl rfl
    · exact .inl rfl
    · cases yyop c t with
      | some q => exact .inl rfl
      | none => exact .inr ⟨rfl, rfl⟩

theorem lexemes_blank {c : Char} {s : Text} (hc : isBlankChar c) :
    lexemes (c :: s) = lexemes s := by
  rcases scan_blank hc s with h | ⟨h, h'⟩
  · cases hs : scan s with
    | none => rw [lexemes_none hs, lexemes_none (h.trans hs)]
    | some r =>
      obtain ⟨l, buf⟩ := r
      by_cases hl : l = .sym .bad
      · subst hl
        rw [lexemes_bad hs, lexemes_bad (h.trans hs)]
      · rw [lexemes_some hs hl, lexemes_some (h.trans hs) hl]
  · rw [lexemes_bad h, lexemes_bad h']

theorem lexes_of_dropWhile {s : Text} {ls : List Lexeme} (h : Lexes (s.dropWhile isBlankChar) ls) :
    Lexes s ls := by
  induction s with
  | nil => exact h
  | cons c s ih =>
    by_cases hc : isBlankChar c
    · rw [List.dropWhile_cons_of_pos hc] at h
      exact .blank hc (ih h)
    · rwa [List.dropWhile_cons_of_neg hc] at h

theorem Spells.ne_bad {tok : Text} {t : Token} (h : Spells tok t) : t ≠ .bad := by
  have key : ∀ p ∈ spellings, p.2 ≠ .bad := by decide
  obtain ⟨p, hp, -, rfl⟩ := h
  exact key p hp

/-- The scanner reads the lexemes of the grammar, and finds a bad character exactly
where there are none. -/
theorem lexes_iff {s : Text} {ls : List Lexeme} :
    Lexes s ls ↔ lexemes s = ls ∧ .sym .bad ∉ ls := by
  constructor
  · intro h
    induction h with
    | nil => exact ⟨lexemes_none rfl, by simp⟩
    | blank hc _ ih => exact ⟨(lexemes_blank hc).trans ih.1, ih.2⟩
    | num hm hn _ ih => exact ⟨by rw [lexemes_some (scan_num hm hn) (by simp), ih.1], by simp [ih.2]⟩
    | var hm _ ih => exact ⟨by rw [lexemes_some (scan_var hm) (by simp), ih.1], by simp [ih.2]⟩
    | sym hm ht _ ih =>
      have hb := ht.ne_bad
      exact ⟨by rw [lexemes_some (scan_sym hm ht) (by simpa using hb), ih.1],
        by simp [ih.2, hb.symm]⟩
  · rintro ⟨rfl, hbad⟩
    induction hlen : s.length using Nat.strong_induction_on generalizing s with
    | _ n ih =>
      apply lexes_of_dropWhile
      cases hs : scan s with
      | none =>
        rw [scan_eq_none hs, lexemes_none hs]
        exact .nil
      | some r =>
        obtain ⟨l, buf⟩ := r
        by_cases hl : l = .sym .bad
        · subst hl
          simp [lexemes_bad hs] at hbad
        · rw [lexemes_some hs hl] at hbad ⊢
          obtain ⟨hlt, hlex⟩ := scan_eq_some hs hl
          exact hlex _ (ih buf.length (hlen ▸ hlt) (fun hb => hbad (by simp [hb])) rfl)

end Bootsh.Arith
