import Bootsh.Numeral
import Bootsh.Arith.Unselected
import Bootsh.Var.Hooks
import Bootsh.Var.Return

/-!
Numbers written literally and numbers in variables: `yylex` converts the ones, `atomax` the
others.
-/
namespace Bootsh

/-! ### What is stored is read back -/

theorem toDigits_head {n : ℕ} (hn : n ≠ 0) : (Nat.toDigits 10 n).head? ≠ some '0' := by
  induction n using Nat.strongRecOn with
  | ind n ih =>
    rw [Nat.toDigits_eq_if (by decide)]
    split
    case isTrue h =>
      interval_cases n <;> simp_all [Nat.digitChar]
    case isFalse h =>
      have hne := @Nat.toDigits_ne_nil (n / 10) 10
      rw [List.head?_append_of_ne_nil _ hne]
      exact ih (n / 10) (by omega) (by omega)

/-- A decimal numeral is read the same where its base is to be found out. -/
theorem basePrefix_toDigits {n : ℕ} (hn : n ≠ 0) :
    basePrefix 0 (Nat.toDigits 10 n) = basePrefix 10 (Nat.toDigits 10 n) := by
  have hdigits : ∀ c ∈ Nat.toDigits 10 n, isBaseDigit 10 c := fun c hc =>
    isBaseDigit_of_mem_toDigits (by decide) (by decide) hc
  have hhead := toDigits_head hn
  rw [basePrefix_digits (by decide) hdigits (by decide)]
  cases hs : Nat.toDigits 10 n with
  | nil => exact absurd hs Nat.toDigits_ne_nil
  | cons c s =>
    rw [hs] at hhead
    exact Arith.basePrefix_dec (by simpa using hhead)

theorem strtoimax_fmtImax_zero (n : IntMax) : strtoimax (fmtImax n) 0 = ⟨n, [], false⟩ := by
  by_cases hn : n = 0
  · subst hn
    decide
  · have hne : n.toInt.natAbs ≠ 0 := by
      rw [Int.natAbs_ne_zero]
      intro h
      exact hn (BitVec.eq_of_toInt_eq h)
    have hpre := basePrefix_toDigits hne
    rw [← strtoimax_fmtImax n, fmtImax]
    split
    case isTrue => simp only [strtoimax, dropWhile_isSpace_cons (show isSpace '-' = false from rfl), hpre]
    case isFalse =>
      cases hs : Nat.toDigits 10 n.toInt.natAbs with
      | nil => exact absurd hs Nat.toDigits_ne_nil
      | cons c s =>
        have hc : isBaseDigit 10 c :=
          @isBaseDigit_of_mem_toDigits 10 c (by decide) (by decide) _ (hs ▸ List.mem_cons_self)
        rw [hs] at hpre
        rw [strtoimax, strtoimax, dropWhile_isSpace_cons (isSpace_of_isBaseDigit (by decide) hc)]
        split
        case h_1 neg t heq =>
        split at heq
        case h_1 hsign =>
          cases hsign
          exact absurd hc (by decide)
        case h_2 hsign =>
          cases hsign
          exact absurd hc (by decide)
        case h_3 =>
          cases heq
          simp only [hpre]

theorem atomax_fmtImax (n : IntMax) : atomax (fmtImax n) 0 = .ok n := by
  simp [atomax, strtoimax_fmtImax_zero]

namespace Arith

/-- `lookupvarint` reads what `setvarint` stored. -/
theorem setvarint_lookupvarint {name : Text} {n : IntMax} {vars : Vars} {p : IntMax × Vars}
    (hname : isGoodName name) (h : shellVars.setvarint name n vars = .ok p) :
    p.1 = n ∧ shellVars.lookupvarint name p.2 = .ok n := by
  obtain ⟨vars', hset, hp⟩ := Fallible.bind_eq_ok.mp h
  cases hp
  have hro : (vars.entry name).readonly = false := by
    by_contra hro
    rw [Bool.not_eq_false] at hro
    have herr : setvar name (some (fmtImax n)) VFlags.zero vars = .error (readonlyError name) := by
      simp [setvar, Vars.varName_of_good hname, hname, Vars.setvareqVal_readonly hro]
    cases herr.symm.trans hset
  obtain ⟨w, hw, hwritten, -⟩ := @Vars.setvareqVal_written name (VFlags.zero ||| VFlags.vnosave)
    (some (fmtImax n)) vars hro rfl rfl
  have hset' : setvar name (some (fmtImax n)) VFlags.zero vars = .ok w := by
    rw [setvar, Vars.varName_of_good hname, if_neg (by simp [hname])]
    exact hw
  cases hset'.symm.trans hset
  refine ⟨rfl, ?_⟩
  change atomax ((lookupvar name vars').1.getD []) 0 = _
  rw [hwritten.value]
  exact atomax_fmtImax n

/-! ### Words that start as a number does -/

/-- A word that starts as a number does, between blanks. -/
structure NumberWord (t w : Text) : Prop where
  split : ∃ l r, t = l ++ w ++ r ∧ (∀ b ∈ l, isBlankChar b) ∧ ∀ b ∈ r, isBlankChar b
  word : ∃ c cs, w = c :: cs ∧ isDigit c ∧ ∀ d ∈ cs, isInName d

theorem isSpace_of_isBlankChar {c : Char} (h : isBlankChar c) : isSpace c := by
  simp only [isBlankChar, Bool.or_eq_true, beq_iff_eq] at h
  rcases h with (rfl | rfl) | rfl <;> rfl

/-- `strtoimax` at a digit: the longest constant, without a sign. -/
theorem strtoimax_digit {s buf : Text} {c : Char} (hs : s.dropWhile isSpace = c :: buf)
    (hc : isDigit c) : ∃ tok n rest, Constant tok n ∧
      Munch.Longest IsConstant (c :: buf) tok rest ∧
      strtoimax s 0 = ⟨(saturate false n).1, rest, (saturate false n).2⟩ := by
  have hne := basePrefix_takeWhile_ne_nil hc buf
  obtain ⟨tok, hconst, hlong⟩ := basePrefix_longest hc buf
  refine ⟨tok, _, _, hconst, hlong, ?_⟩
  rw [strtoimax, hs]
  split
  case h_1 neg t heq =>
  split at heq
  case h_1 hsign =>
    cases hsign
    exact absurd hc (by decide)
  case h_2 hsign =>
    cases hsign
    exact absurd hc (by decide)
  case h_3 =>
    cases heq
    dsimp only
    rw [if_neg hne]

theorem Constant.inName {tok : Text} {n : ℕ} (h : Constant tok n) : ∀ d ∈ tok, isInName d := by
  have hdigit {b : ℕ} (hb : b ≤ 16) {d : Char} (hd : isBaseDigit b d) : isInName d := by
    have hlt : digitVal d < b := of_decide_eq_true hd
    unfold digitVal at hlt
    simp only [isInName, isAlnum, isAlpha, Bool.or_eq_true]
    split_ifs at hlt with h₁ h₂ h₃
    · exact .inr (.inr h₁)
    · exact .inr (.inl (.inl h₂))
    · exact .inr (.inl (.inr h₃))
    · omega
  intro d hd
  cases h with
  | dec c ds hc h0 hall =>
    rcases List.mem_cons.mp hd with rfl | hd
    · exact hdigit (by decide) (isBaseDigit_of_isDigit hc)
    · exact hdigit (by decide) (hall d hd)
  | oct ds hall =>
    rcases List.mem_cons.mp hd with rfl | hd
    · rfl
    · exact hdigit (by decide) (hall d hd)
  | hex x ds hx hds hall =>
    rcases List.mem_cons.mp hd with rfl | hd
    · rfl
    · rcases List.mem_cons.mp hd with rfl | hd
      · rcases hx with rfl | rfl <;> rfl
      · exact hdigit (by decide) (hall d hd)

theorem isInName_of_isBlankChar {c : Char} (h : isBlankChar c) : isInName c = false := by
  simp only [isBlankChar, Bool.or_eq_true, beq_iff_eq] at h
  rcases h with (rfl | rfl) | rfl <;> rfl

theorem isSpace_of_isInName {c : Char} (h : isInName c) : isSpace c = false := by
  by_contra hs
  simp only [Bool.not_eq_false, isSpace, Bool.or_eq_true, beq_iff_eq] at hs
  rcases hs with ((((rfl | rfl) | rfl) | rfl) | rfl) | rfl <;> exact absurd h (by decide)

theorem takeWhile_word {w r : Text} (hw : ∀ d ∈ w, isInName d) (hr : ∀ b ∈ r, isBlankChar b) :
    (w ++ r).takeWhile isInName = w := by
  rw [List.takeWhile_append_of_pos hw]
  cases r with
  | nil => simp
  | cons b r => rw [List.takeWhile_cons_of_neg (by simp [isInName_of_isBlankChar (hr b (by simp))]),
      List.append_nil]

theorem scan_dropWhile {s buf : Text} {c : Char} (hs : s.dropWhile isBlankChar = c :: buf)
    (hc : isDigit c) : scan s = scan (c :: buf) := by
  have hblank := isBlankChar_of_isDigit hc
  rw [scan, scan, hs, List.dropWhile_cons_of_neg (by simp [hblank])]
  simp [hc]

theorem scan_blanks {r : Text} (hr : ∀ b ∈ r, isBlankChar b) : scan r = none := by
  rw [scan, List.dropWhile_eq_nil_iff.mpr hr]

/-- Both conversions take the longest constant, which is the word or is followed by a
character of a name. -/
theorem NumberWord.read {t w : Text} (h : NumberWord t w) :
    (∃ n r, Constant w n ∧ (∀ b ∈ r, isBlankChar b) ∧ scan t = some (.num n, r) ∧
      strtoimax t 0 = ⟨(saturate false n).1, r, (saturate false n).2⟩) ∨
    ((¬ IsConstant w) ∧ ∃ n d rest, isInName d ∧ scan t = some (.num n, d :: rest) ∧
      strtoimax t 0 = ⟨(saturate false n).1, d :: rest, (saturate false n).2⟩) := by
  obtain ⟨⟨l, r, rfl, hl, hr⟩, c, cs, rfl, hc, hcs⟩ := h
  have hw : ∀ d ∈ c :: cs, isInName d := by
    intro d hd
    rcases List.mem_cons.mp hd with rfl | hd
    · simp [isInName, isAlnum, hc]
    · exact hcs d hd
  have hspace : (l ++ (c :: cs) ++ r).dropWhile isSpace = c :: (cs ++ r) := by
    rw [List.append_assoc, List.dropWhile_append_of_pos fun b hb => isSpace_of_isBlankChar (hl b hb)]
    exact dropWhile_isSpace_cons (isSpace_of_isDigit hc)
  have hblank : (l ++ (c :: cs) ++ r).dropWhile isBlankChar = c :: (cs ++ r) := by
    rw [List.append_assoc, List.dropWhile_append_of_pos hl]
    exact List.dropWhile_cons_of_neg (by simp [isBlankChar_of_isDigit hc])
  obtain ⟨tok, n, rest, hconst, hlong, hstrtoimax⟩ := strtoimax_digit hspace hc
  have hscan : scan (l ++ (c :: cs) ++ r) = some (.num n, rest) :=
    (scan_dropWhile hblank hc).trans (scan_num hlong hconst)
  have hpre : tok <+: c :: cs := by
    have htake := Munch.prefix_takeWhile ⟨rest, hlong.split.symm⟩ hconst.inName
    rwa [← List.cons_append, takeWhile_word hw hr] at htake
  obtain ⟨w', hw'⟩ := hpre
  have hrest : rest = w' ++ r := by
    have hsplit := hlong.split
    rw [← List.cons_append, ← hw', List.append_assoc] at hsplit
    exact (List.append_cancel_left hsplit).symm
  subst hrest
  cases w' with
  | nil =>
    rw [List.append_nil] at hw'
    exact .inl ⟨n, r, hw' ▸ hconst, hr, hscan, hstrtoimax⟩
  | cons d ds =>
    refine .inr ⟨?_, n, d, ds ++ r, hw d (by simp [← hw']), hscan, hstrtoimax⟩
    intro hwhole
    have hle := hlong.longest _ hwhole ⟨r, rfl⟩
    rw [← hw', List.length_append, List.length_cons] at hle
    omega

/-! ### The two evaluations -/

section
variable {σ : Type} {ops : VarOps σ} {addr : Text → IntMax} {st : State σ} {t w x : Text}

/-- An error message for the user. -/
def Reports {α : Type} (r : Except Stop α) : Prop := ∃ msg, r = .error (.shError msg)

/-- The same value and final variables, or an error each. -/
def SameValue (r r' : Except Stop (IntMax × State σ)) : Prop :=
  (∃ v vars, result r = .ok (v, vars) ∧ result r' = .ok (v, vars)) ∨ Reports r ∧ Reports r'

theorem reports_result {r : Except Stop (IntMax × State σ)} : Reports (result r) ↔ Reports r := by
  unfold Reports result
  cases r <;> simp [Except.map]

/-- The parser stops after a number, and there must be the end. -/
theorem arith_number_name {n : ℕ} {d : Char} {rest : Text} (hd : isInName d)
    (hscan : scan t = some (.num n, d :: rest)) :
    arith ops addr st t = .error (yyerror t "expecting EOF") := by
  have hblank : isBlankChar d = false := by
    by_contra hb
    rw [Bool.not_eq_false] at hb
    exact absurd hd (by simp [isInName_of_isBlankChar hb])
  obtain ⟨l, buf, hnext, hl⟩ : ∃ l buf, scan (d :: rest) = some (l, buf) ∧
      (l.token = .num ∨ l.token = .var) := by
    rw [scan, List.dropWhile_cons_of_neg (by simp [hblank])]
    by_cases hdigit : isDigit d
    · exact ⟨_, _, by simp only [hdigit, if_true]; rfl, .inl rfl⟩
    · have hname : isName d := by
        simp only [isInName, isAlnum, Bool.or_eq_true, hdigit, Bool.false_eq_true, or_false] at hd
        simpa only [isName, Bool.or_eq_true] using hd
      exact ⟨_, _, by simp only [hdigit, hname, if_true]; rfl, .inr rfl⟩
  have hlex : yylex st.yylval t = ⟨.num, .val (saturate false n).1, d :: rest⟩ := by
    rw [yylex_eq, hscan]
    rfl
  have hlex' : yylex (.val (saturate false n).1) (d :: rest) =
      ⟨l.token, l.val (.val (saturate false n).1), buf⟩ := by
    rw [yylex_eq, hnext]
  obtain ⟨fuel, hfuel⟩ : ∃ fuel, arithFuel t = fuel + 6 := ⟨8 * t.length + 10, rfl⟩
  rw [arith, hfuel]
  rcases hl with hl | hl <;>
    simp [State.yylex, hlex, hlex', hl, assignment, cond, or, and, binop, primary, bind,
      Except.bind]

theorem arith_number {n : ℕ} {r : Text} (hr : ∀ b ∈ r, isBlankChar b)
    (hscan : scan t = some (.num n, r)) :
    result (arith ops addr st t) = .ok ((saturate false n).1, st.vars) := by
  have hlexes : Lexes t [.num n] := by
    refine lexes_iff.mpr ⟨?_, by simp⟩
    rw [lexemes_some hscan (by simp), lexemes_none (scan_blanks hr)]
  exact arith_expression ops addr st (Expression.of_num hlexes)

theorem arith_variable (hx : IsIdentifier x) : result (arith ops addr st x) =
    liftError (ops.lookupvarint x st.vars) >>= fun v => .ok (v, st.vars) := by
  have hlong : Munch.Longest IsIdentifier x x [] :=
    ⟨(List.append_nil x).symm, hx, fun tok _ hpre => hpre.length_le⟩
  have hlexes : Lexes x [.var x] := .var hlong .nil
  have hexpr : Expression x (.var x) :=
    ⟨_, hlexes, .ofCond (.ofDisj (.ofConj (.single ((Derives.var x).ofUnary 8))))⟩
  exact arith_expression ops addr st hexpr

theorem atomax_ok {v : IntMax} {rest : Text} (hr : ∀ b ∈ rest, isSpace b)
    (h : strtoimax t 0 = ⟨v, rest, false⟩) : atomax t 0 = .ok v := by
  simp [atomax, h, List.dropWhile_eq_nil_iff.mpr hr]

theorem atomax_error {v : IntMax} {rest : Text} {erange : Bool}
    (h : strtoimax t 0 = ⟨v, rest, erange⟩) (hbad : erange ∨ rest.dropWhile isSpace ≠ []) :
    atomax t 0 = .error (badnum t) := by
  rcases hbad with rfl | hrest
  · simp [atomax, h]
  · simp [atomax, h, hrest]

theorem saturate_erange (n : ℕ) : (saturate false n).2 = decide (intMaxMax < n) := by
  unfold saturate
  rw [if_neg Bool.false_ne_true]
  split <;> simp <;> omega

/-- A word means the same written literally and in a variable, except that a constant above
`INTMAX_MAX` is saturated in the one place and reported in the other. -/
theorem sameValue_iff (h : NumberWord t w) (hx : IsIdentifier x)
    (hvalue : ops.lookupvar x st.vars = some t) :
    SameValue (arith ops addr st t) (arith ops addr st x) ↔
      ¬ ∃ n, Constant w n ∧ intMaxMax < n := by
  have hlookup : ops.lookupvarint x st.vars = atomax t 0 := by
    rw [VarOps.lookupvarint, hvalue]
    rfl
  have hvar : result (arith ops addr st x) = liftError (atomax t 0) >>= fun v => .ok (v, st.vars) :=
    hlookup ▸ arith_variable hx
  have hreports : atomax t 0 = .error (badnum t) → Reports (arith ops addr st x) := by
    intro herr
    rw [herr] at hvar
    exact reports_result.mp ⟨_, hvar⟩
  rcases h.read with ⟨n, r, hconst, hr, hscan, hread⟩ | ⟨hword, n, d, rest, hd, hscan, hread⟩
  · have hnum : result (arith ops addr st t) = .ok ((saturate false n).1, st.vars) :=
      arith_number hr hscan
    rw [saturate_erange] at hread
    by_cases hn : intMaxMax < n
    · rw [decide_eq_true hn] at hread
      obtain ⟨msg, herr⟩ := hreports (atomax_error hread (.inl rfl))
      refine iff_of_false ?_ (not_not.mpr ⟨n, hconst, hn⟩)
      rintro (⟨v, vars, -, hok⟩ | ⟨⟨msg', herr'⟩, -⟩)
      · rw [herr] at hok
        cases hok
      · rw [herr'] at hnum
        cases hnum
    · rw [decide_eq_false hn] at hread
      refine iff_of_true (.inl ⟨_, _, hnum, ?_⟩) ?_
      · rw [hvar, atomax_ok (fun b hb => isSpace_of_isBlankChar (hr b hb)) hread]
        rfl
      · rintro ⟨m, hm, hlt⟩
        exact hn (hconst.unique hm ▸ hlt)
  · refine iff_of_true (.inr ⟨⟨_, arith_number_name hd hscan⟩, hreports (atomax_error hread (.inr ?_))⟩)
      fun hm => hm.elim fun m hm => hword ⟨m, hm.1⟩
    rw [dropWhile_isSpace_cons (isSpace_of_isInName hd)]
    exact List.cons_ne_nil _ _

end

/-- What is stored as a number is read back, and a number means the same written literally and
through a variable, exactly where it is no constant above `INTMAX_MAX`. -/
theorem literal_and_variable {σ : Type} {ops : VarOps σ} {addr : Text → IntMax} {st : State σ}
    {t w x : Text} (hword : NumberWord t w) (hx : IsIdentifier x)
    (hvalue : ops.lookupvar x st.vars = some t) :
    (∀ (name : Text) (n : IntMax) (vars : Vars) (p : IntMax × Vars), isGoodName name →
      shellVars.setvarint name n vars = .ok p →
      p.1 = n ∧ shellVars.lookupvarint name p.2 = .ok n) ∧
    (SameValue (arith ops addr st t) (arith ops addr st x) ↔
      ¬ ∃ n, Constant w n ∧ intMaxMax < n) :=
  ⟨fun _ _ _ _ hname h => setvarint_lookupvarint hname h, sameValue_iff hword hx hvalue⟩

/-- The shell at its start, with `x` set to a text. -/
def withX (t : Text) : State Vars :=
  ⟨[], [], .eof, .val 0, (initvar false).store ['x'] ⟨some (.text t), VFlags.vnosave, none⟩⟩

theorem isIdentifier_x : IsIdentifier ['x'] := ⟨'x', [], rfl, rfl, by simp⟩

theorem lookupvar_withX (t : Text) : shellVars.lookupvar ['x'] (withX t).vars = some t :=
  Vars.lookupvar_store_self rfl rfl

theorem literal_and_variable_octal :
    ((-5 : IntMax) = -5 ∧ shellVars.lookupvarint ['x'] (withX "-5".toList).vars = .ok (-5)) ∧
    SameValue (arith shellVars (fun _ => 0) (withX "010".toList) "010".toList)
      (arith shellVars (fun _ => 0) (withX "010".toList) ['x']) := by
  obtain ⟨hstored, hsame⟩ := @literal_and_variable _ shellVars (fun _ => 0) (withX "010".toList)
    "010".toList "010".toList ['x']
    ⟨⟨[], [], by simp⟩, '0', "10".toList, rfl, rfl, List.all_eq_true.mp (by decide)⟩
    isIdentifier_x (lookupvar_withX _)
  refine ⟨hstored ['x'] (-5) (initvar false) (-5, (withX "-5".toList).vars) rfl rfl, hsame.mpr ?_⟩
  rintro ⟨n, hn, hlt⟩
  rw [hn.unique (.oct "10".toList (List.all_eq_true.mp (by decide)))] at hlt
  exact absurd hlt (by decide)

/-- `$((9223372036854775808))` is `INTMAX_MAX`, the same text in a variable an illegal number. -/
theorem literal_and_variable_differ :
    ¬ SameValue (arith shellVars (fun _ => 0) (withX "9223372036854775808".toList)
        "9223372036854775808".toList)
      (arith shellVars (fun _ => 0) (withX "9223372036854775808".toList) ['x']) := by
  have hword : NumberWord "9223372036854775808".toList "9223372036854775808".toList :=
    ⟨⟨[], [], by simp⟩, '9', "223372036854775808".toList, rfl, rfl,
      List.all_eq_true.mp (by decide)⟩
  rw [sameValue_iff hword isIdentifier_x (lookupvar_withX _), not_not]
  exact ⟨_, .dec '9' "223372036854775808".toList rfl (by decide)
    (List.all_eq_true.mp (by decide)), by decide⟩

end Arith
end Bootsh
