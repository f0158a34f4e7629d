import Bootsh.Samu.BuildLog
import Bootsh.Numeral

/-!
The loop over the lines of the build log, for records and for a piece of a line at the end.
-/
namespace Bootsh.Samu.BuildLog

variable {outs : List Text} {s rest line : Text} {t : Table}

/-! ### Numbers -/

theorem strtoull_fmtHex (n : BitVec 64) : strtoull (fmtHex n) 16 = (n, []) := by
  have hdigits : ∀ c ∈ Nat.toDigits 16 n.toNat, isBaseDigit 16 c := fun c hc =>
    isBaseDigit_of_mem_toDigits (by decide) (by decide) hc
  have hvalue := magnitude_toDigits (b := 16) (by decide) (by decide) n.toNat
  have hne : Nat.toDigits 16 n.toNat ≠ [] := Nat.toDigits_ne_nil
  rw [fmtHex]
  cases hs : Nat.toDigits 16 n.toNat with
  | nil => exact absurd hs hne
  | cons c s =>
    rw [hs] at hdigits hvalue
    have hc := hdigits c List.mem_cons_self
    rw [strtoull, dropWhile_isSpace_cons (isSpace_of_isBaseDigit (by decide) hc)]
    split
    case h_1 neg t heq =>
    split at heq
    case h_1 hsign =>
      cases hsign
      exact absurd hc (by decide)
    case h_2 hsign =>
      cases hsign
      exact absurd hc (by decide)
    case h_3 =>
      cases heq
      have hval : saturateU false n.toNat = n := by
        rw [saturateU, if_pos n.isLt, if_neg Bool.false_ne_true]
        exact BitVec.ofNat_toNat ..
      simp only [basePrefix_digits (by decide : 1 < 16) hdigits (by decide), takeWhile_digits hdigits,
        dropWhile_digits hdigits, reduceCtorEq, if_false, hvalue, hval]

/-! ### Fields -/

/-- No delimiter is in the string, nor a NUL. -/
def Clean (s : Text) : Prop := ∀ c ∈ s, c ≠ '\t' ∧ c ≠ '\n' ∧ c ≠ '\x00'

instance (s : Text) : Decidable (Clean s) := List.decidableBAll _ s

theorem Clean.isDelimiter (h : Clean s) : ∀ c ∈ s, (!isDelimiter c) = true := by
  intro c hc
  obtain ⟨htab, hnewline, -⟩ := h c hc
  simp [BuildLog.isDelimiter, htab, hnewline]

theorem Clean.cstr (h : Clean s) : cstr s = s :=
  List.takeWhile_eq_self_iff.mpr fun c hc => decide_eq_true (h c hc).2.2

theorem Clean.append (h : Clean s) (h' : Clean rest) : Clean (s ++ rest) := by
  intro c hc
  rcases List.mem_append.mp hc with hc | hc
  · exact h c hc
  · exact h' c hc

theorem clean_of_digits {b : ℕ} (hb : b ≤ 16) (h : ∀ c ∈ s, isBaseDigit b c) : Clean s :=
  fun c hc => ⟨ne_of_isBaseDigit hb (h c hc) rfl, ne_of_isBaseDigit hb (h c hc) rfl,
    ne_of_isBaseDigit hb (h c hc) rfl⟩

theorem clean_toDigits {b : ℕ} (hb : 1 < b) (hb' : b ≤ 16) (n : ℕ) : Clean (Nat.toDigits b n) :=
  clean_of_digits hb' fun _ hc => isBaseDigit_of_mem_toDigits hb hb' hc

theorem clean_fmtHex (n : BitVec 64) : Clean (fmtHex n) := clean_toDigits (by decide) (by decide) _

theorem clean_fmtImax (n : IntMax) : Clean (fmtImax n) := by
  have h : Clean (Nat.toDigits 10 n.toInt.natAbs) := clean_toDigits (by decide) (by decide) _
  rw [fmtImax]
  split
  case isTrue =>
    intro c hc
    rcases List.mem_cons.mp hc with rfl | hc
    · exact ⟨by decide, by decide, by decide⟩
    · exact h c hc
  case isFalse => exact h

theorem nextfield_clean (h : Clean s) {c : Char} (hc : isDelimiter c = true) (rest : Text) :
    nextfield (s ++ c :: rest) = some (s, rest) := by
  have htake : (s ++ c :: rest).takeWhile (fun c => !isDelimiter c) = s := by
    rw [List.takeWhile_append_of_pos h.isDelimiter, List.takeWhile_cons_of_neg (by simp [hc]),
      List.append_nil]
  have hdrop : (s ++ c :: rest).dropWhile (fun c => !isDelimiter c) = c :: rest := by
    rw [List.dropWhile_append_of_pos h.isDelimiter, List.dropWhile_cons_of_neg (by simp [hc])]
  rw [nextfield, if_neg (by simp), htake, hdrop]
  rfl

/-! ### Records -/

/-- What a record does to the table. -/
def Table.record (n : Text) (l : NodeLog) (t : Table) : Table where
  node := Function.update t.node n l
  nline := t.nline
  nentry := if (t.node n).logmtime = MTIME_MISSING then t.nentry + 1 else t.nentry

theorem clean_zero : Clean ['0'] := by
  apply clean_of_digits (le_refl 16)
  intro c hc
  rw [List.mem_singleton.mp hc]
  rfl

theorem logline_logrecord {n : Text} (hn : Clean n) (hmem : n ∈ outs) (l : NodeLog) (t : Table) :
    logline outs (logrecord n l) t = t.record n l := by
  have htab : isDelimiter '\t' = true := rfl
  have hstart : logrecord n l = ['0'] ++ '\t' :: (['0'] ++ '\t' :: (fmtImax l.logmtime ++
      '\t' :: (n ++ '\t' :: (fmtHex l.hash ++ '\n' :: [])))) := by
    rw [logrecord, hn.cstr]
    rfl
  rw [hstart, logline, nextfield_clean clean_zero htab]
  dsimp only
  rw [nextfield_clean clean_zero htab]
  dsimp only
  rw [nextfield_clean (clean_fmtImax _) htab]
  dsimp only
  rw [strtoimax_fmtImax, if_neg (not_not_intro rfl), logfields, nextfield_clean hn htab]
  dsimp only
  rw [if_pos hmem, nextfield_clean (clean_fmtHex _) rfl]
  dsimp only
  rw [strtoull_fmtHex]
  rfl

/-- Neither newline nor NUL. -/
def Unbroken (s : Text) : Prop := ∀ c ∈ s, c ≠ '\n' ∧ c ≠ '\x00'

/-- A record is a line. -/
theorem logrecord_line {n : Text} (hn : Clean n) (l : NodeLog) :
    ∃ line, Unbroken line ∧ logrecord n l = line ++ ['\n'] := by
  refine ⟨"0\t0\t".toList ++ (fmtImax l.logmtime ++ '\t' :: (n ++ '\t' :: fmtHex l.hash)), ?_, ?_⟩
  · have htab : '\t' ≠ '\n' ∧ '\t' ≠ '\x00' := ⟨by decide, by decide⟩
    intro c hc
    simp only [List.mem_append, List.mem_cons] at hc
    rcases hc with hc | hc | rfl | hc | rfl | hc
    · have hstart : ∀ c ∈ "0\t0\t".toList, c ≠ '\n' ∧ c ≠ '\x00' := by simp
      exact hstart c hc
    · exact (clean_fmtImax _ c hc).2
    · exact htab
    · exact (hn c hc).2
    · exact htab
    · exact (clean_fmtHex _ c hc).2
  · rw [logrecord, hn.cstr]
    simp only [List.append_assoc, List.cons_append]

/-! ### Lines -/

/-- What is in the buffer leaves room in it, or there is no buffer yet. -/
def Room (cap : ℕ) (buf : Text) : Prop := cap = 0 ∧ buf = [] ∨ BUFSIZ ≤ cap ∧ buf.length < cap

theorem Room.grow {cap : ℕ} {buf : Text} (h : Room cap buf) :
    BUFSIZ ≤ grow cap buf.length ∧ buf.length + 2 ≤ grow cap buf.length := by
  have hsize : BUFSIZ = 8192 := rfl
  rw [BuildLog.grow]
  rcases h with ⟨rfl, rfl⟩ | ⟨hcap, hlen⟩
  · decide
  · split
    · rw [if_neg (by omega)]
      omega
    · omega

theorem Unbroken.takeWhile (h : Unbroken s) (rest : Text) :
    (s ++ '\n' :: rest).takeWhile (· ≠ '\n') = s := by
  rw [List.takeWhile_append_of_pos fun c hc => decide_eq_true (h c hc).1,
    List.takeWhile_cons_of_neg (by simp), List.append_nil]

theorem Unbroken.drop (h : Unbroken s) (k : ℕ) : Unbroken (s.drop k) := fun c hc =>
  h c (List.mem_of_mem_drop hc)

/-- The buffer is full, and the line goes on. -/
theorem full_any {size : ℕ} {buf : Text} (h : Unbroken s) (hsize : buf.length + 2 ≤ size)
    (hlong : size - buf.length - 1 ≤ s.length) :
    ((buf ++ s.take (size - buf.length - 1))[size - 2]?).any
      (fun c => decide (c ≠ '\x00' ∧ c ≠ '\n')) = true := by
  have hlt : size - 2 - buf.length < s.length := by omega
  rw [List.getElem?_append_right (by omega), List.getElem?_take_of_lt (by omega),
    List.getElem?_eq_getElem hlt, Option.any_some]
  have hc := h _ (List.getElem_mem hlt)
  exact decide_eq_true ⟨hc.2, hc.1⟩

theorem length_full {size : ℕ} {buf : Text} (hsize : buf.length + 2 ≤ size)
    (hlong : size - buf.length - 1 ≤ s.length) :
    (buf ++ s.take (size - buf.length - 1)).length = size - 1 := by
  rw [List.length_append, List.length_take]
  omega

/-- A line of any length is read whole. -/
theorem readline_line {fuel cap : ℕ} {buf : Text} (rest : Text) (hline : Unbroken line) (hroom : Room cap buf)
    (hfuel : line.length < fuel) : ∃ cap', BUFSIZ ≤ cap' ∧
      readline fuel cap buf (line ++ '\n' :: rest) =
        some (buf ++ (line ++ ['\n']), cap', rest) := by
  induction fuel generalizing cap buf line with
  | zero => omega
  | succ fuel ih =>
    obtain ⟨hcap, hsize⟩ := hroom.grow
    rw [readline, fgets, if_neg (by simp), hline.takeWhile]
    by_cases hshort : line.length + 1 ≤ grow cap buf.length - buf.length - 1
    · have htake : (line ++ '\n' :: rest).take (line.length + 1) = line ++ ['\n'] := by
        rw [List.take_length_add_append, List.take_succ_cons, List.take_zero]
      have hdrop : (line ++ '\n' :: rest).drop (line.length + 1) = rest := by
        rw [List.drop_length_add_append, List.drop_succ_cons, List.drop_zero]
      refine ⟨grow cap buf.length, hcap, ?_⟩
      rw [Nat.min_eq_right hshort]
      dsimp only [Option.bind]
      rw [htake, hdrop, if_neg]
      rw [← List.append_assoc]
      by_cases hlast : grow cap buf.length - 2 = (buf ++ line).length
      · rw [hlast, List.getElem?_concat_length]
        simp
      · rw [List.length_append] at hlast
        rw [List.getElem?_eq_none (by simp only [List.length_append, List.length_singleton]; omega)]
        simp
    · have hlong : grow cap buf.length - buf.length - 1 ≤ line.length := by omega
      rw [Nat.min_eq_left (by omega)]
      dsimp only [Option.bind]
      rw [List.take_append_of_le_length hlong, List.drop_append_of_le_length hlong,
        if_pos (full_any hline hsize hlong)]
      have hbuf := length_full hsize hlong
      obtain ⟨cap', hcap', hrest⟩ := ih (hline.drop (grow cap buf.length - buf.length - 1))
        (.inr ⟨hcap, by rw [hbuf]; omega⟩) (by rw [List.length_drop]; omega)
      refine ⟨cap', hcap', ?_⟩
      rw [hrest, List.append_assoc, ← List.append_assoc (List.take _ _), List.take_append_drop]

/-- A piece of a line at the end is read as a line, or not at all. -/
theorem readline_torn (fuel : ℕ) {cap : ℕ} {buf : Text} (hs : Unbroken s) (hroom : Room cap buf) :
    readline fuel cap buf s = none ∨
      ∃ cap', BUFSIZ ≤ cap' ∧ readline fuel cap buf s = some (buf ++ s, cap', []) := by
  induction fuel generalizing cap buf s with
  | zero => exact .inl rfl
  | succ fuel ih =>
    obtain ⟨hcap, hsize⟩ := hroom.grow
    have htake : s.takeWhile (· ≠ '\n') = s :=
      List.takeWhile_eq_self_iff.mpr fun c hc => decide_eq_true (hs c hc).1
    rw [readline, fgets, htake]
    by_cases hnil : s = []
    · rw [if_pos hnil]
      exact .inl rfl
    rw [if_neg hnil]
    by_cases hshort : s.length < grow cap buf.length - buf.length - 1
    · right
      refine ⟨grow cap buf.length, hcap, ?_⟩
      rw [Nat.min_eq_right (by omega)]
      dsimp only [Option.bind]
      rw [List.take_of_length_le (by omega), List.drop_of_length_le (by omega), if_neg]
      rw [List.getElem?_eq_none (by rw [List.length_append]; omega)]
      simp
    · have hlong : grow cap buf.length - buf.length - 1 ≤ s.length := by omega
      rw [Nat.min_eq_left (by omega)]
      dsimp only [Option.bind]
      rw [if_pos (full_any hs hsize hlong)]
      have hbuf := length_full hsize hlong
      rcases ih (hs.drop (grow cap buf.length - buf.length - 1))
        (.inr ⟨hcap, by rw [hbuf]; omega⟩) with h | ⟨cap', hcap', h⟩
      · exact .inl h
      · right
        refine ⟨cap', hcap', ?_⟩
        rw [h, List.append_assoc, List.take_append_drop]

/-! ### The log -/

/-- A call of `logrecord`: the output, and its fields at that time. -/
structure Call where
  out : Text
  log : NodeLog
  deriving DecidableEq, Repr

def Call.record (c : Call) : Text := logrecord c.out c.log

def records (cs : List Call) : Text := cs.flatMap Call.record

def replayed (cs : List Call) (t : Table) : Table :=
  cs.foldl (fun t c => { t with nline := t.nline + 1 }.record c.out c.log) t

/-- The output path of a line. -/
def pathOf (s : Text) : Option Text :=
  (nextfield s).bind fun (_, p) => (nextfield p).bind fun (_, p) => (nextfield p).bind fun (_, p) =>
    (nextfield p).map Prod.fst

theorem logline_unread (h : ∀ n ∈ outs, pathOf s ≠ some n) (t : Table) : logline outs s t = t := by
  rw [logline]
  cases h₁ : nextfield s with
  | none => rfl
  | some f₁ =>
    cases h₂ : nextfield f₁.2 with
    | none => simp only [h₂]
    | some f₂ =>
      cases h₃ : nextfield f₂.2 with
      | none => simp only [h₂, h₃]
      | some f₃ =>
        simp only [h₂, h₃]
        split
        case isTrue => rfl
        case isFalse =>
          rw [logfields]
          cases h₄ : nextfield f₃.2 with
          | none => rfl
          | some f₄ =>
            have hpath : pathOf s = some f₄.1 := by
              simp only [pathOf, h₁, h₂, h₃, h₄, Option.bind_some, Option.map_some]
            exact if_neg fun hmem => h _ hmem hpath

theorem readlog_nil (fuel cap : ℕ) (t : Table) : readlog outs fuel cap [] t = t := by
  cases fuel with
  | zero => rfl
  | succ fuel => rfl

theorem readlog_records {cs : List Call} {fuel cap : ℕ} (t : Table) (hcs : ∀ c ∈ cs, Clean c.out ∧ c.out ∈ outs)
    (hs : Unbroken s) (hunread : ∀ n ∈ outs, pathOf s ≠ some n) (hcap : cap = 0 ∨ BUFSIZ ≤ cap)
    (hfuel : cs.length < fuel) : ∃ k, readlog outs fuel cap (records cs ++ s) t =
      { replayed cs t with nline := k } := by
  have hroom : ∀ {cap}, cap = 0 ∨ BUFSIZ ≤ cap → Room cap [] := by
    intro cap hcap
    have hpos : 0 < BUFSIZ := by decide
    rcases hcap with h | h
    · exact .inl ⟨h, rfl⟩
    · exact .inr ⟨h, by rw [List.length_nil]; omega⟩
  induction cs generalizing fuel cap t with
  | nil =>
    obtain ⟨fuel, rfl⟩ := Nat.exists_eq_succ_of_ne_zero (Nat.ne_of_gt hfuel)
    show ∃ k, readlog outs (fuel + 1) cap s t = { t with nline := k }
    rw [readlog]
    rcases readline_torn (s.length + 1) hs (hroom hcap) with h | ⟨cap', -, h⟩
    · exact ⟨t.nline, by rw [h]⟩
    · refine ⟨t.nline + 1, ?_⟩
      have hcstr : cstr s = s :=
        List.takeWhile_eq_self_iff.mpr fun c hc => decide_eq_true (hs c hc).2
      rw [h]
      dsimp only
      rw [List.nil_append, hcstr, logline_unread hunread, readlog_nil]
  | cons c cs ih =>
    obtain ⟨fuel, rfl⟩ := Nat.exists_eq_succ_of_ne_zero (Nat.ne_of_gt (Nat.zero_lt_of_lt hfuel))
    obtain ⟨hclean, hmem⟩ := hcs c List.mem_cons_self
    obtain ⟨line, hline, hrecord⟩ := logrecord_line hclean c.log
    have hinput : records (c :: cs) ++ s = line ++ '\n' :: (records cs ++ s) := by
      rw [records, List.flatMap_cons, Call.record, hrecord]
      simp only [List.append_assoc, List.cons_append, List.nil_append]
      rfl
    have hfuel' : line.length < (line ++ '\n' :: (records cs ++ s)).length + 1 := by
      rw [List.length_append]
      omega
    obtain ⟨cap', hcap', hread⟩ := readline_line (records cs ++ s) hline (hroom hcap) hfuel'
    have hcstr : cstr (line ++ ['\n']) = line ++ ['\n'] := by
      apply List.takeWhile_eq_self_iff.mpr
      intro c hc
      rcases List.mem_append.mp hc with hc | hc
      · exact decide_eq_true (hline c hc).2
      · rw [List.mem_singleton.mp hc]
        rfl
    rw [hinput, readlog, hread]
    dsimp only
    rw [List.nil_append, hcstr, ← hrecord, logline_logrecord hclean hmem]
    exact ih _ (fun c hc => hcs c (List.mem_cons_of_mem _ hc)) (.inr hcap')
      (by rw [List.length_cons] at hfuel; omega)

end Bootsh.Samu.BuildLog
