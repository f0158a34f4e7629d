import Bootsh.CString
import Mathlib.Tactic.IntervalCases

/-!
Numbers that are printed and read again.
-/
namespace Bootsh

variable {b : ℕ} {s : Text} {c : Char}

theorem digitVal_digitChar {d : ℕ} (h : d < 16) : digitVal (Nat.digitChar d) = d := by
  interval_cases d <;> rfl

theorem magnitude_append_singleton (b : ℕ) (s : Text) (c : Char) :
    magnitude b (s ++ [c]) = magnitude b s * b + digitVal c := by
  rw [magnitude, List.foldl_append]
  rfl

theorem magnitude_toDigits (hb : 1 < b) (hb' : b ≤ 16) (n : ℕ) :
    magnitude b (Nat.toDigits b n) = n := by
  induction n using Nat.strongRecOn with
  | ind n ih =>
    rw [Nat.toDigits_eq_if hb]
    split
    case isTrue h =>
      show 0 * b + digitVal (Nat.digitChar n) = n
      rw [digitVal_digitChar (by omega)]
      omega
    case isFalse h =>
      have hlt : n % b < b := Nat.mod_lt _ (by omega)
      rw [magnitude_append_singleton, ih _ (Nat.div_lt_self (by omega) hb),
        digitVal_digitChar (by omega), Nat.div_add_mod']

theorem isBaseDigit_of_mem_toDigits (hb : 1 < b) (hb' : b ≤ 16) {n : ℕ}
    (hc : c ∈ Nat.toDigits b n) : isBaseDigit b c := by
  induction n using Nat.strongRecOn with
  | ind n ih =>
    rw [Nat.toDigits_eq_if hb] at hc
    split at hc
    case isTrue h =>
      rw [List.mem_singleton.mp hc, isBaseDigit, digitVal_digitChar (by omega)]
      exact decide_eq_true h
    case isFalse h =>
      have hlt : n % b < b := Nat.mod_lt _ (by omega)
      rcases List.mem_append.mp hc with hc | hc
      · exact ih _ (Nat.div_lt_self (by omega) hb) hc
      · rw [List.mem_singleton.mp hc, isBaseDigit, digitVal_digitChar (by omega)]
        exact decide_eq_true hlt

/-- A digit is no character with another meaning. -/
theorem ne_of_isBaseDigit (hb : b ≤ 16) (hc : isBaseDigit b c) {c' : Char}
    (h : digitVal c' = 36) : c ≠ c' := by
  rintro rfl
  have hlt := of_decide_eq_true hc
  omega

theorem isSpace_of_isBaseDigit (hb : b ≤ 16) (hc : isBaseDigit b c) : isSpace c = false := by
  have hne : ∀ c', digitVal c' = 36 → (c == c') = false := fun c' h =>
    beq_eq_false_iff_ne.mpr (ne_of_isBaseDigit hb hc h)
  rw [isSpace, hne _ rfl, hne _ rfl, hne _ rfl, hne _ rfl, hne _ rfl, hne _ rfl]
  rfl

theorem basePrefix_digits (hb : 1 < b) (hs : ∀ c ∈ s, isBaseDigit b c) (hb' : b ≤ 16) :
    basePrefix b s = (b, s) := by
  unfold basePrefix
  have hzero : ¬ b = 0 := by omega
  split
  case h_1 x c rest =>
    rw [if_neg, if_neg hzero]
    rintro ⟨hx, -⟩
    have hdigit := of_decide_eq_true (hs x (by simp))
    rcases hx with rfl | rfl
    · exact absurd hdigit (by rw [show digitVal 'x' = 33 from rfl]; omega)
    · exact absurd hdigit (by rw [show digitVal 'X' = 33 from rfl]; omega)
  case h_2 => rw [if_neg hzero]
  case h_3 => rw [if_neg hzero]

theorem takeWhile_digits (hs : ∀ c ∈ s, isBaseDigit b c) : s.takeWhile (isBaseDigit b) = s :=
  List.takeWhile_eq_self_iff.mpr hs

theorem dropWhile_digits (hs : ∀ c ∈ s, isBaseDigit b c) : s.dropWhile (isBaseDigit b) = [] :=
  List.dropWhile_eq_nil_iff.mpr hs

theorem dropWhile_isSpace_cons (hc : isSpace c = false) :
    (c :: s).dropWhile isSpace = c :: s := by
  rw [List.dropWhile_cons_of_neg (by simp [hc])]

theorem strtoimax_digits (hb : 1 < b) (hb' : b ≤ 16) (hne : s ≠ [])
    (hs : ∀ c ∈ s, isBaseDigit b c) :
    strtoimax s b = ⟨(saturate false (magnitude b s)).1, [], (saturate false (magnitude b s)).2⟩ := by
  cases s with
  | nil => exact absurd rfl hne
  | cons c s =>
    have hc := hs c List.mem_cons_self
    have hminus : c ≠ '-' := ne_of_isBaseDigit hb' hc rfl
    have hplus : c ≠ '+' := ne_of_isBaseDigit hb' hc rfl
    rw [strtoimax, dropWhile_isSpace_cons (isSpace_of_isBaseDigit hb' hc)]
    split
    case h_1 neg t heq =>
    split at heq
    case h_1 hsign =>
      cases hsign
      exact absurd rfl hminus
    case h_2 hsign =>
      cases hsign
      exact absurd rfl hplus
    case h_3 =>
      cases heq
      simp only [basePrefix_digits hb hs hb', takeWhile_digits hs, dropWhile_digits hs, hne,
        if_false]

theorem strtoimax_minus_digits (hb : 1 < b) (hb' : b ≤ 16) (hne : s ≠ [])
    (hs : ∀ c ∈ s, isBaseDigit b c) : strtoimax ('-' :: s) b =
      ⟨(saturate true (magnitude b s)).1, [], (saturate true (magnitude b s)).2⟩ := by
  rw [strtoimax, dropWhile_isSpace_cons rfl]
  simp only [basePrefix_digits hb hs hb', takeWhile_digits hs, dropWhile_digits hs, hne, if_false]

theorem strtoimax_fmtImax (n : IntMax) : strtoimax (fmtImax n) 10 = ⟨n, [], false⟩ := by
  have hlt := n.isLt
  have hint := BitVec.toInt_eq_toNat_cond n
  have hdigits : ∀ c ∈ Nat.toDigits 10 n.toInt.natAbs, isBaseDigit 10 c := fun c hc =>
    isBaseDigit_of_mem_toDigits (by decide) (by decide) hc
  rw [fmtImax]
  split
  case isTrue h =>
    rw [strtoimax_minus_digits (by decide) (by decide) Nat.toDigits_ne_nil hdigits,
      magnitude_toDigits (by decide) (by decide), saturate, if_pos rfl, if_pos]
    · have heq : -BitVec.ofNat 64 n.toInt.natAbs = n := by
        apply BitVec.eq_of_toNat_eq
        rw [BitVec.toNat_neg, BitVec.toNat_ofNat]
        split at hint <;> omega
      rw [heq]
    · split at hint <;> omega
  case isFalse h =>
    rw [strtoimax_digits (by decide) (by decide) Nat.toDigits_ne_nil hdigits,
      magnitude_toDigits (by decide) (by decide), saturate, if_neg Bool.false_ne_true, if_pos]
    · have heq : BitVec.ofNat 64 n.toInt.natAbs = n := by
        apply BitVec.eq_of_toNat_eq
        rw [BitVec.toNat_ofNat]
        split at hint <;> omega
      rw [heq]
    · rw [intMaxMax]
      split at hint <;> omega

end Bootsh
