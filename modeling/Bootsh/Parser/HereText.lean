import Bootsh.CString

/-!
The text of a here-document: the lines up to the delimiter, and what is stored of
them when the byte at which a comparison with the delimiter fails is not put back.
-/
namespace Bootsh

/-! ### The document -/

section
variable (mark : Text) (striptabs : Bool)

/-- The text begins with the delimiter and the end of the line. -/
def endsHere (l : Text) : Bool :=
  mark.isPrefixOf l && ((l.drop mark.length).head?.all (· == '\n'))

/-- The document at the start of the text and, if there is a delimiter, the text
after it. The flag is set at the start of a line. -/
def hereText : Bool → Text → Text × Option Text
  | _, [] => ([], none)
  | line, c :: cs =>
    if line ∧ striptabs ∧ c = '\t' then hereText true cs
    else if line ∧ endsHere mark (c :: cs) then ([], some (cs.drop mark.length))
    else (c :: (hereText (c == '\n') cs).1, (hereText (c == '\n') cs).2)

/-- How much of the text is as in the delimiter. -/
def matchLen : Text → Text → ℕ
  | m :: mark, c :: l => if c = m then matchLen mark l + 1 else 0
  | _, _ => 0

/-- The byte at which a comparison with the delimiter fails is not put back. -/
def loses (l : Text) : Prop :=
  matchLen mark l ≠ 0 ∧ l[matchLen mark l]?.any isNegative

instance (l : Text) : Decidable (loses mark l) := inferInstanceAs (Decidable (_ ∧ _))

/-- No line before the delimiter is as the delimiter for some characters and then
has a byte beyond ASCII. -/
def Lossless : Bool → Text → Prop
  | _, [] => True
  | line, c :: cs =>
    if line ∧ striptabs ∧ c = '\t' then Lossless true cs
    else if line ∧ endsHere mark (c :: cs) then True
    else ¬ (line ∧ loses mark (c :: cs)) ∧ Lossless (c == '\n') cs

instance decidableLossless : (line : Bool) → (l : Text) → Decidable (Lossless mark striptabs line l)
  | _, [] => isTrue trivial
  | line, c :: cs =>
    have := decidableLossless true cs
    have := decidableLossless (c == '\n') cs
    inferInstanceAs (Decidable (if line ∧ striptabs ∧ c = '\t' then Lossless mark striptabs true cs
      else if line ∧ endsHere mark (c :: cs) then True
      else ¬ (line ∧ loses mark (c :: cs)) ∧ Lossless mark striptabs (c == '\n') cs))

/-- What is read again after a comparison that failed. -/
def reread (l : Text) : Text := if loses mark l then l.eraseIdx (matchLen mark l) else l

theorem reread_length (l : Text) : (reread mark l).length ≤ l.length := by
  unfold reread
  split_ifs
  · exact (List.eraseIdx_sublist _ _).length_le
  · exact le_rfl

/-- What is read after the character `c`. -/
def readOn (line : Bool) (c : Char) (cs : Text) : Text :=
  if line then (reread mark (c :: cs)).tail else cs

theorem readOn_length (line : Bool) (c : Char) (cs : Text) :
    (readOn mark line c cs).length < (c :: cs).length := by
  have hlen := reread_length mark (c :: cs)
  unfold readOn
  split_ifs
  · rw [List.length_tail]
    exact lt_of_le_of_lt (Nat.sub_le_sub_right hlen 1) (Nat.sub_lt (Nat.succ_pos _) Nat.one_pos)
  · exact Nat.lt_succ_self _

/-- What `parseheredoc` stores. -/
def storedText : Bool → Text → Text × Option Text
  | _, [] => ([], none)
  | line, c :: cs =>
    if line ∧ striptabs ∧ c = '\t' then storedText true cs
    else if line ∧ endsHere mark (c :: cs) then ([], some (cs.drop mark.length))
    else (c :: (storedText (c == '\n') (readOn mark line c cs)).1,
      (storedText (c == '\n') (readOn mark line c cs)).2)
termination_by _ l => l.length
decreasing_by
  · exact Nat.lt_succ_self _
  · exact readOn_length _ _ _ _

/-! ### Comparing with the delimiter -/

variable {mark}

theorem matchLen_eq_length {l : Text} : matchLen mark l = mark.length ↔ mark.isPrefixOf l := by
  induction mark generalizing l with
  | nil => simp [matchLen]
  | cons m mark ih =>
    cases l with
    | nil => simp [matchLen]
    | cons c l =>
      by_cases hc : c = m
      · simpa [matchLen, hc] using ih
      · simp [matchLen, hc, Ne.symm hc]

theorem endsHere_iff {l : Text} : endsHere mark l ↔
    matchLen mark l = mark.length ∧ (l[matchLen mark l]? = some '\n' ∨ l[matchLen mark l]? = none) := by
  rw [endsHere, Bool.and_eq_true, ← matchLen_eq_length]
  refine and_congr_right fun hlen => ?_
  rw [hlen, List.head?_drop]
  cases l[mark.length]? <;> simp

theorem endsHere_eq {l : Text} :
    endsHere mark l ↔ l = mark ∨ ∃ r, l = mark ++ '\n' :: r := by
  rw [endsHere, Bool.and_eq_true, List.isPrefixOf_iff_prefix]
  constructor
  · rintro ⟨⟨rest, rfl⟩, hnl⟩
    rw [List.drop_left] at hnl
    cases rest with
    | nil => exact Or.inl (List.append_nil _)
    | cons c rest => exact Or.inr ⟨rest, by simpa using hnl⟩
  · rintro (rfl | ⟨r, rfl⟩)
    · exact ⟨List.prefix_rfl, by simp⟩
    · exact ⟨List.prefix_append _ _, by simp⟩

theorem take_matchLen (l : Text) : l.take (matchLen mark l) = mark.take (matchLen mark l) := by
  induction mark generalizing l with
  | nil => simp [matchLen]
  | cons m mark ih =>
    cases l with
    | nil => simp [matchLen]
    | cons c l =>
      by_cases hc : c = m
      · simpa [matchLen, hc] using ih l
      · simp [matchLen, hc]

/-- A text at which a byte is lost. -/
theorem loses_eq {l : Text} (h : loses mark l) : ∃ p b post, p ≠ [] ∧ p <+: mark ∧ isNegative b ∧
    l[matchLen mark l]? = some b ∧ l = p ++ b :: post ∧ reread mark l = p ++ post := by
  obtain ⟨hne, hb⟩ := h
  cases hget : l[matchLen mark l]? with
  | none => simp [hget] at hb
  | some b =>
    obtain ⟨hlt, hget'⟩ := List.getElem?_eq_some_iff.1 hget
    refine ⟨l.take (matchLen mark l), b, l.drop (matchLen mark l + 1), ?_, ?_, by simpa [hget] using hb,
      rfl, ?_, ?_⟩
    · simp only [ne_eq, List.take_eq_nil_iff, not_or]
      exact ⟨hne, fun hl => by simp [hl] at hlt⟩
    · rw [take_matchLen]
      exact List.take_prefix _ _
    · rw [← hget', ← List.drop_eq_getElem_cons hlt, List.take_append_drop]
    · rw [reread, if_pos ⟨hne, hb⟩, List.eraseIdx_eq_take_drop_succ]

end

/-- The text of a line after its tabs, if these are stripped. -/
def stripped (striptabs : Bool) (l : Text) : Text :=
  if striptabs then l.dropWhile (· == '\t') else l

section
variable {mark : Text} {striptabs : Bool}

theorem reread_eq {l : Text} {n : ℕ} (hn : matchLen mark l = n) : reread mark l =
    if n ≠ 0 ∧ l[n]?.any isNegative then l.eraseIdx n else l := by
  subst hn
  rfl

theorem storedText_stripped (l : Text) :
    storedText mark striptabs true l = storedText mark striptabs true (stripped striptabs l) := by
  unfold stripped
  split_ifs with htabs
  · induction l with
    | nil => rfl
    | cons c l ih =>
      by_cases hc : c = '\t'
      · simpa [hc, storedText, htabs] using ih
      · simp [hc]
  · rfl

theorem storedText_false (c : Char) (cs : Text) : storedText mark striptabs false (c :: cs) =
    (c :: (storedText mark striptabs (c == '\n') cs).1, (storedText mark striptabs (c == '\n') cs).2) := by
  simp [storedText, readOn]

theorem reread_cons (c : Char) (cs : Text) :
    reread mark (c :: cs) = c :: (reread mark (c :: cs)).tail := by
  rw [reread_eq rfl]
  split_ifs with h
  · obtain ⟨k, hk⟩ := Nat.exists_eq_succ_of_ne_zero h.1
    rw [hk]
    rfl
  · rfl

theorem stripped_head {l : Text} : ¬ (striptabs ∧ (stripped striptabs l).head? = some '\t') := by
  rintro ⟨htabs, hhead⟩
  rw [stripped, if_pos htabs] at hhead
  have := List.head?_dropWhile_not (· == '\t') l
  rw [hhead] at this
  simp at this

/-- A line that is read: the comparison leaves the first character in place. -/
theorem storedText_line {l : Text} (hend : ¬ endsHere mark (stripped striptabs l)) :
    storedText mark striptabs true l =
      storedText mark striptabs false (reread mark (stripped striptabs l)) := by
  rw [storedText_stripped]
  have htab := @stripped_head striptabs l
  cases hl : stripped striptabs l with
  | nil => simp [storedText, reread]
  | cons c cs =>
    rw [hl] at htab hend
    rw [reread_cons, storedText_false, storedText, if_neg (by simpa using htab), if_neg (by simpa using hend)]
    rfl

/-- The line with the delimiter. -/
theorem storedText_end {l : Text} (hend : endsHere mark (stripped striptabs l)) :
    (storedText mark striptabs true l).1 = [] ∧ (storedText mark striptabs true l).2.getD [] =
      (stripped striptabs l).drop (mark.length + 1) := by
  rw [storedText_stripped]
  have htab := @stripped_head striptabs l
  cases hl : stripped striptabs l with
  | nil => simp [storedText]
  | cons c cs =>
    rw [hl] at htab hend
    rw [storedText, if_neg (by simpa using htab), if_pos ⟨rfl, hend⟩]
    exact ⟨rfl, rfl⟩

theorem stripped_length (l : Text) : (stripped striptabs l).length ≤ l.length := by
  unfold stripped
  split_ifs
  · exact (List.dropWhile_suffix _).length_le
  · exact le_rfl

/-! ### What is lost -/

variable (mark) in
/-- The byte that is not put back. -/
def lostOn (line : Bool) (l : Text) : Text :=
  if line ∧ loses mark l then l[matchLen mark l]?.toList else []

theorem lostOn_eq_nil {line : Bool} {l : Text} :
    lostOn mark line l = [] ↔ ¬ (line ∧ loses mark l) := by
  rw [lostOn]
  split_ifs with hloses
  · obtain ⟨-, b, -, -, -, -, hb, -⟩ := loses_eq hloses.2
    simp [hb, hloses]
  · simp [hloses]

variable (mark striptabs) in
/-- The bytes that are neither stored nor left to be read. -/
def lostBytes : Bool → Text → Text
  | _, [] => []
  | line, c :: cs =>
    if line ∧ striptabs ∧ c = '\t' then lostBytes true cs
    else if line ∧ endsHere mark (c :: cs) then []
    else lostOn mark line (c :: cs) ++ lostBytes (c == '\n') (readOn mark line c cs)
termination_by _ l => l.length
decreasing_by
  · exact Nat.lt_succ_self _
  · exact readOn_length _ _ _ _

theorem readOn_eq {line : Bool} {c : Char} {cs : Text} (h : ¬ (line ∧ loses mark (c :: cs))) :
    readOn mark line c cs = cs := by
  rw [readOn]
  split_ifs with hline
  · rw [reread, if_neg fun hloses => h ⟨hline, hloses⟩, List.tail_cons]
  · rfl

theorem lostBytes_eq_nil {line : Bool} {l : Text} :
    lostBytes mark striptabs line l = [] ↔ Lossless mark striptabs line l := by
  induction l generalizing line with
  | nil => simp [lostBytes, Lossless]
  | cons c cs ih =>
    rw [lostBytes, Lossless]
    split_ifs with htab hend
    · exact ih
    · exact iff_of_true rfl trivial
    · rw [List.append_eq_nil_iff, lostOn_eq_nil]
      refine and_congr_right fun hloses => ?_
      rw [readOn_eq hloses, ih]

theorem storedText_of_lossless {line : Bool} {l : Text} (h : Lossless mark striptabs line l) :
    storedText mark striptabs line l = hereText mark striptabs line l := by
  induction l generalizing line with
  | nil => simp [storedText, hereText]
  | cons c cs ih =>
    rw [Lossless] at h
    rw [storedText, hereText]
    split_ifs at h ⊢ with htab hend
    · exact ih h
    · rfl
    · rw [readOn_eq h.1, ih h.2]

/-- The counts of the delimiter and its line. -/
theorem endsHere_countP {l : Text} (p : Char → Bool) (hend : endsHere mark l) : ∃ e,
    l.countP p = mark.countP p + e + (l.drop (mark.length + 1)).countP p ∧ (p '\n' = false → e = 0) := by
  rcases endsHere_eq.1 hend with rfl | ⟨r, rfl⟩
  · exact ⟨0, by rw [List.drop_of_length_le (Nat.le_succ _)]; rfl, fun _ => rfl⟩
  · refine ⟨['\n'].countP p, ?_, fun hp => by simp [hp]⟩
    rw [List.countP_append, List.countP_cons, ← List.drop_drop, List.drop_left, List.countP_singleton,
      List.drop_one, List.tail_cons]
    omega

theorem hereText_countP (p : Char → Bool) (hp : p '\t' = false) (line : Bool) (l : Text) : ∃ e,
    l.countP p = (hereText mark striptabs line l).1.countP p +
      (hereText mark striptabs line l).2.elim 0 (fun r => mark.countP p + e + r.countP p) ∧
      (p '\n' = false → e = 0) := by
  induction l generalizing line with
  | nil => exact ⟨0, by simp [hereText], fun _ => rfl⟩
  | cons c cs ih =>
    rw [hereText]
    split_ifs with htab hend
    · obtain ⟨e, hcount, he⟩ := ih true
      exact ⟨e, by rw [List.countP_cons_of_neg (by simp [htab.2.2, hp]), hcount], he⟩
    · obtain ⟨e, hcount, he⟩ := endsHere_countP p hend.2
      exact ⟨e, by simpa using hcount, he⟩
    · obtain ⟨e, hcount, he⟩ := ih (c == '\n')
      refine ⟨e, ?_, he⟩
      rw [List.countP_cons, List.countP_cons, hcount]
      dsimp only
      omega

/-- A character that is stored, with what is lost of its line. -/
theorem readOn_countP (p : Char → Bool) (line : Bool) (c : Char) (cs : Text) : cs.countP p =
    (readOn mark line c cs).countP p + (lostOn mark line (c :: cs)).countP p := by
  by_cases hloses : line ∧ loses mark (c :: cs)
  · obtain ⟨pre, b, post, hpre, -, -, hb, hl, hreread⟩ := loses_eq hloses.2
    rw [readOn, lostOn, if_pos hloses.1, if_pos hloses, hreread, hb]
    obtain ⟨c', pre, rfl⟩ := List.exists_cons_of_ne_nil hpre
    rw [List.cons_append] at hl
    obtain ⟨rfl, rfl⟩ := List.cons.inj hl
    simp only [List.cons_append, List.tail_cons, List.countP_append, List.countP_cons,
      Option.toList_some, List.countP_nil]
    omega
  · rw [readOn_eq hloses, lostOn_eq_nil.2 hloses, List.countP_nil, Nat.add_zero]

theorem storedText_countP (p : Char → Bool) (hp : p '\t' = false) (line : Bool) (l : Text) : ∃ e,
    l.countP p = (storedText mark striptabs line l).1.countP p +
      (lostBytes mark striptabs line l).countP p +
      (storedText mark striptabs line l).2.elim 0 (fun r => mark.countP p + e + r.countP p) ∧
      (p '\n' = false → e = 0) := by
  induction line, l using storedText.induct mark striptabs with
  | case1 => exact ⟨0, by simp [storedText, lostBytes], fun _ => rfl⟩
  | case2 line c cs htab ih =>
    obtain ⟨e, hcount, he⟩ := ih
    rw [storedText, lostBytes, if_pos htab, if_pos htab]
    exact ⟨e, by rw [List.countP_cons_of_neg (by simp [htab.2.2, hp]), hcount], he⟩
  | case3 line c cs htab hend =>
    obtain ⟨e, hcount, he⟩ := endsHere_countP p hend.2
    rw [storedText, lostBytes, if_neg htab, if_neg htab, if_pos hend, if_pos hend]
    exact ⟨e, by simpa using hcount, he⟩
  | case4 line c cs htab hend ih =>
    obtain ⟨e, hcount, he⟩ := ih
    rw [storedText, lostBytes, if_neg htab, if_neg htab, if_neg hend, if_neg hend]
    refine ⟨e, ?_, he⟩
    have hread := @readOn_countP mark p line c cs
    simp only [List.countP_cons, List.countP_append] at hcount ⊢
    omega

theorem lostBytes_negative {line : Bool} {l : Text} :
    ∀ b ∈ lostBytes mark striptabs line l, isNegative b := by
  induction line, l using storedText.induct mark striptabs with
  | case1 => simp [lostBytes]
  | case2 line c cs htab ih => rwa [lostBytes, if_pos htab]
  | case3 line c cs htab hend =>
    rw [lostBytes, if_neg htab, if_pos hend]
    exact fun b hb => absurd hb (List.not_mem_nil)
  | case4 line c cs htab hend ih =>
    rw [lostBytes, if_neg htab, if_neg hend]
    intro b hb
    rcases List.mem_append.1 hb with hb | hb
    · rw [lostOn] at hb
      split_ifs at hb with hloses
      · obtain ⟨-, b', -, -, -, hneg, hget, -⟩ := loses_eq hloses.2
        rw [hget, Option.toList_some, List.mem_singleton] at hb
        exact hb ▸ hneg
      · exact absurd hb (List.not_mem_nil)
    · exact ih b hb

/-- Text without a newline does not move the end of the document. -/
theorem hereText_append {t : Text} (ht : '\n' ∉ t) (l : Text) :
    hereText mark striptabs false (t ++ l) =
      (t ++ (hereText mark striptabs false l).1, (hereText mark striptabs false l).2) := by
  induction t with
  | nil => rfl
  | cons c t ih =>
    simp only [List.mem_cons, not_or] at ht
    simp [hereText, beq_eq_false_iff_ne.2 (Ne.symm ht.1), ih ht.2]

theorem storedText_snd (hmark : '\n' ∉ mark) (line : Bool) (l : Text) :
    (storedText mark striptabs line l).2 = (hereText mark striptabs line l).2 := by
  induction line, l using storedText.induct mark striptabs with
  | case1 => simp [storedText, hereText]
  | case2 line c cs htab ih => rwa [storedText, hereText, if_pos htab, if_pos htab]
  | case3 line c cs htab hend =>
    rw [storedText, hereText, if_neg htab, if_neg htab, if_pos hend, if_pos hend]
  | case4 line c cs htab hend ih =>
    rw [storedText, hereText, if_neg htab, if_neg htab, if_neg hend, if_neg hend]
    dsimp only
    rw [ih]
    by_cases hloses : line ∧ loses mark (c :: cs)
    · obtain ⟨pre, b, post, hpre, hstart, hneg, -, hl, hreread⟩ := loses_eq hloses.2
      obtain ⟨c', pre, rfl⟩ := List.exists_cons_of_ne_nil hpre
      rw [List.cons_append] at hl
      obtain ⟨rfl, rfl⟩ := List.cons.inj hl
      have hnl : '\n' ∉ c :: pre := fun h => hmark (hstart.subset h)
      simp only [List.mem_cons, not_or] at hnl
      have hb : '\n' ∉ pre ++ [b] := by
        have : b ≠ '\n' := by
          rintro rfl
          exact absurd hneg (by decide)
        simp [hnl.2, this.symm]
      rw [readOn, if_pos hloses.1, hreread, beq_eq_false_iff_ne.2 (Ne.symm hnl.1), List.cons_append,
        List.tail_cons, List.append_cons, hereText_append hnl.2, hereText_append hb]
    · rw [readOn_eq hloses]

/-- What is stored and what is left are as specified only if nothing is lost. -/
theorem storedText_eq_iff {s : Text} :
    ((storedText mark striptabs true s).1 = (hereText mark striptabs true s).1 ∧
      (storedText mark striptabs true s).2.getD [] = (hereText mark striptabs true s).2.getD []) ↔
    Lossless mark striptabs true s := by
  refine ⟨fun ⟨hbody, hrest⟩ => ?_, fun h => by rw [storedText_of_lossless h]; exact ⟨rfl, rfl⟩⟩
  have hsnd : (storedText mark striptabs true s).2 = (hereText mark striptabs true s).2 := by
    by_cases hmark : '\n' ∈ mark
    · obtain ⟨e, hstored, -⟩ := @storedText_countP mark striptabs (· == '\n') rfl true s
      obtain ⟨e', hhere, -⟩ := @hereText_countP mark striptabs (· == '\n') rfl true s
      have hlost : (lostBytes mark striptabs true s).countP (· == '\n') = 0 := by
        rw [List.countP_eq_zero]
        intro b hb hnl
        have hneg := lostBytes_negative b hb
        rw [eq_of_beq hnl] at hneg
        exact absurd hneg (by decide)
      have hpos : 0 < mark.countP (· == '\n') := List.countP_pos_iff.2 ⟨_, hmark, by simp⟩
      rw [hstored, hbody, hlost] at hhere
      cases hs : (storedText mark striptabs true s).2 <;>
        cases hh : (hereText mark striptabs true s).2 <;> rw [hs, hh] at hhere hrest <;>
        simp only [Option.elim, Option.getD] at hhere hrest
      · omega
      · omega
      · rw [hrest]
    · exact storedText_snd hmark true s
  obtain ⟨e, hstored, he⟩ := @storedText_countP mark striptabs isNegative rfl true s
  obtain ⟨e', hhere, he'⟩ := @hereText_countP mark striptabs isNegative rfl true s
  rw [he rfl, hbody, hsnd] at hstored
  rw [he' rfl, hstored] at hhere
  have hzero : (lostBytes mark striptabs true s).countP isNegative = 0 := by omega
  rw [List.countP_eq_zero] at hzero
  rw [← lostBytes_eq_nil, List.eq_nil_iff_forall_not_mem]
  exact fun b hb => hzero b hb (lostBytes_negative b hb)

/-! ### Lines -/

/-- The lines of a text, each with its newline. -/
def lines : Text → List Text
  | [] => []
  | c :: cs =>
    if c = '\n' then [c] :: lines cs
    else match lines cs with
      | [] => [[c]]
      | line :: rest => (c :: line) :: rest

theorem lines_newline {t : Text} (ht : '\n' ∉ t) (l : Text) :
    lines (t ++ '\n' :: l) = (t ++ ['\n']) :: lines l := by
  induction t with
  | nil => simp [lines]
  | cons c t ih =>
    simp only [List.mem_cons, not_or] at ht
    simp [lines, Ne.symm ht.1, ih ht.2]

theorem lines_last {t : Text} (ht : '\n' ∉ t) (hne : t ≠ []) : lines t = [t] := by
  induction t with
  | nil => exact absurd rfl hne
  | cons c t ih =>
    simp only [List.mem_cons, not_or] at ht
    cases t with
    | nil => simp [lines, Ne.symm ht.1]
    | cons c' t => rw [lines, if_neg (Ne.symm ht.1), ih ht.2 (List.cons_ne_nil _ _)]

variable (mark striptabs) in
/-- The line, without its tabs if these are stripped, is the delimiter. -/
def isDelimiter (line : Text) : Bool :=
  stripped striptabs line == mark || stripped striptabs line == mark ++ ['\n']

theorem stripped_newline (t l : Text) :
    stripped striptabs (t ++ '\n' :: l) = stripped striptabs t ++ '\n' :: l := by
  unfold stripped
  split_ifs
  · induction t with
    | nil => simp
    | cons c t ih =>
      by_cases hc : c = '\t'
      · simpa [hc] using ih
      · simp [hc]
  · rfl

theorem hereText_stripped (l : Text) :
    hereText mark striptabs true l = hereText mark striptabs true (stripped striptabs l) := by
  unfold stripped
  split_ifs with htabs
  · induction l with
    | nil => rfl
    | cons c l ih =>
      by_cases hc : c = '\t'
      · simpa [hc, hereText, htabs] using ih
      · simp [hc]
  · rfl

theorem newline_not_mem_stripped {t : Text} (ht : '\n' ∉ t) : '\n' ∉ stripped striptabs t := by
  unfold stripped
  split_ifs
  · exact fun h => ht ((List.dropWhile_suffix _).subset h)
  · exact ht

theorem takeWhile_newline {t : Text} (ht : '\n' ∉ t) (l : Text) :
    (t ++ '\n' :: l).takeWhile (· ≠ '\n') = t := by
  rw [List.takeWhile_append_of_pos]
  · simp
  · rintro c hc
    exact decide_eq_true fun h => ht (h ▸ hc)

/-- The delimiter against a line that ends with a newline. -/
theorem endsHere_newline {t : Text} (hmark : '\n' ∉ mark) (ht : '\n' ∉ t) (l : Text) :
    endsHere mark (t ++ '\n' :: l) ↔ t = mark := by
  rw [endsHere_eq]
  constructor
  · rintro (hl | ⟨r, hl⟩)
    · exact absurd (hl ▸ List.mem_append_right t (List.mem_cons_self)) hmark
    · rw [← takeWhile_newline ht l, hl, takeWhile_newline hmark]
  · rintro rfl
    exact Or.inr ⟨l, rfl⟩

theorem endsHere_last {t : Text} (ht : '\n' ∉ t) : endsHere mark t ↔ t = mark := by
  rw [endsHere_eq]
  refine or_iff_left ?_
  rintro ⟨r, rfl⟩
  exact ht (List.mem_append_right _ (List.mem_cons_self))

/-- A line that is not the delimiter, and the lines after it. -/
theorem hereText_line {l : Text} (hend : ¬ endsHere mark (stripped striptabs l)) :
    hereText mark striptabs true l = hereText mark striptabs false (stripped striptabs l) := by
  rw [hereText_stripped]
  have htab := @stripped_head striptabs l
  cases hl : stripped striptabs l with
  | nil => rfl
  | cons c cs =>
    rw [hl] at htab hend
    rw [hereText, hereText, if_neg (by simpa using htab), if_neg (by simpa using hend),
      if_neg (by simp), if_neg (by simp)]

theorem hereText_end {l : Text} (hend : endsHere mark (stripped striptabs l)) :
    (hereText mark striptabs true l).1 = [] ∧ (hereText mark striptabs true l).2.getD [] =
      (stripped striptabs l).drop (mark.length + 1) := by
  rw [hereText_stripped]
  have htab := @stripped_head striptabs l
  cases hl : stripped striptabs l with
  | nil => simp [hereText]
  | cons c cs =>
    rw [hl] at htab hend
    rw [hereText, if_neg (by simpa using htab), if_pos ⟨rfl, hend⟩]
    exact ⟨rfl, rfl⟩

theorem isDelimiter_newline {t : Text} (hmark : '\n' ∉ mark) :
    isDelimiter mark striptabs (t ++ ['\n']) = (stripped striptabs t == mark) := by
  have hne : stripped striptabs t ++ ['\n'] ≠ mark := by
    rintro rfl
    exact hmark (List.mem_append_right _ List.mem_cons_self)
  rw [isDelimiter, stripped_newline, beq_eq_false_iff_ne.2 hne, Bool.false_or, Bool.eq_iff_iff]
  simp

theorem isDelimiter_last {t : Text} (ht : '\n' ∉ t) :
    isDelimiter mark striptabs t = (stripped striptabs t == mark) := by
  have hne : stripped striptabs t ≠ mark ++ ['\n'] := fun h => newline_not_mem_stripped ht
    (h ▸ List.mem_append_right _ List.mem_cons_self)
  rw [isDelimiter, beq_eq_false_iff_ne.2 hne, Bool.or_false]

theorem lines_flatten (l : Text) : (lines l).flatten = l := by
  induction l with
  | nil => rfl
  | cons c l ih =>
    rw [lines]
    split_ifs
    · rw [List.flatten_cons, ih, List.singleton_append]
    · cases hl : lines l with
      | nil => rw [← ih, hl]; rfl
      | cons line rest => rw [← ih, hl]; rfl

/-- For a delimiter that is one line, the document is the lines before it. -/
theorem hereText_eq_lines (hmark : '\n' ∉ mark) (l : Text) :
    (hereText mark striptabs true l).1 = (((lines l).takeWhile
      fun line => !isDelimiter mark striptabs line).map (stripped striptabs)).flatten ∧
    (hereText mark striptabs true l).2.getD [] =
      ((lines l).dropWhile fun line => !isDelimiter mark striptabs line).tail.flatten := by
  induction hn : l.length using Nat.strong_induction_on generalizing l with
  | _ n ih =>
    by_cases hl : '\n' ∈ l
    · obtain ⟨t, r, rfl, ht⟩ := List.eq_append_cons_of_mem hl
      have hst := @newline_not_mem_stripped striptabs t ht
      have hends : endsHere mark (stripped striptabs (t ++ '\n' :: r)) ↔
          stripped striptabs t = mark := by
        rw [stripped_newline, endsHere_newline hmark hst]
      rw [lines_newline ht, List.takeWhile_cons, List.dropWhile_cons, isDelimiter_newline hmark]
      by_cases hend : stripped striptabs t = mark
      · obtain ⟨hbody, hrest⟩ := hereText_end (hends.2 hend)
        rw [hbody, hrest, stripped_newline, hend, ← List.drop_drop, List.drop_left]
        simp [lines_flatten]
      · obtain ⟨hbody, hrest⟩ := ih r.length (by simp [← hn]; omega) r rfl
        rw [hereText_line (fun h => hend (hends.1 h)), stripped_newline, hereText_append hst]
        simp [hereText, hend, hbody, hrest, stripped_newline]
    · have hst := @newline_not_mem_stripped striptabs l hl
      by_cases hnil : l = []
      · subst hnil
        exact ⟨rfl, rfl⟩
      rw [lines_last hl hnil, List.takeWhile_cons, List.dropWhile_cons, isDelimiter_last hl]
      by_cases hend : stripped striptabs l = mark
      · obtain ⟨hbody, hrest⟩ := hereText_end ((endsHere_last hst).2 hend)
        rw [hbody, hrest, hend]
        simp
      · have happend := @hereText_append mark striptabs _ hst []
        rw [List.append_nil] at happend
        rw [hereText_line (fun h => hend ((endsHere_last hst).1 h)), happend]
        simp [hereText, hend]

end
end Bootsh
