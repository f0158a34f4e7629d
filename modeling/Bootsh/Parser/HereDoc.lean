import Bootsh.Parser.ReadToken
import Bootsh.Parser.HereText
import Bootsh.Input.Pushback

/-!
Here-documents with a quoted delimiter: what `parseheredoc` stores. `checkend`
takes a byte beyond ASCII for the end of file and does not push it back.
-/
namespace Bootsh

/-! ### The run of the code -/

section
variable {β : Type} {callees : Callees β} {mark : Text} {striptabs : Bool}

theorem Reads.parser_pgetc {st : Parser} {l : Text} (h : Reads st.input (l.map some)) :
    st.pgetc.1 = l.head? ∧ Reads st.pgetc.2.input (l.tail.map some) := by
  obtain ⟨hc, hr⟩ := h.pgetc
  cases l <;> exact ⟨hc, hr⟩

theorem Reads.newline {st : Parser} {l : List Chr} (h : Reads st.input l) :
    Reads st.newline.input l := ⟨h.unget, h.strpush, h.remaining⟩

theorem skipTabs_spec {l : Text} {fuel : ℕ} {st : Parser} (hfuel : l.length < fuel)
    (h : Reads st.input (l.tail.map some)) : ∃ st', skipTabs fuel l.head? st =
      .ok ((l.dropWhile (· == '\t')).head?, st') ∧
      Reads st'.input ((l.dropWhile (· == '\t')).tail.map some) := by
  induction l generalizing fuel st with
  | nil =>
    obtain ⟨fuel, rfl⟩ := Nat.exists_eq_succ_of_ne_zero (by omega : fuel ≠ 0)
    exact ⟨st, rfl, h⟩
  | cons c l ih =>
    obtain ⟨fuel, rfl⟩ := Nat.exists_eq_succ_of_ne_zero (by omega : fuel ≠ 0)
    by_cases hc : c = '\t'
    · obtain ⟨hhead, hr⟩ := Reads.parser_pgetc h
      obtain ⟨st', hskip, hr'⟩ := ih (by simpa using hfuel) hr
      refine ⟨st', ?_, by simpa [hc] using hr'⟩
      rw [skipTabs, hhead]
      simpa [hc] using hskip
    · exact ⟨st, by simp [skipTabs, hc], by simpa [hc] using h⟩

theorem matchMark_spec {l read : Text} {st : Parser} (h : Reads st.input (l.tail.map some)) :
    ∃ st', matchMark mark read l.head? st =
      ((read ++ l.take (matchLen mark l), l[matchLen mark l]?, matchLen mark l == mark.length), st') ∧
      Reads st'.input ((l.drop (matchLen mark l + 1)).map some) := by
  induction mark generalizing l read st with
  | nil =>
    refine ⟨st, ?_, ?_⟩
    · cases l <;> simp [matchMark, matchLen]
    · cases l <;> simpa [matchLen] using h
  | cons m mark ih =>
    cases l with
    | nil => exact ⟨st, by simp [matchMark, matchLen], by simpa [matchLen] using h⟩
    | cons c l =>
      by_cases hc : c = m
      · obtain ⟨hhead, hr⟩ := Reads.parser_pgetc h
        obtain ⟨st', hmatch, hr'⟩ := @ih l (read ++ [m]) _ hr
        refine ⟨st', ?_, by simpa [matchLen, hc] using hr'⟩
        rw [List.tail_cons] at hhead
        simp [matchMark, matchLen, hc, hhead, hmatch]
      · exact ⟨st, by simp [matchMark, matchLen, hc], by simpa [matchLen, hc] using h⟩

/-- The characters that `more_heredoc` puts back. -/
theorem moreHeredoc_reads {c₀ : Char} {read back rest : Text} {c : Chr} {st : Parser}
    (hback : (read ++ [c.byte]).take ((read ++ [c.byte]).length -
      (if isNegativeChr c then 1 else 0)) = back) (h : Reads st.input (rest.map some)) :
    (moreHeredoc (c₀ :: read) c st).1 = some c₀ ∧
      Reads (moreHeredoc (c₀ :: read) c st).2.input ((back ++ rest).map some) := by
  refine ⟨rfl, ?_⟩
  simp only [moreHeredoc]
  generalize (read ++ [c.byte]).length - (if isNegativeChr c then 1 else 0) = len at hback ⊢
  rw [hback]
  by_cases hlen : len = 0
  · have hnil : back = [] := by rw [← hback, hlen, List.take_zero]
    simpa [hlen, hnil] using h
  · rw [if_neg hlen, List.map_append]
    exact h.pushstring back none

theorem moreHeredoc_spec {l : Text} {st : Parser}
    (h : Reads st.input ((l.drop (matchLen mark l + 1)).map some)) :
    (moreHeredoc (l.take (matchLen mark l)) l[matchLen mark l]? st).1 = (reread mark l).head? ∧
      Reads (moreHeredoc (l.take (matchLen mark l)) l[matchLen mark l]? st).2.input
        ((reread mark l).tail.map some) := by
  generalize hn : matchLen mark l = n at h ⊢
  rw [reread_eq hn]
  cases l with
  | nil => simpa [moreHeredoc] using h
  | cons c₀ l =>
    cases n with
    | zero => simpa [moreHeredoc] using h
    | succ k =>
      rw [List.drop_succ_cons] at h
      rw [List.take_succ_cons, List.getElem?_cons_succ]
      cases hget : l[k]? with
      | none =>
        have hk : l.length ≤ k := List.getElem?_eq_none_iff.1 hget
        have hback := @moreHeredoc_reads c₀ (l.take k) l _ none _ (by simp [isNegativeChr, List.take_of_length_le hk]) h
        rw [List.drop_of_length_le (by omega), List.append_nil] at hback
        simpa using hback
      | some c =>
        have hk : k < l.length := (List.getElem?_eq_some_iff.1 hget).1
        by_cases hneg : isNegative c
        · have hback := @moreHeredoc_reads c₀ (l.take k) (l.take k) _ (some c) _
            (by simp [isNegativeChr, hneg]) h
          rw [← List.eraseIdx_eq_take_drop_succ] at hback
          simpa [hneg] using hback
        · have hback := @moreHeredoc_reads c₀ (l.take k) (l.take (k + 1)) _ (some c) _
            (by simp [isNegativeChr, hneg, Chr.byte, List.take_add_one, hget]) h
          rw [List.take_append_drop] at hback
          simpa [hneg] using hback

/-- `checkend` at the start of a line. -/
theorem checkend_spec {l : Text} {fuel : ℕ} {st : Parser} (hfuel : l.length < fuel)
    (h : Reads st.input (l.tail.map some)) : ∃ c st',
    checkend fuel (.mark mark) striptabs l.head? st = .ok (c, st') ∧
      if endsHere mark (stripped striptabs l) then
        c = none ∧ Reads st'.input (((stripped striptabs l).drop (mark.length + 1)).map some)
      else c = (reread mark (stripped striptabs l)).head? ∧
        Reads st'.input ((reread mark (stripped striptabs l)).tail.map some) := by
  have hskip : ∃ st', (if striptabs then skipTabs fuel l.head? st else .ok (l.head?, st)) =
      .ok ((stripped striptabs l).head?, st') ∧
      Reads st'.input ((stripped striptabs l).tail.map some) := by
    cases striptabs with
    | false => exact ⟨st, rfl, h⟩
    | true => exact skipTabs_spec hfuel h
  generalize stripped striptabs l = line at hskip ⊢
  obtain ⟨st₁, hskip, hr⟩ := hskip
  obtain ⟨st₂, hmatch, hr⟩ := @matchMark_spec mark line [] st₁ hr
  simp only [checkend, hskip, bind, Except.bind, hmatch, List.nil_append]
  by_cases hend : endsHere mark line
  · have hcond := endsHere_iff.1 hend
    rw [hcond.1] at hr
    simp only [if_pos hend]
    exact ⟨none, st₂.newline, if_pos ⟨by simpa using hcond.1, hcond.2⟩, rfl, hr.newline⟩
  · simp only [if_neg hend]
    exact ⟨_, _, if_neg fun h => hend (endsHere_iff.2 ⟨by simpa using h.1, h.2⟩), moreHeredoc_spec hr⟩

/-! ### The loop of `readtoken1` -/

/-- The classes of single-quoted text. -/
theorem Syntax.get_sq (c : Char) : (c = '\n' ∧ Syntax.sq.get (some c) = .cnl) ∨
    (c ≠ '\n' ∧ Syntax.sq.get (some c) ∈ [SynClass.cendquote, .cctl, .cword]) := by
  by_cases hnl : c = '\n'
  · exact Or.inl ⟨hnl, by rw [hnl]; rfl⟩
  · refine Or.inr ⟨hnl, ?_⟩
    simp only [Syntax.get, Syntax.entries, List.find?]
    have hfirst : "\n".toList.contains c = false := by simpa using hnl
    rw [hfirst]
    cases hquote : "'".toList.contains c <;> cases hctl : "!*?[=~:/-]\\".toList.contains c <;>
      cases isCtl c <;> simp

/-- In single quotes every character stands for itself. -/
theorem storeChar_sq {callees : Callees β} {fuel : ℕ} {tok : Locals β} {st : Parser}
    {c : Char} (hc : tok.c = some c) (hsyn : tok.synstack.syn = .sq)
    (hdblquote : tok.synstack.dblquote = false) (hvarnest : tok.synstack.varnest = 0) :
    ∃ st', storeChar callees fuel (.mark mark) tok st =
        .ok ((if c = '\n' then .line else .char, tok.put [c]), st') ∧
      ∀ s, Reads st.input s → Reads st'.input s := by
  rcases Syntax.get_sq c with ⟨rfl, hcls⟩ | ⟨hnl, hcls⟩
  · exact ⟨st.newline, by simp [storeChar, hsyn, hc, hcls, Chr.byte, pure, Except.pure], fun s hs => hs.newline⟩
  · refine ⟨st, ?_, fun s hs => hs⟩
    simp only [List.mem_cons, List.not_mem_nil, or_false] at hcls
    rcases hcls with hcls | hcls | hcls <;>
      simp [storeChar, hsyn, hc, hcls, Chr.byte, hnl, hdblquote, hvarnest, pure, Except.pure]

theorem readLoop_line {callees : Callees β} {eofmark : Eofmark} {fuel : ℕ} {tok : Locals β}
    {st st' : Parser} {c : Chr} (h : checkend fuel eofmark striptabs tok.c st = .ok (c, st')) :
    readLoop callees eofmark striptabs (fuel + 1) true tok st =
      readLoop callees eofmark striptabs (fuel + 1) false { tok with c } st' := by
  simp only [readLoop, if_true, h]
  rfl

theorem readLoop_eof {callees : Callees β} {eofmark : Eofmark} {fuel : ℕ} {tok : Locals β}
    {st : Parser} (hc : tok.c = none) :
    readLoop callees eofmark striptabs (fuel + 1) false tok st = .ok (tok, st) := by
  cases tok
  subst hc
  rfl

theorem readLoop_char {callees : Callees β} {fuel : ℕ} {tok : Locals β} {st : Parser} {c : Char}
    {cs : Text} (hc : tok.c = some c) (hsyn : tok.synstack.syn = .sq)
    (hdblquote : tok.synstack.dblquote = false) (hvarnest : tok.synstack.varnest = 0)
    (h : Reads st.input (cs.map some)) : ∃ st',
    readLoop callees (.mark mark) striptabs (fuel + 1) false tok st =
      readLoop callees (.mark mark) striptabs fuel (c == '\n') { tok.put [c] with c := cs.head? } st' ∧
      Reads st'.input (cs.tail.map some) := by
  obtain ⟨st₁, hstore, hreads⟩ :=
    @storeChar_sq β mark callees fuel tok st c hc hsyn hdblquote hvarnest
  obtain ⟨hhead, hr⟩ := (hreads _ h).parser_pgetc
  refine ⟨st₁.pgetc.2, ?_, hr⟩
  have htop : pgetcTop fuel (tok.put [c]).synstack st₁ = .ok (cs.head?, st₁.pgetc.2) := by
    rw [pgetcTop, ← hhead]
    exact if_pos hsyn
  simp only [readLoop, Bool.false_eq_true, if_false, bind, Except.bind, pure, Except.pure, hstore, htop]
  by_cases hnl : c = '\n'
  · simp [hnl]
  · simp [hnl, beq_eq_false_iff_ne.2 hnl]

/-- The loop of `readtoken1` on single-quoted text. -/
theorem readLoop_sq (callees : Callees β) {l : Text} {line : Bool} {fuel : ℕ} {tok : Locals β}
    {st : Parser} (hfuel : l.length + 1 < fuel) (hc : tok.c = l.head?)
    (hsyn : tok.synstack.syn = .sq) (hdblquote : tok.synstack.dblquote = false)
    (hvarnest : tok.synstack.varnest = 0) (h : Reads st.input (l.tail.map some)) :
    ∃ c st', readLoop callees (.mark mark) striptabs fuel line tok st = .ok
        ({ tok with c, out := tok.out ++ (storedText mark striptabs line l).1 }, st') ∧
      Reads st'.input (((storedText mark striptabs line l).2.getD []).map some) := by
  induction fuel generalizing l line tok st with
  | zero => exact absurd hfuel (Nat.not_lt_zero _)
  | succ fuel ih =>
    have hchar : ∀ {l : Text} {tok : Locals β} {st : Parser}, l.length < fuel → tok.c = l.head? →
        tok.synstack.syn = .sq → tok.synstack.dblquote = false → tok.synstack.varnest = 0 →
        Reads st.input (l.tail.map some) → ∃ c st',
        readLoop callees (.mark mark) striptabs (fuel + 1) false tok st = .ok
          ({ tok with c, out := tok.out ++ (storedText mark striptabs false l).1 }, st') ∧
        Reads st'.input (((storedText mark striptabs false l).2.getD []).map some) := by
      intro l tok st hfuel hc hsyn hdblquote hvarnest h
      cases l with
      | nil => exact ⟨tok.c, st, by simpa [storedText] using readLoop_eof hc, by simpa [storedText] using h⟩
      | cons c cs =>
        obtain ⟨st₁, hstep, hr⟩ :=
          @readLoop_char β mark striptabs callees fuel tok st c cs hc hsyn hdblquote hvarnest h
        obtain ⟨c', st₂, hrest, hr⟩ := @ih cs (c == '\n') { tok.put [c] with c := cs.head? } st₁
          hfuel rfl hsyn hdblquote hvarnest hr
        rw [storedText_false]
        refine ⟨c', st₂, ?_, hr⟩
        rw [hstep, hrest]
        simp [Locals.put]
    cases line with
    | false => exact hchar (Nat.lt_of_succ_lt_succ hfuel) hc hsyn hdblquote hvarnest h
    | true =>
      obtain ⟨c, st₁, hcheck, hr⟩ :=
        @checkend_spec mark striptabs l fuel st (by omega) h
      rw [readLoop_line (by rw [hc]; exact hcheck)]
      split at hr
      case isTrue hend =>
        obtain ⟨hnone, hr⟩ := hr
        obtain ⟨hout, hrest⟩ := storedText_end hend
        exact ⟨c, st₁, by rw [readLoop_eof hnone, hout, List.append_nil], by rwa [hrest]⟩
      case isFalse hend =>
        rw [storedText_line hend]
        refine hchar ?_ hr.1 hsyn hdblquote hvarnest hr.2
        have hreread := reread_length mark (stripped striptabs l)
        have hstripped := @stripped_length striptabs l
        omega

/-- One turn of the loop of `parseheredoc`. -/
theorem readHeredoc_quoted (callees : Callees β) {here : Heredoc} {fuel : ℕ} {s : Text} {st : Parser}
    (hquoted : here.quoted = true) (hfuel : s.length + 1 < fuel) (h : Reads st.input (s.map some)) :
    ∃ st', readHeredoc callees fuel here st =
        .ok (⟨(storedText here.eofmark here.striptabs true s).1, [], false⟩, st') ∧
      Reads st'.input (((storedText here.eofmark here.striptabs true s).2.getD []).map some) := by
  obtain ⟨hhead, hr⟩ := h.parser_pgetc
  obtain ⟨c, st', hloop, hr⟩ := @readLoop_sq β here.eofmark here.striptabs callees s true fuel
    ⟨st.pgetc.1, [], 0, [], SynStack.new .sq, []⟩ st.pgetc.2 hfuel hhead rfl rfl rfl hr
  refine ⟨st', ?_, hr⟩
  rw [readHeredoc, if_pos hquoted, readtoken1]
  have hsyn : ({ SynStack.new .sq with dblquote := (Syntax.sq = .dq : Bool) } : SynStack) =
      SynStack.new .sq := rfl
  rw [hsyn, hloop]
  rfl

/-- At its turn in `parseheredoc` the document is stored as it is, and what follows
the line of the delimiter is read next. -/
def StoresExactly (callees : Callees β) (fuel : ℕ) (here : Heredoc) (st : Parser) (s : Text) : Prop :=
  let doc := hereText here.eofmark here.striptabs true s
  ∃ st', Reads st'.input ((doc.2.getD []).map some) ∧
    ∀ rest, parseheredoc.go callees fuel (here :: rest) st =
      (fun (docs, st) => (⟨doc.1, [], false⟩ :: docs, st)) <$> parseheredoc.go callees fuel rest st'

/-- A quoted here-document is stored exactly if and only if no line before the
delimiter begins as the delimiter does and goes on with a byte beyond ASCII. -/
theorem parseheredoc_exact_iff (callees : Callees β) {here : Heredoc} {fuel : ℕ} {s : Text}
    {st : Parser} (hquoted : here.quoted = true) (hfuel : s.length + 1 < fuel)
    (h : Reads st.input (s.map some)) :
    StoresExactly callees fuel here st s ↔ Lossless here.eofmark here.striptabs true s := by
  obtain ⟨st₁, hread, hr⟩ := readHeredoc_quoted callees hquoted hfuel h
  have hgo : ∀ rest, parseheredoc.go callees fuel (here :: rest) st =
      (fun (docs, st) => (⟨(storedText here.eofmark here.striptabs true s).1, [], false⟩ :: docs, st)) <$>
        parseheredoc.go callees fuel rest st₁ := by
    intro rest
    rw [parseheredoc.go, hread]
    rfl
  rw [← storedText_eq_iff]
  constructor
  · rintro ⟨st₂, hr', hexact⟩
    have heq := (hgo []).symm.trans (hexact [])
    obtain ⟨hdocs, rfl⟩ := Prod.mk.inj (Except.ok.inj heq)
    have hbody := (List.cons.inj hdocs).1
    exact ⟨(Word.mk.inj hbody).1, (List.map_inj_right fun _ _ => Option.some.inj).1 (hr.unique hr')⟩
  · rintro ⟨hbody, hrest⟩
    rw [hrest] at hr
    rw [hbody] at hgo
    exact ⟨st₁, hr, hgo⟩

end

/-- A parser at the start of a command string. -/
def atStart (text : Text) : Parser :=
  ⟨⟨⟨1, .string, ⟨[], text⟩, [], [], (none, none), 0⟩, [], [], ⟨false, false, false, false⟩, false, []⟩,
    [], false⟩

theorem atStart_reads (text : Text) : Reads (atStart text).input (text.map some) := by
  refine ⟨Nat.zero_le _, fun sp hsp => absurd hsp List.not_mem_nil, ?_⟩
  simp [atStart, ParseFile.remaining, ahead, ungot, Source.events]

/-- Substitutions are not read in a quoted document. -/
def noCallees : Callees Unit := ⟨fun st => .ok ((), st), .ok, .ok⟩

theorem parseheredoc_exact_partial :
    StoresExactly noCallees 20 ⟨true, "EOF".toList, true⟩ (atStart "\tEO\n\tEOF\nx".toList)
      "\tEO\n\tEOF\nx".toList :=
  (parseheredoc_exact_iff noCallees rfl (by decide) (atStart_reads _)).2 (by decide)

/-- After `E` the first byte of `Ã` is lost. -/
theorem parseheredoc_not_exact : ¬ ∀ (callees : Callees Unit) (here : Heredoc) (fuel : ℕ) (s : Text)
    (st : Parser), here.quoted = true → s.length + 1 < fuel → Reads st.input (s.map some) →
    StoresExactly callees fuel here st s := by
  intro h
  obtain ⟨st', -, hexact⟩ := h noCallees ⟨true, "EOF".toList, false⟩ 20 ['E', '\xc3', '\x83', '\n']
    (atStart ['E', '\xc3', '\x83', '\n']) rfl (by decide) (atStart_reads _)
  have hdocs : (Except.map Prod.fst (parseheredoc.go noCallees 20 [⟨true, "EOF".toList, false⟩]
      (atStart ['E', '\xc3', '\x83', '\n']))) = .ok [⟨['E', '\xc3', '\x83', '\n'], [], false⟩] :=
    congrArg (Except.map Prod.fst) (hexact [])
  exact absurd hdocs (by decide +kernel)

end Bootsh
