import Bootsh.Input.File
import Bootsh.Lib.Run
import Bootsh.Lib.Tape

/-!
`pungetc` and `pushstring` against a tape that is backed up over and added to.
`lastc` is a faithful record of what was read only as long as no pushed string
ends: then `__pgetc` records the next character twice.
-/
namespace Bootsh
open Run

/-! ### The operations -/

inductive InputOp where
  | pgetc
  | pungetc
  | pushstring (s : Text) (ap : Option Text)
  | setinputfile (reads : List Text)
  | setinputstring (s : Text)
  | popfile
  deriving DecidableEq, Repr

/-- One operation, with the character it delivers. -/
def inputStep (st : Input) : InputOp → Option Chr × Input
  | .pgetc => (some (pgetc st).1, (pgetc st).2)
  | .pungetc => (none, pungetc st)
  | .pushstring s ap => (none, pushstring s ap st)
  | .setinputfile reads => (none, setinputfile reads st)
  | .setinputstring s => (none, setinputstring s st)
  | .popfile => (none, popfile st)

/-- What one call of `read` has to deliver: nul characters are left out, and
nothing read is an end of file. -/
def readEvents (nr : Text) : List Chr :=
  if nr = [] then [none] else (nr.filter (· ≠ '\x00')).map some

def Source.events : Source → List Chr
  | .string => []
  | .file reads => reads.flatMap readEvents

def newTape (s : List Chr) : Tape Chr := ⟨[], s.map (·, false)⟩

/-- The same operation on a stack of tapes, one for each file. -/
def tapeStep (ts : Tape Chr × List (Tape Chr)) : InputOp → Option Chr × Tape Chr × List (Tape Chr)
  | .pgetc => (some (ts.1.read none).1, (ts.1.read none).2, ts.2)
  | .pungetc => (none, ts.1.unread, ts.2)
  | .pushstring s _ => (none, ts.1.insert (s.map some), ts.2)
  | .setinputfile reads => (none, newTape (Source.file reads).events, ts.1 :: ts.2)
  | .setinputstring s => (none, newTape (s.map some), ts.1 :: ts.2)
  | .popfile => (none, match ts.2 with
    | [] => ts
    | t :: ts => (t, ts))

/-! ### The entries of `lastc` that can be trusted -/

/-- How many entries of `lastc` are the last characters delivered, for the file
being read and for the files below it. -/
abbrev Known := ℕ × List ℕ

/-- The next character is read after the end of a pushed string. -/
def ParseFile.atStringEnd (pf : ParseFile) : Bool :=
  pf.unget == 0 && pf.nextc.after.isEmpty && !pf.strpush.isEmpty

def knownStep (st : Input) (known : Known) : InputOp → Known
  | .pgetc =>
    if st.parsefile.unget ≠ 0 then known
    else if st.parsefile.atStringEnd then (1, known.2)
    else (min 2 (known.1 + 1), known.2)
  | .pungetc => known
  | .pushstring _ _ => if st.parsefile.unget = 0 then known else (0, known.2)
  | .setinputfile _ | .setinputstring _ => (0, known.1 :: known.2)
  | .popfile => match known.2 with
    | [] => known
    | k :: ks => (k, ks)

def watchedStep (w : Input × Known) (op : InputOp) : Option Chr × Input × Known :=
  ((inputStep w.1 op).1, (inputStep w.1 op).2, knownStep w.1 w.2 op)

/-- A character is put back only if `lastc` still has it, and no string is pushed
over two characters put back. -/
def Recorded (w : Input × Known) : InputOp → Prop
  | .pungetc => w.1.parsefile.unget < w.2.1
  | .pushstring _ _ => w.1.parsefile.unget ≤ 1
  | _ => True

/-! ### What is still to be read -/

instance (w : Input × Known) (op : InputOp) : Decidable (Recorded w op) := by
  cases op <;> unfold Recorded <;> infer_instance

/-- What `unget` calls of `pungetc` have put back. -/
def ungot (lastc : Chr × Chr) : ℕ → List Chr
  | 0 => []
  | unget + 1 => lastcAt lastc unget :: ungot lastc unget

/-- The input up to the end of one string or buffer. -/
def ahead (lastc : Chr × Chr) (unget : ℕ) (nextc : Cursor) : List (Chr × Bool) :=
  (ungot lastc unget).map (·, true) ++ nextc.after.map (some ·, false)

def StrPush.ahead (sp : StrPush) : List (Chr × Bool) := Bootsh.ahead sp.lastc sp.unget sp.prevstring

def ParseFile.remaining (pf : ParseFile) : List (Chr × Bool) :=
  ahead pf.lastc pf.unget pf.nextc ++ pf.strpush.flatMap StrPush.ahead ++
    pf.src.events.map (·, false)

/-- `readNonNul` reads what is next, if there is anything. -/
theorem readNonNul_cases (reads : List Text) :
    (readNonNul reads = ([], []) ∧ (Source.file reads).events = []) ∨
    (∃ reads', readNonNul reads = ([], reads') ∧
      (Source.file reads).events = none :: (Source.file reads').events) ∨
    ∃ c buf reads', readNonNul reads = (c :: buf, reads') ∧
      (Source.file reads).events = some c :: (buf.map some ++ (Source.file reads').events) := by
  induction reads with
  | nil => exact .inl ⟨rfl, rfl⟩
  | cons nr reads ih =>
    have hevents : (Source.file (nr :: reads)).events =
        readEvents nr ++ (Source.file reads).events := List.flatMap_cons
    by_cases hnr : nr = []
    · refine .inr (.inl ⟨reads, by simp [readNonNul, hnr], ?_⟩)
      rw [hevents, readEvents, if_pos hnr, List.singleton_append]
    · cases hbuf : nr.filter (· ≠ '\x00') with
      | nil =>
        rw [hevents, readEvents, if_neg hnr, hbuf, readNonNul, if_neg hnr, hbuf]
        exact ih
      | cons c buf =>
        rw [hevents, readEvents, if_neg hnr, hbuf, readNonNul, if_neg hnr, hbuf]
        exact .inr (.inr ⟨c, buf, reads, rfl, rfl⟩)

/-! ### The cases of `__pgetc` -/

section
variable {st : Input} (strpush : List StrPush)

theorem pgetcRaw_unget (h : st.parsefile.unget ≠ 0) : pgetcRaw strpush st =
    (lastcAt st.parsefile.lastc (st.parsefile.unget - 1), { st with
      parsefile := { st.parsefile with unget := st.parsefile.unget - 1 } }) := by
  unfold pgetcRaw
  simp only [ne_eq, h, not_false_eq_true, if_true]

theorem pgetcRaw_char (h : st.parsefile.unget = 0) {c : Char} {after : Text}
    (hc : st.parsefile.nextc.after = c :: after) : pgetcRaw strpush st =
    shiftLastc (some c, { st with
      parsefile := { st.parsefile with nextc := ⟨c :: st.parsefile.nextc.before, after⟩ } }) := by
  unfold pgetcRaw
  simp only [ne_eq, h, not_true_eq_false, if_false, hc]

theorem pgetcRaw_refill (h : st.parsefile.unget = 0) (hc : st.parsefile.nextc.after = []) :
    pgetcRaw [] st = shiftLastc (refill st) := by
  unfold pgetcRaw
  simp only [ne_eq, h, not_true_eq_false, if_false, hc]

theorem pgetcRaw_pop (sp : StrPush) (h : st.parsefile.unget = 0)
    (hc : st.parsefile.nextc.after = []) :
    pgetcRaw (sp :: strpush) st = shiftLastc (pgetcRaw strpush (popstring sp strpush st)) := by
  rw [pgetcRaw]
  simp only [ne_eq, h, not_true_eq_false, if_false, hc]

end

/-- `r` is the next character of `pf` and the input after it. -/
structure Delivers (pf : ParseFile) (r : Chr × Input) : Prop where
  read : ∀ hist, Tape.read none ⟨hist, pf.remaining⟩ =
    (r.1, ⟨r.1 :: hist, r.2.parsefile.remaining⟩)
  unget : r.2.parsefile.unget = 0
  lastc : r.2.parsefile.lastc.1 = r.1
  strpush : r.2.parsefile.strpush <:+ pf.strpush

theorem remaining_of_unget {pf : ParseFile} (h : pf.unget = 0) (lastc : Chr × Chr) :
    ParseFile.remaining { pf with lastc } = pf.remaining := by
  simp [ParseFile.remaining, ahead, h, ungot]

theorem Delivers.shiftLastc {pf : ParseFile} {r : Chr × Input}
    (hread : ∀ hist, Tape.read none ⟨hist, pf.remaining⟩ =
      (r.1, ⟨r.1 :: hist, r.2.parsefile.remaining⟩))
    (hunget : r.2.parsefile.unget = 0) (hstr : r.2.parsefile.strpush <:+ pf.strpush) :
    Delivers pf (shiftLastc r) where
  read hist := by
    rw [hread]
    exact congrArg (fun input => (r.1, (⟨r.1 :: hist, input⟩ : Tape Chr)))
      (remaining_of_unget hunget _).symm
  unget := hunget
  lastc := rfl
  strpush := hstr

theorem refill_delivers {st : Input} (hunget : st.parsefile.unget = 0)
    (hafter : st.parsefile.nextc.after = []) (hstr : st.parsefile.strpush = []) :
    Delivers st.parsefile (Bootsh.shiftLastc (refill st)) := by
  have hrem : st.parsefile.remaining = st.parsefile.src.events.map (·, false) := by
    simp [ParseFile.remaining, ahead, hunget, ungot, hafter, hstr]
  have hnew (src : Source) (nextc : Cursor) :
      ParseFile.remaining { st.parsefile with src, nextc } =
        nextc.after.map (some ·, false) ++ src.events.map (·, false) := by
    simp [ParseFile.remaining, ahead, hunget, ungot, hstr]
  cases hsrc : st.parsefile.src with
  | string =>
    have hr : refill st = (none, st) := by simp only [refill, hsrc]
    rw [hr]
    refine Delivers.shiftLastc (fun hist => ?_) hunget (List.suffix_refl _)
    rw [hrem, hsrc]
    rfl
  | file reads =>
    rcases readNonNul_cases reads with ⟨hr, hev⟩ | ⟨reads', hr, hev⟩ | ⟨c, buf, reads', hr, hev⟩
    · have hr : refill st = (none, { st with
          parsefile := { st.parsefile with src := .file [], nextc := ⟨[], []⟩ } }) := by
        simp only [refill, hsrc, hr]
      rw [hr]
      refine Delivers.shiftLastc (fun hist => ?_) hunget (List.suffix_refl _)
      rw [hrem, hsrc, hev, hnew]
      rfl
    · have hr : refill st = (none, { st with
          parsefile := { st.parsefile with src := .file reads', nextc := ⟨[], []⟩ } }) := by
        simp only [refill, hsrc, hr]
      rw [hr]
      refine Delivers.shiftLastc (fun hist => ?_) hunget (List.suffix_refl _)
      rw [hrem, hsrc, hev, hnew]
      rfl
    · have hr : refill st = (some c, { st with
          parsefile := { st.parsefile with src := .file reads', nextc := ⟨[c], buf⟩ }
          out2 := if st.vflag then st.out2 ++ c :: buf else st.out2 }) := by
        simp only [refill, hsrc, hr]
      rw [hr]
      refine Delivers.shiftLastc (fun hist => ?_) hunget (List.suffix_refl _)
      rw [hrem, hsrc, hev, hnew]
      simp [Tape.read]

theorem unget_delivers {st : Input} (strpush : List StrPush) (h : st.parsefile.unget = 1) :
    Delivers st.parsefile (pgetcRaw strpush st) := by
  rw [pgetcRaw_unget strpush (by omega)]
  exact ⟨fun hist => by simp [Tape.read, ParseFile.remaining, ahead, h, ungot],
    by simp [h], by simp [h, lastcAt], List.suffix_refl _⟩

theorem char_delivers {st : Input} (strpush : List StrPush) (h : st.parsefile.unget = 0)
    {c : Char} {after : Text} (hc : st.parsefile.nextc.after = c :: after) :
    Delivers st.parsefile (pgetcRaw strpush st) := by
  rw [pgetcRaw_char strpush h hc]
  refine Delivers.shiftLastc (fun hist => ?_) h (List.suffix_refl _)
  simp [Tape.read, ParseFile.remaining, ahead, h, ungot, hc]

/-- Reading across the ends of pushed strings: at most one character is put back
at each of them. -/
theorem pgetcRaw_delivers (strpush : List StrPush) (st : Input)
    (hstr : st.parsefile.strpush = strpush) (hunget : st.parsefile.unget ≤ 1)
    (hle : ∀ sp ∈ strpush, sp.unget ≤ 1) : Delivers st.parsefile (pgetcRaw strpush st) := by
  induction strpush generalizing st with
  | nil =>
    by_cases hu : st.parsefile.unget = 0
    · cases hc : st.parsefile.nextc.after with
      | nil =>
        rw [pgetcRaw_refill hu hc]
        exact refill_delivers hu hc hstr
      | cons c after => exact char_delivers _ hu hc
    · exact unget_delivers _ (by omega)
  | cons sp strpush ih =>
    by_cases hu : st.parsefile.unget = 0
    · cases hc : st.parsefile.nextc.after with
      | nil =>
        have h := ih (popstring sp strpush st) rfl (hle sp (by simp)) fun sp hsp => hle sp (by simp [hsp])
        have hrem : (popstring sp strpush st).parsefile.remaining = st.parsefile.remaining := by
          simp [ParseFile.remaining, popstring, ahead, hu, ungot, hc, hstr, StrPush.ahead]
        rw [pgetcRaw_pop strpush sp hu hc]
        refine Delivers.shiftLastc (fun hist => hrem ▸ h.read hist) h.unget ?_
        rw [hstr]
        exact h.strpush.trans (List.suffix_cons _ _)
      | cons c after => exact char_delivers _ hu hc
    · exact unget_delivers _ (by omega)

theorem refill_lastc (st : Input) :
    (refill st).2.parsefile.lastc = st.parsefile.lastc ∧ (refill st).2.prev = st.prev := by
  unfold refill
  dsimp only
  split
  · exact ⟨rfl, rfl⟩
  · split <;> exact ⟨rfl, rfl⟩

/-- Away from the end of a string, the character read is added to `lastc`. -/
theorem pgetcRaw_lastc {st : Input} (hu : st.parsefile.unget = 0)
    (hend : st.parsefile.atStringEnd = false) :
    (pgetcRaw st.parsefile.strpush st).2.parsefile.lastc =
      ((pgetcRaw st.parsefile.strpush st).1, st.parsefile.lastc.1) := by
  cases hc : st.parsefile.nextc.after with
  | nil =>
    have hstr : st.parsefile.strpush = [] := by
      simpa [ParseFile.atStringEnd, hu, hc] using hend
    rw [hstr, pgetcRaw_refill hu hc]
    exact congrArg (fun lastc : Chr × Chr => ((refill st).1, lastc.1)) (refill_lastc st).1
  | cons c after =>
    rw [pgetcRaw_char _ hu hc]
    rfl

theorem pgetcRaw_prev (strpush : List StrPush) (st : Input) :
    (pgetcRaw strpush st).2.prev = st.prev := by
  induction strpush generalizing st with
  | nil =>
    unfold pgetcRaw
    dsimp only
    split_ifs
    · rfl
    · split
      · rfl
      · exact (refill_lastc st).2
  | cons sp strpush ih =>
    unfold pgetcRaw
    dsimp only
    split_ifs
    · rfl
    · split
      · rfl
      · exact ih (popstring sp strpush st)

/-! ### The relation to the tapes -/

/-- The first `known` entries of `lastc`, less those put back, are the last
characters read from the tape. -/
structure FileRelated (pf : ParseFile) (known : ℕ) (t : Tape Chr) : Prop where
  known_le : known ≤ 2
  unget_le : pf.unget ≤ known
  strpush : ∀ sp ∈ pf.strpush, sp.unget ≤ 1
  input : t.input = pf.remaining
  hist : (([pf.lastc.1, pf.lastc.2].take known).drop pf.unget) <+: t.hist

/-- File by file. -/
def FilesRelated : List ParseFile → List ℕ → List (Tape Chr) → Prop
  | [], [], [] => True
  | pf :: pfs, k :: ks, t :: ts => FileRelated pf k t ∧ FilesRelated pfs ks ts
  | _, _, _ => False

structure Related (w : Input × Known) (ts : Tape Chr × List (Tape Chr)) : Prop where
  current : FileRelated w.1.parsefile w.2.1 ts.1
  below : FilesRelated w.1.prev w.2.2 ts.2

/-- `pgetc` frees the strings that have ended, and reads. -/
theorem pgetc_eq (st : Input) : ∃ st' : Input, Bootsh.pgetc st = pgetcRaw st'.parsefile.strpush st' ∧
    st'.parsefile = { st.parsefile with spfree := [] } ∧ st'.prev = st.prev := by
  unfold Bootsh.pgetc
  split_ifs with h
  · exact ⟨st, rfl, by rw [← h], rfl⟩
  · exact ⟨freestrings st, rfl, rfl, rfl⟩

theorem FileRelated.redeliver {pf : ParseFile} {known : ℕ} {t : Tape Chr}
    (h : FileRelated pf known t) (hu : pf.unget ≠ 0) :
    lastcAt pf.lastc (pf.unget - 1) = (t.read none).1 ∧
      FileRelated { pf with unget := pf.unget - 1 } known (t.read none).2 := by
  obtain ⟨hist, input⟩ := t
  obtain ⟨n, hn⟩ := Nat.exists_eq_succ_of_ne_zero hu
  have hinput : input = (lastcAt pf.lastc n, true) ::
      ParseFile.remaining { pf with unget := n } := by
    simpa [ParseFile.remaining, ahead, hn, ungot] using h.input
  subst hinput
  have hn1 : pf.unget - 1 = n := by omega
  have hle := h.unget_le
  have hknown := h.known_le
  rw [hn1]
  refine ⟨rfl, ⟨hknown, by simp only; omega, h.strpush, rfl, ?_⟩⟩
  have hh := h.hist
  rw [hn] at hh
  obtain ⟨rfl, hk⟩ | ⟨rfl, rfl⟩ : (n = 0 ∧ 1 ≤ known) ∨ (n = 1 ∧ known = 2) := by omega
  · obtain rfl | rfl : known = 1 ∨ known = 2 := by omega
    · simp [Tape.read, lastcAt]
    · simpa [Tape.read, lastcAt] using hh
  · simp [Tape.read, lastcAt]

theorem FileRelated.pgetc {st : Input} {known : ℕ} {t : Tape Chr}
    (h : FileRelated st.parsefile known t) (ks : List ℕ) :
    (Bootsh.pgetc st).1 = (t.read none).1 ∧
      FileRelated (Bootsh.pgetc st).2.parsefile (knownStep st (known, ks) .pgetc).1
        (t.read none).2 := by
  obtain ⟨st', heq, hpf, -⟩ := pgetc_eq st
  have h' : FileRelated st'.parsefile known t := by
    rw [hpf]
    exact ⟨h.known_le, h.unget_le, h.strpush, h.input, h.hist⟩
  have hknown : knownStep st (known, ks) .pgetc = knownStep st' (known, ks) .pgetc := by
    simp only [knownStep, ParseFile.atStringEnd, hpf]
    rfl
  rw [heq, hknown]
  by_cases hu : st'.parsefile.unget = 0
  · have hd := pgetcRaw_delivers st'.parsefile.strpush st' rfl (by omega) h'.strpush
    have hread := hd.read t.hist
    rw [← h'.input] at hread
    change t.read none = _ at hread
    have hstr : ∀ sp ∈ (pgetcRaw st'.parsefile.strpush st').2.parsefile.strpush, sp.unget ≤ 1 :=
      fun sp hsp => h'.strpush sp (hd.strpush.subset hsp)
    rw [hread]
    refine ⟨rfl, ?_⟩
    simp only [knownStep, hu, ne_eq, not_true_eq_false, if_false]
    split_ifs with hend
    · refine ⟨by simp, by simp [hd.unget], hstr, rfl, ?_⟩
      simp [hd.unget, hd.lastc]
    · refine ⟨Nat.min_le_left _ _, by simp [hd.unget], hstr, rfl, ?_⟩
      have hh := h'.hist
      rw [hd.unget, pgetcRaw_lastc hu (by simpa using hend)]
      rw [hu] at hh
      have hle := h'.known_le
      obtain rfl | rfl | rfl : known = 0 ∨ known = 1 ∨ known = 2 := by omega
      · simp
      · simpa using hh
      · obtain ⟨r, hr⟩ := hh
        simp [← hr]
  · obtain ⟨hc, hr⟩ := h'.redeliver hu
    rw [pgetcRaw_unget _ hu]
    simp only [knownStep, hu, ne_eq, not_false_eq_true, if_true]
    exact ⟨hc, hr⟩

theorem FileRelated.pungetc {pf : ParseFile} {known : ℕ} {t : Tape Chr}
    (h : FileRelated pf known t) (hok : pf.unget < known) :
    FileRelated { pf with unget := pf.unget + 1 } known t.unread := by
  obtain ⟨hist, input⟩ := t
  have hinput : input = pf.remaining := h.input
  have hknown := h.known_le
  have hlen : pf.unget < ([pf.lastc.1, pf.lastc.2].take known).length := by
    rw [List.length_take, List.length_cons, List.length_singleton]
    omega
  have hlast : ([pf.lastc.1, pf.lastc.2].take known)[pf.unget] = lastcAt pf.lastc pf.unget := by
    obtain hu | hu : pf.unget = 0 ∨ pf.unget = 1 := by omega
    all_goals simp [hu, lastcAt]
  obtain ⟨r, hr⟩ := h.hist
  rw [List.drop_eq_getElem_cons hlen, hlast, List.cons_append] at hr
  subst hr hinput
  refine ⟨hknown, hok, h.strpush, ?_, ⟨r, rfl⟩⟩
  simp [Tape.unread, ParseFile.remaining, ahead, ungot]

theorem FileRelated.pushstring {st : Input} {known : ℕ} {t : Tape Chr}
    (h : FileRelated st.parsefile known t) (ks : List ℕ) (s : Text) (ap : Option Text)
    (hok : st.parsefile.unget ≤ 1) :
    FileRelated (Bootsh.pushstring s ap st).parsefile
      (knownStep st (known, ks) (.pushstring s ap)).1 (t.insert (s.map some)) := by
  have hinput : (t.insert (s.map some)).input = (Bootsh.pushstring s ap st).parsefile.remaining := by
    simp [Tape.insert, h.input, ParseFile.remaining, Bootsh.pushstring, ahead, ungot, StrPush.ahead]
  have hstr : ∀ sp ∈ (Bootsh.pushstring s ap st).parsefile.strpush, sp.unget ≤ 1 := by
    simp only [Bootsh.pushstring, List.mem_cons, forall_eq_or_imp]
    exact ⟨hok, h.strpush⟩
  unfold knownStep
  dsimp only
  split_ifs with hu
  · have hh := h.hist
    rw [hu] at hh
    exact ⟨h.known_le, Nat.zero_le _, hstr, hinput, hh⟩
  · exact ⟨Nat.zero_le _, Nat.zero_le _, hstr, hinput, List.nil_prefix⟩

theorem FileRelated.new (src : Source) (s : Text) :
    FileRelated ⟨1, src, ⟨[], s⟩, [], [], (none, none), 0⟩ 0 (newTape (s.map some ++ src.events)) :=
  ⟨Nat.zero_le _, le_rfl, by simp, by simp [newTape, ParseFile.remaining, ahead, ungot],
    List.nil_prefix⟩

theorem popfile_eq {st : Input} {pf : ParseFile} {prev : List ParseFile} (h : st.prev = pf :: prev) :
    (popfile st).parsefile = pf ∧ (popfile st).prev = prev := by
  unfold popfile
  rw [h]
  exact ⟨rfl, rfl⟩

/-- One operation on related inputs. -/
theorem Related.step {w : Input × Known} {ts : Tape Chr × List (Tape Chr)} {op : InputOp}
    (h : Related w ts) (hok : Recorded w op) :
    (watchedStep w op).1 = (tapeStep ts op).1 ∧
      Related (watchedStep w op).2 (tapeStep ts op).2 := by
  obtain ⟨st, known, ks⟩ := w
  obtain ⟨t, ts⟩ := ts
  have hbelow : FilesRelated st.prev ks ts := h.below
  cases op with
  | pgetc =>
    obtain ⟨hc, hcur⟩ := h.current.pgetc ks
    refine ⟨congrArg some hc, hcur, ?_⟩
    obtain ⟨st', heq, -, hprev⟩ := pgetc_eq st
    have hknown : (knownStep st (known, ks) .pgetc).2 = ks := by
      unfold knownStep
      dsimp only
      split_ifs <;> rfl
    have hst : (pgetc st).2.prev = st.prev := by rw [heq, pgetcRaw_prev, hprev]
    simpa only [watchedStep, inputStep, tapeStep, hknown, hst] using hbelow
  | pungetc => exact ⟨rfl, h.current.pungetc hok, h.below⟩
  | pushstring s ap =>
    refine ⟨rfl, h.current.pushstring ks s ap hok, ?_⟩
    have hknown : (knownStep st (known, ks) (.pushstring s ap)).2 = ks := by
      unfold knownStep
      dsimp only
      split_ifs <;> rfl
    simpa only [watchedStep, inputStep, tapeStep, hknown, pushstring] using hbelow
  | setinputfile reads => exact ⟨rfl, .new (.file reads) [], h.current, h.below⟩
  | setinputstring s =>
    have hnew := FileRelated.new .string s
    rw [Source.events, List.append_nil] at hnew
    exact ⟨rfl, hnew, h.current, h.below⟩
  | popfile =>
    cases hprev : st.prev with
    | nil =>
      rw [hprev] at hbelow
      cases ks with
      | nil =>
        cases ts with
        | nil =>
          have hst : popfile st = st := by rw [popfile, hprev]
          refine ⟨rfl, ?_⟩
          simp only [watchedStep, inputStep, hst, knownStep, tapeStep]
          exact h
        | cons => exact hbelow.elim
      | cons => cases ts <;> exact hbelow.elim
    | cons pf prev =>
      rw [hprev] at hbelow
      cases ks with
      | nil => cases ts <;> exact hbelow.elim
      | cons k ks =>
        cases ts with
        | nil => exact hbelow.elim
        | cons t' ts =>
          obtain ⟨hpf, hpr⟩ := popfile_eq hprev
          refine ⟨rfl, ?_, ?_⟩
          · change FileRelated (popfile st).parsefile k t'
            rw [hpf]
            exact hbelow.1
          · change FilesRelated (popfile st).prev ks ts
            rw [hpr]
            exact hbelow.2

/-! ### Runs -/

/-- One file is open, and nothing has been pushed or put back. -/
structure Input.Opened (st : Input) : Prop where
  prev : st.prev = []
  strpush : st.parsefile.strpush = []
  unget : st.parsefile.unget = 0

/-- What the file has to deliver. -/
def Input.tape (st : Input) : Tape Chr :=
  newTape (st.parsefile.nextc.after.map some ++ st.parsefile.src.events)

theorem Input.Opened.related {st : Input} (h : st.Opened) : Related (st, 0, []) (st.tape, []) := by
  refine ⟨⟨Nat.zero_le _, h.unget.le, by simp [h.strpush], ?_, by simp⟩, ?_⟩
  · simp [Input.tape, newTape, ParseFile.remaining, ahead, ungot, h.unget, h.strpush]
  · rw [h.prev]
    trivial

theorem run_watchedStep (w : Input × Known) (ops : List InputOp) :
    (run watchedStep w ops).1 = (run inputStep w.1 ops).1 := by
  induction ops generalizing w with
  | nil => rfl
  | cons op ops ih => rw [run, run, ih]; rfl

/-- The limit on `pungetc`: no more than two characters are put back, and only
characters that were delivered. A file that is left was opened before. -/
def WithinLimit (ts : Tape Chr × List (Tape Chr)) : InputOp → Prop
  | .pungetc => ts.1.hist ≠ [] ∧ ts.1.outstanding < 2
  | .popfile => ts.2 ≠ []
  | _ => True

instance (ts : Tape Chr × List (Tape Chr)) (op : InputOp) : Decidable (WithinLimit ts op) := by
  cases op <;> unfold WithinLimit <;> infer_instance

/-- In a run where every character put back is still in `lastc`, the characters
delivered are those of the tapes. -/
theorem inputStep_transparent {st : Input} (hst : st.Opened) {ops : List InputOp}
    (hops : Along watchedStep Recorded (st, 0, []) ops) :
    (run inputStep st ops).1 = (run tapeStep (st.tape, []) ops).1 := by
  rw [← (run_simulates (fun _ _ _ => Related.step) hst.related hops).1]
  exact (run_watchedStep (st, 0, []) ops).symm

/-- A file that begins with these characters. -/
def openFile (text : Text) : Input :=
  ⟨⟨1, .file [text], ⟨[], []⟩, [], [], (none, none), 0⟩, [], [], ⟨false, false, false, false⟩, false, []⟩

theorem inputStep_transparent_alias :
    (run inputStep (openFile [' ', 'x'])
      [.pushstring ['l', 's'] (some ['a']), .pgetc, .pgetc, .pungetc, .pungetc, .pgetc, .pgetc,
        .pgetc, .pungetc, .pgetc]).1 =
      (run tapeStep ((openFile [' ', 'x']).tape, [])
        [.pushstring ['l', 's'] (some ['a']), .pgetc, .pgetc, .pungetc, .pungetc, .pgetc, .pgetc,
          .pgetc, .pungetc, .pgetc]).1 :=
  inputStep_transparent ⟨rfl, rfl, rfl⟩ (by decide +kernel)

/-- After the end of an alias text, the second character put back is lost: the
backslash that ends the alias is read again as the blank after it. -/
theorem inputStep_not_transparent : ¬ ∀ (st : Input) (ops : List InputOp), st.Opened →
    Along tapeStep WithinLimit (st.tape, []) ops →
    (run inputStep st ops).1 = (run tapeStep (st.tape, []) ops).1 := by
  intro h
  have hlost := h (openFile [' ', 'x', '\n'])
    [.pushstring ['&', '\\'] (some ['a']), .pgetc, .pgetc, .pgetc, .pungetc, .pungetc, .pgetc, .pgetc]
    ⟨rfl, rfl, rfl⟩ (by decide)
  exact absurd hlost (by decide +kernel)

/-! ### Reading without putting back -/

/-- What is left to read is `s`, then ends of file. At most one character is put
back at each string. -/
structure Reads (st : Input) (s : List Chr) : Prop where
  unget : st.parsefile.unget ≤ 1
  strpush : ∀ sp ∈ st.parsefile.strpush, sp.unget ≤ 1
  remaining : st.parsefile.remaining.map Prod.fst = s

theorem Reads.unique {st : Input} {s t : List Chr} (hs : Reads st s) (ht : Reads st t) : s = t :=
  hs.remaining.symm.trans ht.remaining

theorem Reads.pgetc {st : Input} {s : List Chr} (h : Reads st s) :
    (Bootsh.pgetc st).1 = s.headD none ∧ Reads (Bootsh.pgetc st).2 s.tail := by
  obtain ⟨st', heq, hpf, -⟩ := pgetc_eq st
  have hunget : st'.parsefile.unget ≤ 1 := by simpa only [hpf] using h.unget
  have hstr : ∀ sp ∈ st'.parsefile.strpush, sp.unget ≤ 1 := by simpa only [hpf] using h.strpush
  have hrem : st'.parsefile.remaining.map Prod.fst = s := by
    rw [hpf]
    exact h.remaining
  have hd := pgetcRaw_delivers st'.parsefile.strpush st' rfl hunget hstr
  have hread := hd.read []
  rw [heq, ← hrem]
  cases hinput : st'.parsefile.remaining with
  | nil =>
    rw [hinput] at hread
    obtain ⟨hc, htape⟩ := Prod.mk.inj hread
    exact ⟨hc.symm, by rw [hd.unget]; exact Nat.zero_le _, fun sp hsp =>
      hstr sp (hd.strpush.subset hsp), congrArg (List.map Prod.fst) (Tape.mk.inj htape).2.symm⟩
  | cons a rest =>
    rw [hinput] at hread
    obtain ⟨hc, htape⟩ := Prod.mk.inj hread
    exact ⟨hc.symm, by rw [hd.unget]; exact Nat.zero_le _, fun sp hsp =>
      hstr sp (hd.strpush.subset hsp), congrArg (List.map Prod.fst) (Tape.mk.inj htape).2.symm⟩

theorem Reads.pushstring {st : Input} {s : List Chr} (h : Reads st s) (t : Text)
    (ap : Option Text) : Reads (Bootsh.pushstring t ap st) (t.map some ++ s) := by
  refine ⟨Nat.zero_le _, ?_, ?_⟩
  · simp only [Bootsh.pushstring, List.mem_cons, forall_eq_or_imp]
    exact ⟨h.unget, h.strpush⟩
  · rw [← h.remaining]
    simp [ParseFile.remaining, Bootsh.pushstring, ahead, ungot, StrPush.ahead]

end Bootsh
