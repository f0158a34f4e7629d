import Bootsh.Samu.BuildLogRead
import Mathlib.Data.List.Induction

/-!
What is logged over any number of runs, each of which may be cut off, is what the next one finds.
-/
namespace Bootsh.Samu.BuildLog

variable {outs : List Text} {content : Option Text} {hist cs : List Call} {n s : Text} {t : Table}

/-! ### The last record -/

/-- The record of an output that was written last. -/
def lastRecord (cs : List Call) (n : Text) : Option NodeLog :=
  (cs.filter (·.out = n)).getLast?.map Call.log

theorem lastRecord_append (cs cs' : List Call) (n : Text) :
    lastRecord (cs ++ cs') n = (lastRecord cs' n).or (lastRecord cs n) := by
  rw [lastRecord, List.filter_append, List.getLast?_append, Option.map_or]
  rfl

theorem lastRecord_singleton (c : Call) (n : Text) :
    lastRecord [c] n = if c.out = n then some c.log else none := by
  by_cases h : c.out = n <;> simp [lastRecord, h]

theorem lastRecord_mem {l : NodeLog} (h : lastRecord cs n = some l) : ⟨n, l⟩ ∈ cs := by
  obtain ⟨c, hc, rfl⟩ := Option.map_eq_some_iff.mp h
  obtain ⟨hmem, hout⟩ := List.mem_filter.mp (List.mem_of_getLast? hc)
  rw [← of_decide_eq_true hout]
  exact hmem

/-- The records of an output that all agree. -/
theorem lastRecord_of_mem {l : NodeLog} (hmem : ⟨n, l⟩ ∈ cs) (h : ∀ c ∈ cs, c.out = n → c.log = l) :
    lastRecord cs n = some l := by
  cases hlast : lastRecord cs n with
  | none =>
    rw [lastRecord, Option.map_eq_none_iff, List.getLast?_eq_none_iff, List.filter_eq_nil_iff] at hlast
    exact absurd (decide_eq_true rfl) (hlast _ hmem)
  | some l' =>
    have heq : l' = l := h _ (lastRecord_mem hlast) rfl
    rw [heq]

theorem replayed_node (cs : List Call) (t : Table) (n : Text) :
    (replayed cs t).node n = (lastRecord cs n).getD (t.node n) := by
  induction cs generalizing t with
  | nil => rfl
  | cons c cs ih =>
    rw [← List.singleton_append, lastRecord_append, lastRecord_singleton]
    show (replayed cs _).node n = _
    rw [ih]
    cases hlast : lastRecord cs n with
    | some l => rfl
    | none =>
      show Function.update t.node c.out c.log n = _
      by_cases h : c.out = n
      · subst h
        simp
      · rw [Function.update_of_ne (Ne.symm h), if_neg h]
        rfl

theorem le_replayed_nentry (cs : List Call) (t : Table) : t.nentry ≤ (replayed cs t).nentry := by
  induction cs generalizing t with
  | nil => exact le_rfl
  | cons c cs ih =>
    refine le_trans ?_ (ih _)
    show t.nentry ≤ if (t.node c.out).logmtime = MTIME_MISSING then t.nentry + 1 else t.nentry
    split <;> omega

/-- A record is counted. -/
theorem replayed_nentry (h : cs ≠ []) : 0 < (replayed cs newTable).nentry := by
  cases cs with
  | nil => exact absurd rfl h
  | cons c cs =>
    have hfirst : (Table.record c.out c.log { newTable with nline := 1 }).nentry = 1 := rfl
    have hle := le_replayed_nentry cs (Table.record c.out c.log { newTable with nline := 1 })
    rw [hfirst] at hle
    exact hle

/-! ### What is written -/

theorem records_append (cs cs' : List Call) : records (cs ++ cs') = records cs ++ records cs' :=
  List.flatMap_append

theorem records_cons (c : Call) (cs : List Call) : records (c :: cs) = c.record ++ records cs :=
  List.flatMap_cons

theorem record_ne_nil (c : Call) : c.record ≠ [] := by
  intro h
  cases h

theorem length_le_records (cs : List Call) : cs.length ≤ (records cs).length := by
  induction cs with
  | nil => exact le_rfl
  | cons c cs ih =>
    have hpos := List.length_pos_iff.mpr (record_ne_nil c)
    rw [records_cons, List.length_append, List.length_cons]
    omega

/-- The calls whose records are whole in the given number of characters. -/
def completed : List Call → ℕ → List Call
  | [], _ => []
  | c :: cs, k => if c.record.length ≤ k then c :: completed cs (k - c.record.length) else []

theorem completed_mem {k : ℕ} {c : Call} (h : c ∈ completed cs k) : c ∈ cs := by
  induction cs generalizing k with
  | nil => exact h
  | cons c' cs ih =>
    rw [completed] at h
    split at h
    case isTrue =>
      rcases List.mem_cons.mp h with rfl | h
      · exact List.mem_cons_self
      · exact List.mem_cons_of_mem _ (ih h)
    case isFalse => cases h

/-- A part of a record that is not the whole. -/
def Piece (outs : List Text) (s : Text) : Prop :=
  s = [] ∨ ∃ c : Call, c.out ∈ outs ∧ s <+: c.record ∧ s ≠ c.record

theorem take_records (hcs : ∀ c ∈ cs, c.out ∈ outs) (k : ℕ) :
    ∃ s, Piece outs s ∧ (records cs).take k = records (completed cs k) ++ s := by
  induction cs generalizing k with
  | nil => exact ⟨[], .inl rfl, List.take_nil⟩
  | cons c cs ih =>
    rw [records_cons, completed, List.take_append]
    split
    case isTrue h =>
      obtain ⟨s, hs, htake⟩ := ih (fun c hc => hcs c (List.mem_cons_of_mem _ hc))
        (k - c.record.length)
      refine ⟨s, hs, ?_⟩
      rw [List.take_of_length_le h, htake, records_cons, List.append_assoc]
    case isFalse h =>
      refine ⟨c.record.take k, .inr ⟨c, hcs c List.mem_cons_self, List.take_prefix k _, ?_⟩, ?_⟩
      · intro heq
        have hlen := congrArg List.length heq
        rw [List.length_take] at hlen
        omega
      · rw [Nat.sub_eq_zero_of_le (by omega), List.take_zero, List.append_nil]
        rfl

theorem Piece.unbroken (hout : ∀ n ∈ outs, Clean n) (h : Piece outs s) : Unbroken s := by
  rcases h with rfl | ⟨c, hc, hpre, hne⟩
  · simp [Unbroken]
  · obtain ⟨line, hline, hrecord⟩ := logrecord_line (hout _ hc) c.log
    rw [Call.record, hrecord] at hpre hne
    rcases List.prefix_concat_iff.mp hpre with heq | hpre
    · exact absurd heq hne
    · exact fun c hc => hline c (hpre.subset hc)

/-- The text does not start with white space. -/
def Starts (s : Text) : Prop := s = [] ∨ ∃ s', s = '0' :: s'

theorem Starts.append {s' : Text} (h : Starts s) (h' : Starts s') : Starts (s ++ s') := by
  rcases h with rfl | ⟨u, rfl⟩
  · exact h'
  · exact .inr ⟨u ++ s', rfl⟩

theorem starts_of_record {c : Call} (h : s <+: c.record) : Starts s := by
  cases s with
  | nil => exact .inl rfl
  | cons a s =>
    have hrecord : a :: s <+: '0' :: c.record.tail := h
    rw [(List.cons_prefix_cons.mp hrecord).1]
    exact .inr ⟨s, rfl⟩

theorem Piece.starts (h : Piece outs s) : Starts s := by
  rcases h with rfl | ⟨c, -, hpre, -⟩
  · exact .inl rfl
  · exact starts_of_record hpre

theorem records_starts (cs : List Call) : Starts (records cs) := by
  induction cs with
  | nil => exact .inl rfl
  | cons c cs ih =>
    rw [records_cons]
    exact (starts_of_record (List.prefix_refl _)).append ih

theorem scanHeader_logheader (h : Starts s) : scanHeader (logheader ++ s) = some (logver, s) := by
  rcases h with rfl | ⟨s, rfl⟩
  · rfl
  · rfl

/-- What is behind the last newline. -/
def lastPiece (s : Text) : Text := (s.reverse.takeWhile (· ≠ '\n')).reverse

theorem lastPiece_append (x : Text) (h : Unbroken s) : lastPiece (x ++ '\n' :: s) = s := by
  have hs : Unbroken s.reverse := fun c hc => h c (List.mem_reverse.mp hc)
  rw [lastPiece, List.reverse_append, List.reverse_cons, List.append_assoc, List.singleton_append,
    hs.takeWhile, List.reverse_reverse]

theorem lastPiece_log (hout : ∀ n ∈ outs, Clean n) (hcs : ∀ c ∈ cs, c.out ∈ outs)
    (hs : Unbroken s) : lastPiece (logheader ++ (records cs ++ s)) = s := by
  cases cs using List.reverseRecOn with
  | nil => exact lastPiece_append "# ninja log v5".toList hs
  | append_singleton cs c =>
    obtain ⟨line, -, hrecord⟩ := logrecord_line (hout _ (hcs c (by simp))) c.log
    have heq : logheader ++ (records (cs ++ [c]) ++ s) =
        (logheader ++ (records cs ++ line)) ++ '\n' :: s := by
      rw [records_append, records_cons, Call.record, hrecord]
      show _ ++ ((_ ++ ((_ ++ ['\n']) ++ [])) ++ s) = _
      simp only [List.append_assoc, List.append_nil, List.singleton_append]
    rw [heq, lastPiece_append _ hs]

/-! ### Runs -/

/-- A run: what it logs, and how many characters of that it writes, or `none` when it is cut off
before the file is the one that `loginit` leaves. -/
structure Run where
  calls : List Call
  cut : Option ℕ

namespace Run

/-- The file after the run. -/
def file (outs : List Text) (r : Run) (content : Option Text) : Option Text :=
  match r.cut with
  | none => content
  | some k => (loginit outs content).2.map (· ++ (records r.calls).take k)

/-- The records that it writes completely. -/
def completed (r : Run) : List Call :=
  match r.cut with
  | none => []
  | some k => BuildLog.completed r.calls k

/-- Whether the run writes nothing behind what `loginit` leaves. -/
def Silent (r : Run) : Prop := ∀ k, r.cut = some k → (records r.calls).take k = []

end Run

/-- `loginit` does not write the log anew. -/
def Kept (outs : List Text) (content : Option Text) : Prop := (scanlog outs content).2 = true

/-- The piece of a line at the end does not have the path of an output in it. -/
def Unread (outs : List Text) (content : Option Text) : Prop :=
  ∀ n ∈ outs, pathOf (lastPiece (content.getD [])) ≠ some n

instance (outs : List Text) (content : Option Text) : Decidable (Unread outs content) :=
  inferInstanceAs (Decidable (∀ n ∈ outs, _))

/-- A run over a file with the given records: a piece of a line that is left has no output in it
and nothing is written behind it, and no hash that is recorded is 0 when the log is written
anew. -/
structure Run.Allowed (outs : List Text) (content : Option Text) (hist : List Call) (r : Run) :
    Prop where
  calls : ∀ c ∈ r.calls, c.out ∈ outs
  unread : Unread outs content
  silent : Kept outs content → lastPiece (content.getD []) ≠ [] → r.Silent
  hashes : ¬ Kept outs content → ∀ n mtime, lastRecord hist n ≠ some ⟨mtime, 0⟩

/-- The file and the records that were written completely after some runs. -/
inductive Reaches (outs : List Text) : Option Text → List Call → Prop
  | start : Reaches outs none []
  | run {content : Option Text} {hist : List Call} {r : Run} (h : Reaches outs content hist)
      (hr : r.Allowed outs content hist) : Reaches outs (r.file outs content) (hist ++ r.completed)

/-- A file of records with the last ones of those in `hist`, and maybe a piece of one at the end. -/
inductive Holds (outs : List Text) (hist : List Call) : Option Text → Prop
  | missing (h : hist = []) : Holds outs hist none
  | log {cs : List Call} {s : Text} (hcs : ∀ c ∈ cs, c.out ∈ outs) (hs : Piece outs s)
      (hlast : ∀ n, lastRecord cs n = lastRecord hist n) :
      Holds outs hist (some (logheader ++ (records cs ++ s)))

theorem scanlog_records (hout : ∀ n ∈ outs, Clean n) (hcs : ∀ c ∈ cs, c.out ∈ outs)
    (hs : Piece outs s) (hunread : Unread outs (some (logheader ++ (records cs ++ s)))) :
    ∃ k, scanlog outs (some (logheader ++ (records cs ++ s))) =
      ({ replayed cs newTable with nline := k },
        decide { replayed cs newTable with nline := k }.small) := by
  have hunbroken := hs.unbroken hout
  rw [Unread, Option.getD_some, lastPiece_log hout hcs hunbroken] at hunread
  have hlen : cs.length < (records cs ++ s).length + 1 := by
    have h := length_le_records cs
    rw [List.length_append]
    omega
  obtain ⟨k, hk⟩ := readlog_records newTable
    (fun c hc => ⟨hout _ (hcs c hc), hcs c hc⟩) hunbroken hunread (.inl (rfl : 0 = 0)) hlen
  refine ⟨k, ?_⟩
  rw [scanlog, Option.bind_some, scanHeader_logheader ((records_starts cs).append hs.starts)]
  dsimp only
  rw [if_neg (not_not_intro rfl), loadlog, hk]

theorem loginit_node (hout : ∀ n ∈ outs, Clean n) (h : Holds outs hist content)
    (hunread : Unread outs content) (n : Text) :
    (loginit outs content).1 n = (lastRecord hist n).getD noLog := by
  cases h with
  | missing h =>
    rw [h]
    rfl
  | log hcs hs hlast =>
    obtain ⟨k, hk⟩ := scanlog_records hout hcs hs hunread
    rw [loginit, hk]
    show (replayed _ newTable).node n = _
    rw [replayed_node, hlast]
    rfl

/-- What `rewrite` prints. -/
def rewritten (outs : List Text) (node : Text → NodeLog) : List Call :=
  (outs.filter fun n => (node n).hash ≠ 0).map fun n => ⟨n, node n⟩

theorem records_rewritten (outs : List Text) (node : Text → NodeLog) :
    records (rewritten outs node) =
      outs.flatMap fun n => if (node n).hash = 0 then [] else logrecord n (node n) := by
  induction outs with
  | nil => rfl
  | cons n outs ih =>
    rw [List.flatMap_cons, ← ih]
    by_cases h : (node n).hash = 0
    · rw [if_pos h, rewritten, List.filter_cons_of_neg (by simp [h])]
      rfl
    · rw [if_neg h, rewritten, List.filter_cons_of_pos
        (p := fun n => decide ((node n).hash ≠ 0)) (decide_eq_true h)]
      rfl

theorem lastRecord_rewritten (hcs : ∀ c ∈ cs, c.out ∈ outs) {node : Text → NodeLog}
    (hnode : ∀ n, node n = (lastRecord cs n).getD noLog)
    (hhash : ∀ n mtime, lastRecord cs n ≠ some ⟨mtime, 0⟩) (n : Text) :
    lastRecord (rewritten outs node) n = lastRecord cs n := by
  have hagree : ∀ c ∈ rewritten outs node, c.out = n → c.log = node n := by
    intro c hc hout
    obtain ⟨m, -, rfl⟩ := List.mem_map.mp hc
    exact congrArg node hout
  cases hlast : lastRecord cs n with
  | none =>
    have hzero : (node n).hash = 0 := by
      rw [hnode, hlast]
      rfl
    rw [lastRecord, Option.map_eq_none_iff, List.getLast?_eq_none_iff, List.filter_eq_nil_iff]
    intro c hc hout
    obtain ⟨m, hm, rfl⟩ := List.mem_map.mp hc
    have hm' := of_decide_eq_true (List.mem_filter.mp hm).2
    have heq : m = n := of_decide_eq_true hout
    exact hm' (heq ▸ hzero)
  | some l =>
    have hl : node n = l := by
      rw [hnode, hlast]
      rfl
    have hne : (node n).hash ≠ 0 := by
      rw [hl]
      intro hzero
      exact hhash n l.logmtime (by rw [hlast, ← hzero])
    rw [← hl]
    apply lastRecord_of_mem _ hagree
    exact List.mem_map.mpr ⟨n, List.mem_filter.mpr
      ⟨hcs _ (lastRecord_mem hlast), decide_eq_true hne⟩, rfl⟩

theorem Piece.eq_nil_of_take {k : ℕ} {calls : List Call}
    (h : (records calls).take k = records (completed calls k) ++ s)
    (hnil : (records calls).take k = []) : completed calls k = [] := by
  rw [hnil] at h
  have hrecords := (List.append_eq_nil_iff.mp h.symm).1
  have hle := length_le_records (completed calls k)
  rw [hrecords, List.length_nil] at hle
  exact List.length_eq_zero_iff.mp (Nat.le_zero.mp hle)

theorem Holds.run {r : Run} (hout : ∀ n ∈ outs, Clean n) (h : Holds outs hist content)
    (hr : r.Allowed outs content hist) :
    Holds outs (hist ++ r.completed) (r.file outs content) := by
  obtain ⟨calls, cut⟩ := r
  cases cut with
  | none =>
    show Holds outs (hist ++ []) content
    rw [List.append_nil]
    exact h
  | some k =>
    obtain ⟨piece, hpiece, htake⟩ := take_records hr.calls k
    have hcompleted : ∀ c ∈ completed calls k, c.out ∈ outs := fun c hc =>
      hr.calls c (completed_mem hc)
    show Holds outs (hist ++ completed calls k)
      ((loginit outs content).2.map (· ++ (records calls).take k))
    cases h with
    | missing h =>
      have hfile : (loginit outs none).2.map (· ++ (records calls).take k) =
          some (logheader ++ (records (completed calls k) ++ piece)) := by
        rw [htake]
        rfl
      rw [hfile, h]
      exact .log hcompleted hpiece fun _ => rfl
    | @log cs s hcs hs hlast =>
      obtain ⟨lines, hscan⟩ := scanlog_records hout hcs hs hr.unread
      by_cases hkept : Kept outs (some (logheader ++ (records cs ++ s)))
      · have hfile : (loginit outs (some (logheader ++ (records cs ++ s)))).2 =
            some (logheader ++ (records cs ++ s)) := if_pos hkept
        rw [hfile]
        by_cases hnil : s = []
        · have heq : (some (logheader ++ (records cs ++ s))).map (· ++ (records calls).take k) =
              some (logheader ++ (records (cs ++ completed calls k) ++ piece)) := by
            rw [htake, hnil, records_append]
            simp only [List.append_nil, List.append_assoc, Option.map_some]
          rw [heq]
          refine .log ?_ hpiece ?_
          · intro c hc
            rcases List.mem_append.mp hc with hc | hc
            · exact hcs c hc
            · exact hcompleted c hc
          · intro n
            rw [lastRecord_append, lastRecord_append, hlast]
        · have hlastPiece := lastPiece_log hout hcs (hs.unbroken hout)
          have hsilent := hr.silent hkept (by rw [Option.getD_some, hlastPiece]; exact hnil) k rfl
          rw [Piece.eq_nil_of_take htake hsilent, List.append_nil, hsilent]
          have heq : (some (logheader ++ (records cs ++ s))).map (· ++ []) =
              some (logheader ++ (records cs ++ s)) := by
            rw [Option.map_some, List.append_nil]
          rw [heq]
          exact .log hcs hs hlast
      · have hnode : ∀ n, (replayed cs newTable).node n = (lastRecord cs n).getD noLog := fun n =>
          replayed_node cs newTable n
        have hhash : ∀ n mtime, lastRecord cs n ≠ some ⟨mtime, 0⟩ := fun n mtime => by
          rw [hlast]
          exact hr.hashes hkept n mtime
        have hfile : (loginit outs (some (logheader ++ (records cs ++ s)))).2 =
            some (rewrite outs { replayed cs newTable with nline := lines }) := by
          rw [Kept] at hkept
          rw [loginit]
          dsimp only
          rw [if_neg hkept, hscan]
        rw [hfile, rewrite]
        by_cases hnone : cs = []
        · have hold : ∀ n, lastRecord hist n = none := fun n => by rw [← hlast, hnone]; rfl
          rw [if_neg (by rw [hnone]; exact Nat.lt_irrefl 0), htake]
          refine .log hcompleted hpiece ?_
          intro n
          rw [lastRecord_append, hold, Option.or_none]
        · have heq : records (rewritten outs (replayed cs newTable).node) ++
              (records calls).take k = records (rewritten outs (replayed cs newTable).node ++
                completed calls k) ++ piece := by
            rw [htake, records_append, List.append_assoc]
          rw [if_pos (replayed_nentry hnone), ← records_rewritten, Option.map_some,
            List.append_assoc, heq]
          refine .log ?_ hpiece ?_
          · intro c hc
            rcases List.mem_append.mp hc with hc | hc
            · obtain ⟨m, hm, rfl⟩ := List.mem_map.mp hc
              exact (List.mem_filter.mp hm).1
            · exact hcompleted c hc
          · intro n
            rw [lastRecord_append, lastRecord_append, lastRecord_rewritten hcs hnode hhash, hlast]

theorem Reaches.holds (hout : ∀ n ∈ outs, Clean n) (h : Reaches outs content hist) :
    Holds outs hist content := by
  induction h with
  | start => exact .missing rfl
  | run _ hr ih => exact ih.run hout hr

/-- Each node is given what was recorded last for it, or nothing. -/
def Restores (outs : List Text) (content : Option Text) (hist : List Call) : Prop :=
  ∀ n, (loginit outs content).1 n = (lastRecord hist n).getD noLog

/-- Paths without tabs, and runs that leave no piece of a record with an output in it. -/
theorem build_log_restores (hout : ∀ n ∈ outs, Clean n) (h : Reaches outs content hist)
    (hunread : Unread outs content) : Restores outs content hist :=
  loginit_node hout (h.holds hout) hunread

/-- Two outputs. -/
def pair : List Text := [['a'], ['b']]

/-- The first is recorded, and a second run is cut off in the mtime of the other. -/
def pairRuns : List Run :=
  [⟨[⟨['a'], ⟨5, 0xab⟩⟩], some 11⟩, ⟨[⟨['b'], ⟨70, 0xcd⟩⟩], some 5⟩]

def pairFile : Option Text := pairRuns.foldl (fun content r => r.file pair content) none

theorem build_log_restores_pair : Restores pair pairFile [⟨['a'], ⟨5, 0xab⟩⟩] := by
  have hout : ∀ n ∈ pair, Clean n := by decide
  have hfirst : Run.Allowed pair none [] ⟨[⟨['a'], ⟨5, 0xab⟩⟩], some 11⟩ :=
    ⟨by decide, by decide, fun _ h => absurd rfl h, fun _ _ _ => nofun⟩
  have hsecond : Run.Allowed pair (Run.file pair ⟨[⟨['a'], ⟨5, 0xab⟩⟩], some 11⟩ none)
      [⟨['a'], ⟨5, 0xab⟩⟩] ⟨[⟨['b'], ⟨70, 0xcd⟩⟩], some 5⟩ :=
    ⟨by decide, by decide, fun _ h => absurd rfl h, fun h => absurd rfl h⟩
  exact build_log_restores hout ((Reaches.start.run hfirst).run hsecond) (by decide)

/-- A record that is cut in its hash is read, and one whose path has a tab in it is not. -/
theorem build_log_not_restores :
    (∃ r : Run, r.completed = [] ∧ ¬ Restores [['a']] (r.file [['a']] none) r.completed) ∧
      ∃ r : Run, r.completed = r.calls ∧
        ¬ Restores [['a', '\t', 'b']] (r.file [['a', '\t', 'b']] none) r.completed := by
  constructor
  · refine ⟨⟨[⟨['a'], ⟨5, 0xab⟩⟩], some 9⟩, rfl, ?_⟩
    intro h
    have hnode := h ['a']
    exact absurd (congrArg NodeLog.hash hnode) (by decide)
  · refine ⟨⟨[⟨['a', '\t', 'b'], ⟨5, 0xab⟩⟩], some 13⟩, rfl, ?_⟩
    intro h
    have hnode := h ['a', '\t', 'b']
    exact absurd (congrArg NodeLog.hash hnode) (by decide)

end Bootsh.Samu.BuildLog
