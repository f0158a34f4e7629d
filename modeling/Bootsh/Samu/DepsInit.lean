import Bootsh.Samu.DepsCompact

/-!
What `depsinit` makes of any content of the file.
-/
namespace Bootsh.Samu

open Bytes (Order)
open Log

variable {o : Order} {usesDeps : Path → Bool} {d d' old : Deps} {l : Log}
  {content rest : List UInt8} {rs : List Rec}

/-- What a file holds: the valid records before the first that is not valid, the log that they
make, and what is left from there on. A file without the header holds none. -/
inductive Parses (o : Order) (usesDeps : Path → Bool) (content : List UInt8) :
    List Rec → Log → List UInt8 → Prop
  | noHeader (h : ¬ depsstart o <+: content) : Parses o usesDeps content [] Log.empty content
  | records {rs : List Rec} {bs : List UInt8} {l : Log} {rest : List UInt8}
      (hcontent : content = depsstart o ++ (bs ++ rest))
      (hrs : Records usesDeps o Log.empty rs bs l)
      (hrest : ∀ r bs' rest', rest = bs' ++ rest' → Encodes o l.nodes.length r bs' →
        ¬ l.Valid usesDeps r) : Parses o usesDeps content rs l rest

/-- The log is written anew: the header or a record is bad, or there are many records. -/
def Rewrites (o : Order) (content : List UInt8) (rs : List Rec) (l : Log) (rest : List UInt8) :
    Prop :=
  ¬ depsstart o <+: content ∨ 4 ≤ rest.length ∨
    1000 < rs.length ∧ 3 * l.nodes.length ≤ rs.length

theorem Parses.good (h : Parses o usesDeps content rs l rest) : l.Good usesDeps := by
  cases h with
  | noHeader => exact Log.empty_good
  | records _ hrs _ => exact hrs.good Log.empty_good

/-- An entry whose list was only read in part. -/
structure HalfRead (old : Deps) (l : Log) (d : Deps) : Prop where
  represents : Represents old l
  entry : ∃ id n nodes mtime, l.nodes[id]? = some n ∧ none ∈ nodes ∧
    (∀ m, some m ∈ nodes → m ∈ l.nodes) ∧
    d = { old with entries := Function.update old.entries id (some ⟨n, some nodes, mtime⟩) }

/-- The record at which the loop stops is neither of the two that are not caught in time. -/
def Found (o : Order) (usesDeps : Path → Bool) (content : List UInt8) (l : Log)
    (rest : List UInt8) : Prop :=
  depsstart o <+: content → ¬ NulPath o l rest ∧ ¬ UnknownDep o usesDeps l rest

theorem found_of_short (h : rest.length < 4) : Found o usesDeps content l rest := by
  refine fun _ => ⟨?_, ?_⟩
  · rintro ⟨k, rest', -, -, -, -, rfl⟩
    simp only [List.length_append, length_word] at h
    omega
  · rintro ⟨id, mtime, ids, rest', n, -, -, -, -, -, rfl⟩
    simp only [List.length_append, length_word] at h
    omega

theorem found_of_bad (hd : Represents d l) (h : loadRecord o usesDeps d rest = .ok (.bad d)) :
    Found o usesDeps content l rest := by
  refine fun _ => ⟨?_, ?_⟩
  · intro hnul
    rw [loadRecord_nulPath hd hnul] at h
    cases h
  · intro hunknown
    obtain ⟨id, n, nodes, mtime, hn, hnone, -, hbad⟩ := loadRecord_unknownDep hd hunknown
    rw [hbad] at h
    have hentries := congrArg Deps.entries (Turn.bad.inj (Except.ok.inj h))
    obtain ⟨entry, hentry, -, hdeps⟩ := hd.entries id n hn
    have hat : Function.update d.entries id (some ⟨n, some nodes, mtime⟩) id = d.entries id :=
      congrFun hentries id
    rw [Function.update_self, hentry] at hat
    cases hat
    cases hlist : l.lists id with
    | none =>
      rw [hlist] at hdeps
      cases hdeps
    | some list =>
      rw [hlist] at hdeps
      obtain ⟨rfl, -⟩ := Prod.mk.inj (Option.some.inj hdeps)
      obtain ⟨m, -, heq⟩ := List.mem_map.mp hnone
      cases heq

/-- What follows a turn of the loop over the records. -/
def afterRecord (o : Order) (usesDeps : Path → Bool) (fuel : ℕ) (d : Deps) (nrecord : ℕ) :
    Turn → Except Stop Loaded
  | .eof rest => .ok (.done d nrecord rest)
  | .bad d => .ok (.bad d)
  | .next d input => loadLoop o usesDeps fuel d (nrecord + 1) input

/-- What follows the loop. -/
def afterLoad (o : Order) (content : List UInt8) : Loaded → Except Stop Deps
  | .bad d => rewrite o d
  | .done d nrecord _ =>
    if compacts d nrecord then rewrite o d else .ok { d with depsfile := content }

/-- The ways through `depsinit`: the records are kept as they are, or written anew, or a record
is met that is not found to be bad in time. -/
theorem depsinit_cases (h : Parses o usesDeps content rs l rest) (cap : ℕ) :
    (NulPath o l rest ∧ depsstart o <+: content ∧
      depsinit o usesDeps cap content = .error .buffer) ∨
    (UnknownDep o usesDeps l rest ∧ depsstart o <+: content ∧ ∃ old d, HalfRead old l d ∧
      depsinit o usesDeps cap content = rewrite o d) ∨
    (Found o usesDeps content l rest ∧ Rewrites o content rs l rest ∧ ∃ old, Represents old l ∧
      depsinit o usesDeps cap content = rewrite o old) ∨
    (Found o usesDeps content l rest ∧ ¬ Rewrites o content rs l rest ∧ ∃ d, Represents d l ∧
      depsinit o usesDeps cap content = .ok { d with depsfile := content }) := by
  cases h with
  | noHeader hheader =>
    refine .inr (.inr (.inl ⟨fun h => absurd h hheader, .inl hheader, noDeps cap,
      noDeps_represents cap, ?_⟩))
    rcases load_cases o usesDeps cap content with hbad | ⟨input, rfl⟩
    · rw [depsinit, hbad]
      rfl
    · exact absurd (List.prefix_append _ _) hheader
  | @records rs bs l rest hcontent hrs hrest =>
    have hpre : depsstart o <+: content := ⟨_, hcontent.symm⟩
    obtain ⟨d, hd, hload⟩ :=
      loadRecords_append hrs (noDeps_represents cap) Log.empty_good 0 rest
    have hinit : ∀ {x}, loadRecord o usesDeps d rest = x → depsinit o usesDeps cap content =
        (x.bind (afterRecord o usesDeps rest.length d rs.length)).bind (afterLoad o content) := by
      intro x hx
      rw [hcontent, depsinit, load_depsstart, hload, loadRecords, loadLoop, hx, Nat.zero_add]
      all_goals rfl
    rcases loadRecord_cases hd (hrs.good Log.empty_good) o rest with
      ⟨hshort, h⟩ | h | ⟨r, bs', rest', heq, hr, hv⟩ | h | h
    · have hend : depsinit o usesDeps cap content =
          if compacts d rs.length then rewrite o d else .ok { d with depsfile := content } :=
        hinit h
      rw [hend]
      have hcompacts : compacts d rs.length ↔ Rewrites o content rs l rest := by
        rw [compacts, Rewrites, hd.len]
        constructor
        · intro h
          exact .inr (.inr (by omega))
        · rintro (h | h | h)
          · exact absurd hpre h
          · omega
          · omega
      by_cases hrewrites : Rewrites o content rs l rest
      · exact .inr (.inr (.inl ⟨found_of_short hshort, hrewrites, d, hd,
          if_pos (hcompacts.mpr hrewrites)⟩))
      · exact .inr (.inr (.inr ⟨found_of_short hshort, hrewrites, d, hd,
          if_neg fun h => hrewrites (hcompacts.mp h)⟩))
    · refine .inr (.inr (.inl ⟨found_of_bad hd h, .inr (.inl ?_), d, hd, by rw [hinit h]; rfl⟩))
      by_contra hshort
      rw [loadRecord, if_pos (by omega)] at h
      cases h
    · exact absurd hv (hrest r bs' rest' heq hr)
    · exact .inl ⟨h, hpre, by rw [hinit (loadRecord_nulPath hd h)]; rfl⟩
    · obtain ⟨id, n, nodes, mtime, hn, hnone, hnodes, hrecord⟩ := loadRecord_unknownDep hd h
      refine .inr (.inl ⟨h, hpre, d, _, ⟨hd, id, n, nodes, mtime, hn, hnone, hnodes, rfl⟩, ?_⟩)
      rw [hinit hrecord]
      rfl

/-- Every content holds something. -/
theorem exists_parses (o : Order) (usesDeps : Path → Bool) (content : List UInt8) :
    ∃ rs l rest, Parses o usesDeps content rs l rest := by
  by_cases hheader : depsstart o <+: content
  · obtain ⟨input, rfl⟩ := hheader
    obtain ⟨rs, bs, rest, l, d, rfl, hrs, hd, hstuck⟩ :=
      loadRecords_cases (noDeps_represents 0) Log.empty_good o 0 input
    refine ⟨rs, l, rest, .records rfl hrs ?_⟩
    intro r bs' rest' heq hr hv
    obtain ⟨d', hload, -⟩ := loadRecord_encodes hd (hrs.good Log.empty_good) hr hv rest'
    rw [← heq] at hload
    have hlen := hr.four_le
    revert hstuck
    generalize loadRecords o usesDeps (noDeps 0) 0 (bs ++ rest) = x
    intro hstuck
    cases hstuck with
    | eof h =>
      rw [heq, List.length_append] at h
      omega
    | bad h =>
      rw [hload] at h
      cases h
    | nulPath h =>
      rw [loadRecord_nulPath hd h] at hload
      cases hload
    | unknownDep h =>
      obtain ⟨_, _, _, _, -, -, -, hbad⟩ := loadRecord_unknownDep hd h
      rw [hbad] at hload
      cases hload
  · exact ⟨[], Log.empty, content, .noHeader hheader⟩

end Bootsh.Samu
