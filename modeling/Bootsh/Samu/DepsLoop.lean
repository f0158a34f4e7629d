import Bootsh.Samu.DepsLoad

/-!
What `depsinit` reads: the valid records up to the first that is not.
-/
namespace Bootsh.Samu

open Bytes (Order)
open Log

variable {o : Order} {usesDeps : Path → Bool} {d : Deps} {l : Log}

theorem Encodes.four_le {k : ℕ} {r : Rec} {bs : List UInt8} (h : Encodes o k r bs) :
    4 ≤ bs.length := by
  cases h with
  | node | deps =>
    rw [List.length_append, length_word]
    exact Nat.le_add_right 4 _

/-- The number of turns does not depend on the fuel. -/
theorem loadLoop_fuel {f g n : ℕ} {input : List UInt8} (hd : Represents d l)
    (hl : l.Good usesDeps) (hf : input.length < f) (hg : input.length < g) :
    loadLoop o usesDeps f d n input = loadLoop o usesDeps g d n input := by
  induction f generalizing g d l n input with
  | zero => exact absurd hf (Nat.not_lt_zero _)
  | succ f ih =>
    cases g with
    | zero => exact absurd hg (Nat.not_lt_zero _)
    | succ g =>
      rw [loadLoop, loadLoop]
      rcases loadRecord_cases hd hl o input with
        ⟨-, h⟩ | h | ⟨r, bs, rest, rfl, hr, hv⟩ | h | h
      · rw [h]
        rfl
      · rw [h]
        rfl
      · obtain ⟨d', hload, hd'⟩ := loadRecord_encodes hd hl hr hv rest
        have hlen := hr.four_le
        rw [List.length_append] at hf hg
        rw [hload]
        exact ih hd' (hl.apply hr hv) (by omega) (by omega)
      · rw [loadRecord_nulPath hd h]
        rfl
      · obtain ⟨id, n, nodes, mtime, -, -, -, hload⟩ := loadRecord_unknownDep hd h
        rw [hload]
        rfl

theorem loadRecords_step (hd : Represents d l) (hl : l.Good usesDeps) {r : Rec}
    {bs : List UInt8} (hr : Encodes o l.nodes.length r bs) (hv : l.Valid usesDeps r) (n : ℕ)
    (rest : List UInt8) : ∃ d', Represents d' (l.apply usesDeps r) ∧
      loadRecords o usesDeps d n (bs ++ rest) = loadRecords o usesDeps d' (n + 1) rest := by
  obtain ⟨d', hload, hd'⟩ := loadRecord_encodes hd hl hr hv rest
  refine ⟨d', hd', ?_⟩
  have hlen := hr.four_le
  rw [loadRecords, loadLoop, hload]
  apply loadLoop_fuel hd' (hl.apply hr hv)
  · rw [List.length_append]
    omega
  · omega

/-- Valid records are read, whatever stands behind them. -/
theorem loadRecords_append {l' : Log} {rs : List Rec} {bs : List UInt8}
    (h : Records usesDeps o l rs bs l') (hd : Represents d l) (hl : l.Good usesDeps) (n : ℕ)
    (rest : List UInt8) : ∃ d', Represents d' l' ∧
      loadRecords o usesDeps d n (bs ++ rest) = loadRecords o usesDeps d' (n + rs.length) rest := by
  induction h generalizing d n with
  | nil => exact ⟨d, hd, rfl⟩
  | @cons l l' r rs bs bs' hr hv _ ih =>
    obtain ⟨d₁, hd₁, h₁⟩ := loadRecords_step hd hl hr hv n (bs' ++ rest)
    obtain ⟨d₂, hd₂, h₂⟩ := ih hd₁ (hl.apply hr hv) (n + 1)
    refine ⟨d₂, hd₂, ?_⟩
    rw [List.append_assoc, h₁, h₂, List.length_cons, Nat.add_assoc, Nat.add_comm 1]

/-- What is no valid record: the loop is left there. -/
inductive Stuck (o : Order) (usesDeps : Path → Bool) (d : Deps) (l : Log) (n : ℕ)
    (rest : List UInt8) : Except Stop Loaded → Prop
  | eof (h : rest.length < 4) : Stuck o usesDeps d l n rest (.ok (.done d n rest))
  | bad (h : loadRecord o usesDeps d rest = .ok (.bad d)) :
      Stuck o usesDeps d l n rest (.ok (.bad d))
  | nulPath (h : NulPath o l rest) : Stuck o usesDeps d l n rest (.error .buffer)
  | unknownDep {id : ℕ} {m : Path} {nodes : List (Option Path)} {mtime : BitVec 64}
      (h : UnknownDep o usesDeps l rest) (hid : l.nodes[id]? = some m) (hnone : none ∈ nodes)
      (hnodes : ∀ n, some n ∈ nodes → n ∈ l.nodes) :
      Stuck o usesDeps d l n rest (.ok (.bad { d with
        entries := Function.update d.entries id (some ⟨m, some nodes, mtime⟩) }))

/-- The records before the first that is not valid are read, and nothing else. -/
theorem loadRecords_cases (hd : Represents d l) (hl : l.Good usesDeps) (o : Order) (n : ℕ)
    (input : List UInt8) : ∃ rs bs rest l' d', input = bs ++ rest ∧
      Records usesDeps o l rs bs l' ∧ Represents d' l' ∧
      Stuck o usesDeps d' l' (n + rs.length) rest (loadRecords o usesDeps d n input) := by
  induction hlen : input.length using Nat.strongRecOn generalizing d l n input with
  | ind k ih =>
    subst hlen
    rcases loadRecord_cases hd hl o input with
      ⟨hshort, h⟩ | h | ⟨r, bs, rest, rfl, hr, hv⟩ | h | h
    · refine ⟨[], [], input, l, d, rfl, .nil l, hd, ?_⟩
      rw [loadRecords, loadLoop, h]
      exact .eof hshort
    · refine ⟨[], [], input, l, d, rfl, .nil l, hd, ?_⟩
      rw [loadRecords, loadLoop, h]
      exact .bad h
    · obtain ⟨d₁, hd₁, h₁⟩ := loadRecords_step hd hl hr hv n rest
      have hlen := hr.four_le
      obtain ⟨rs, bs', rest', l', d', rfl, hrs, hd', hstuck⟩ :=
        ih rest.length (by rw [List.length_append]; omega) hd₁ (hl.apply hr hv) (n + 1) rest rfl
      refine ⟨r :: rs, bs ++ bs', rest', l', d', (List.append_assoc ..).symm, .cons hr hv hrs, hd', ?_⟩
      rw [h₁, List.length_cons, Nat.add_comm rs.length, ← Nat.add_assoc]
      exact hstuck
    · refine ⟨[], [], input, l, d, rfl, .nil l, hd, ?_⟩
      rw [loadRecords, loadLoop, loadRecord_nulPath hd h]
      exact .nulPath h
    · obtain ⟨id, m, nodes, mtime, hid, hnone, hnodes, hload⟩ := loadRecord_unknownDep hd h
      refine ⟨[], [], input, l, d, rfl, .nil l, hd, ?_⟩
      rw [loadRecords, loadLoop, hload]
      exact .unknownDep h hid hnone hnodes

/-! ### The whole log -/

theorem load_depsstart (cap : ℕ) (input : List UInt8) : load o usesDeps cap (depsstart o ++ input) =
    loadRecords o usesDeps (noDeps cap) 0 input := by
  have hheader : depsheader.length = 12 := rfl
  have hword := length_word (o := o) depsver
  have htake : (depsstart o ++ input).take 12 = depsheader := by
    rw [depsstart, List.append_assoc, List.take_left' hheader]
  have hdrop : (depsstart o ++ input).drop 12 = word o depsver ++ input := by
    rw [depsstart, List.append_assoc, List.drop_left' hheader]
  have hrest : (depsstart o ++ input).drop 16 = input :=
    List.drop_left' (by rw [depsstart, List.length_append, hheader, hword])
  rw [load, htake, hdrop, List.take_left' hword, hword, decode_word (by decide), hrest]
  simp

theorem load_cases (o : Order) (usesDeps : Path → Bool) (cap : ℕ) (content : List UInt8) :
    load o usesDeps cap content = .ok (.bad (noDeps cap)) ∨
      ∃ input, content = depsstart o ++ input := by
  by_cases hbad : load o usesDeps cap content = .ok (.bad (noDeps cap))
  · exact .inl hbad
  right
  rw [load] at hbad
  split at hbad
  case isTrue => exact absurd rfl hbad
  case isFalse hheader =>
  split at hbad
  case isTrue => exact absurd rfl hbad
  case isFalse hlen =>
  split at hbad
  case isTrue => exact absurd rfl hbad
  case isFalse hver =>
  have hlen4 : ((content.drop 12).take 4).length = 4 := by
    have hle : ((content.drop 12).take 4).length ≤ 4 := by
      rw [List.length_take]
      exact Nat.min_le_left _ _
    omega
  have hword := o.encode_decode ((content.drop 12).take 4)
  rw [hlen4, not_not.mp hver] at hword
  refine ⟨content.drop 16, ?_⟩
  have hdrop : content.drop 16 = (content.drop 12).drop 4 := by rw [List.drop_drop]
  rw [depsstart, word, hword, hdrop, List.append_assoc, List.take_append_drop,
    ← not_not.mp hheader, List.take_append_drop]

/-- What is recorded for a node, as `depsload` finds it. -/
def recorded (d : Deps) (n : Path) : Option (List (Option Path) × BitVec 64) :=
  (d.id n).bind fun id => (d.entryAt id).toOption.bind fun entry => entry.deps.map (·, entry.mtime)

theorem Represents.recorded (hd : Represents d l) (n : Path) :
    recorded d n = (l.listOf n).map filled := by
  rw [Samu.recorded, hd.id, Log.listOf]
  cases hid : idOf l.nodes n with
  | none => rfl
  | some id =>
    obtain ⟨entry, hentry, -, hdesc⟩ := hd.entryAt (idOf_eq_some hid)
    rw [Option.bind_some, Option.bind_some, hentry]
    exact hdesc.2

/-- A log that is read to its end consists of valid records. -/
theorem load_done {cap n : ℕ} {content rest : List UInt8}
    (h : load o usesDeps cap content = .ok (.done d n rest)) :
    ∃ rs bs l, content = depsstart o ++ (bs ++ rest) ∧ Records usesDeps o Log.empty rs bs l ∧
      Represents d l ∧ n = rs.length ∧ rest.length < 4 := by
  rcases load_cases o usesDeps cap content with hbad | ⟨input, rfl⟩
  · rw [hbad] at h
    cases h
  · rw [load_depsstart] at h
    obtain ⟨rs, bs, rest', l, d', rfl, hrs, hd', hstuck⟩ :=
      loadRecords_cases (noDeps_represents cap) Log.empty_good o 0 input
    rw [h] at hstuck
    cases hstuck with
    | eof hlt => exact ⟨rs, bs, l, rfl, hrs, hd', Nat.zero_add _, hlt⟩

/-- Valid records are read. -/
theorem load_records {rs : List Rec} {bs : List UInt8} (cap : ℕ)
    (h : Records usesDeps o Log.empty rs bs l) : ∃ d, Represents d l ∧
      load o usesDeps cap (depsstart o ++ bs) = .ok (.done d rs.length []) := by
  obtain ⟨d, hd, hload⟩ := loadRecords_append h (noDeps_represents cap) Log.empty_good 0 []
  refine ⟨d, hd, ?_⟩
  rw [load_depsstart, ← List.append_nil bs, hload, Nat.zero_add]
  rfl

/-- Which nodes were recorded does not depend on the rules. -/
theorem Log.Records.any_rules (l₀ : Log) {l' : Log} {rs : List Rec} {bs : List UInt8}
    (h : Records usesDeps o l rs bs l') (h₀ : l₀.nodes = l.nodes) :
    ∃ l₀', Records (fun _ => false) o l₀ rs bs l₀' ∧ l₀'.nodes = l'.nodes := by
  induction h generalizing l₀ with
  | nil => exact ⟨l₀, .nil l₀, h₀⟩
  | @cons l l' r rs bs bs' hr hv _ ih =>
    have hnodes : (l₀.apply (fun _ => false) r).nodes = (l.apply usesDeps r).nodes := by
      cases r with
      | node n =>
        show l₀.nodes ++ [n] = l.nodes ++ [n]
        rw [h₀]
      | deps id mtime ids =>
        rw [Log.apply, Log.apply]
        split <;> split <;> exact h₀
    obtain ⟨l₀', hrs, heq⟩ := ih _ hnodes
    refine ⟨l₀', .cons (by rwa [h₀]) ?_ hrs, heq⟩
    cases r with
    | node => trivial
    | deps id mtime ids =>
      obtain ⟨n, hn, -⟩ := hv
      exact ⟨n, by rwa [h₀], fun h => by cases h⟩

theorem Log.Records.same_ids {usesDeps' : Path → Bool} {l' : Log} {rs rs' : List Rec}
    {bs : List UInt8} (h : Records usesDeps o Log.empty rs bs l)
    (h' : Records usesDeps' o Log.empty rs' bs l') :
    idOf l.nodes = idOf l'.nodes ∧ l.nodes.length = l'.nodes.length := by
  obtain ⟨l₁, h₁, heq₁⟩ := h.any_rules Log.empty rfl
  obtain ⟨l₂, h₂, heq₂⟩ := h'.any_rules Log.empty rfl
  obtain ⟨d₁, hd₁, hload₁⟩ := load_records 0 h₁
  obtain ⟨d₂, hd₂, hload₂⟩ := load_records 0 h₂
  obtain ⟨rfl, -⟩ := Loaded.done.inj (Except.ok.inj (hload₁.symm.trans hload₂))
  rw [← heq₁, ← heq₂]
  exact ⟨hd₁.id.symm.trans hd₂.id, hd₁.len.symm.trans hd₂.len⟩

end Bootsh.Samu
