import Bootsh.Samu.DepsRewrite
import Mathlib.Tactic.IntervalCases

/-!
When a log survives that `depsinit` writes it anew.
-/
namespace Bootsh.Samu

open Bytes (Order)
open Log

variable {o : Order} {usesDeps : Path → Bool} {d d' old : Deps} {l : Log}

/-! ### The records of the rewrite -/

theorem length_path_lt (hl : l.Good usesDeps) {n : Path} (hn : n ∈ l.nodes) :
    n ≠ [] ∧ n.length < MAX_RECORD_SIZE ∧ n.getLast? ≠ some 0 := by
  obtain ⟨hclean, hlen⟩ := hl.nodes n hn
  obtain ⟨hne, hlast⟩ := clean_iff.mp hclean
  exact ⟨hne, by omega, hlast⟩

theorem recordid_mem (hl : l.Good usesDeps) {k : ℕ} {n : Path}
    (hn : .recordid n ∈ l.rewriteCalls k) : n ∈ l.nodes :=
  order_subset hl k (mem_order.mpr hn)

theorem recorddeps_mem {k : ℕ} {out : Path} {deps : List Path} {mtime : BitVec 64}
    (h : .recorddeps out deps mtime ∈ l.rewriteCalls k) :
    ∃ i < k, l.nodes[i]? = some out ∧ l.lists i = some (deps, mtime) := by
  obtain ⟨i, hi, n, hn, hc⟩ := mem_rewriteCalls.mp h
  refine ⟨i, hi, ?_⟩
  match hlist : l.lists i with
  | none =>
    rw [hlist] at hc
    cases hc
  | some ([], t) =>
    rw [hlist] at hc
    cases hc
  | some (m :: ns, t) =>
    rw [hlist] at hc
    simp only [turnCalls, List.mem_cons, List.mem_append, List.mem_map, reduceCtorEq, and_false,
      exists_false, false_or, List.not_mem_nil, or_false, Call.recorddeps.injEq] at hc
    obtain ⟨rfl, rfl, rfl⟩ := hc
    exact ⟨hn, rfl⟩

theorem rewriteCalls_fit (hl : l.Good usesDeps) {k : ℕ} : ∀ c ∈ l.rewriteCalls k, c.Fits := by
  intro c hc
  cases c with
  | recordid n => exact (length_path_lt hl (recordid_mem hl hc)).2.2
  | recorddeps out deps mtime =>
    obtain ⟨i, -, -, hlist⟩ := recorddeps_mem hc
    obtain ⟨-, -, hlen⟩ := hl.lists i deps mtime hlist
    have hmax : MAX_RECORD_SIZE = 2 ^ 19 := rfl
    show deps.length < 2 ^ 30 - 4
    omega

theorem along_recordids {ns : List Path}
    (hns : ∀ n ∈ ns, n ≠ [] ∧ n.length < MAX_RECORD_SIZE) (d : Deps) :
    Fallible.Along (call o) Allowed (ns.map .recordid) d := by
  induction ns generalizing d with
  | nil => trivial
  | cons n ns ih =>
    refine ⟨hns n List.mem_cons_self, fun d' _ => ?_⟩
    exact ih (fun m hm => hns m (List.mem_cons_of_mem _ hm)) d'

theorem rewriteCalls_allowed (hl : l.Good usesDeps) (hd : Numbered d []) {k : ℕ}
    (hk : k ≤ l.nodes.length) : Fallible.Along (call o) Allowed (l.rewriteCalls k) d := by
  induction k with
  | zero => trivial
  | succ k ih =>
    have hn : l.nodes[k]? = some l.nodes[k] := List.getElem?_eq_getElem hk
    rw [rewriteCalls_succ hn]
    apply (ih (Nat.le_of_succ_le hk)).append
    intro e he
    have hnum : Numbered e (l.order k) := calls_numbered hd he
    match hlist : l.lists k with
    | none => trivial
    | some ([], mtime) => trivial
    | some (m :: ns, mtime) =>
      obtain ⟨-, hmem, -⟩ := hl.lists k _ mtime hlist
      have hpaths : ∀ n ∈ l.nodes[k] :: m :: ns, n ≠ [] ∧ n.length < MAX_RECORD_SIZE := by
        intro n hn
        have hnode : n ∈ l.nodes := by
          rcases List.mem_cons.mp hn with rfl | hn
          · exact List.getElem_mem hk
          · exact hmem n hn
        obtain ⟨hne, hlt, -⟩ := length_path_lt hl hnode
        exact ⟨hne, hlt⟩
      show Fallible.Along _ _
        ((l.nodes[k] :: m :: ns).map Call.recordid ++ [Call.recorddeps _ _ _]) e
      apply (along_recordids hpaths e).append
      intro e' he'
      refine ⟨?_, fun _ _ => trivial⟩
      intro n hn
      exact calls_id hnum he' (List.mem_map_of_mem hn)

theorem written_append (cs cs' : List Call) (n : Path) :
    written (cs ++ cs') n = (written cs' n).or (written cs n) := by
  induction cs with
  | nil => cases hw : written cs' n <;> simp [written, hw]
  | cons c cs ih => rw [List.cons_append, written, ih, written, Option.or_assoc]

theorem written_recordids (ns : List Path) (n : Path) : written (ns.map .recordid) n = none := by
  induction ns with
  | nil => rfl
  | cons m ns ih => rw [List.map_cons, written, ih]; rfl

theorem written_turnCalls {i : ℕ} (howner : l.Owner i) (n m : Path) :
    written (turnCalls n (l.lists i)) m = if n = m then l.lists i else none := by
  obtain ⟨m', ns, mtime, hlist⟩ := owner_iff.mp howner
  rw [hlist, turnCalls, ← List.cons_append, ← List.map_cons (f := Call.recordid), written_append,
    written_recordids, Option.or_none]
  rfl

/-- The list that is written last for a node is that of its last entry that is copied. -/
theorem written_rewriteCalls {k : ℕ} (hk : k ≤ l.nodes.length) (n : Path) :
    written (l.rewriteCalls k) n = (l.lastOwner n k).bind l.lists := by
  induction k with
  | zero => rfl
  | succ k ih =>
    have hn : l.nodes[k]? = some l.nodes[k] := List.getElem?_eq_getElem hk
    rw [rewriteCalls_succ hn, written_append, ih (Nat.le_of_succ_le hk), lastOwner, hn]
    by_cases howner : l.Owner k
    · rw [written_turnCalls howner]
      by_cases heq : l.nodes[k] = n
      · obtain ⟨m', ns, mtime, hlist⟩ := owner_iff.mp howner
        rw [if_pos heq, if_pos ⟨congrArg some heq, howner⟩, Option.bind_some, hlist]
        rfl
      · rw [if_neg heq, if_neg fun h => heq (Option.some.inj h.1)]
        rfl
    · rw [turnCalls_of_not_owner howner, if_neg fun h => howner h.2]
      rfl

/-! ### Which logs can be written -/

/-- The records that are kept are smaller than the limit that `recordid` and `recorddeps` set. -/
structure Log.Small (l : Log) : Prop where
  nodes : ∀ n ∈ l.order l.nodes.length, (n.length + 7) / 4 * 4 + 4 < MAX_RECORD_SIZE
  lists : ∀ i < l.nodes.length, ∀ ns mtime, l.lists i = some (ns, mtime) →
    12 + 4 * ns.length + 4 < MAX_RECORD_SIZE

theorem nodeSize_eq {n : Path} (h : n.length < MAX_RECORD_SIZE) :
    nodeSize n = (n.length + 7) / 4 * 4 := by
  have hmax : MAX_RECORD_SIZE = 2 ^ 19 := rfl
  exact Nat.mod_eq_of_lt (by omega)

theorem call_total {nodes : List Path} {c : Call} (hd : Numbered d nodes)
    (hnode : ∀ n, c = .recordid n → n.length < MAX_RECORD_SIZE ∧
      (n.length + 7) / 4 * 4 + 4 < MAX_RECORD_SIZE)
    (hlist : ∀ out deps mtime, c = .recorddeps out deps mtime →
      12 + 4 * deps.length + 4 < MAX_RECORD_SIZE)
    (hfull : (c.numbers nodes).length ≤ INT32_MAX) : ∃ d', call o c d = .ok d' := by
  have hmax : MAX_RECORD_SIZE = 2 ^ 19 := rfl
  cases c with
  | recordid n =>
    obtain ⟨hlen, hsmall⟩ := hnode n rfl
    cases hid : d.id n with
    | some i => exact ⟨d, by rw [call, recordid, hid]; rfl⟩
    | none =>
      have hnew : n ∉ nodes := idOf_eq_none.mp (hd.id ▸ hid)
      have hroom : d.entrieslen ≠ INT32_MAX := by
        rw [Call.numbers, if_neg hnew, List.length_append, List.length_singleton] at hfull
        have hlen' := hd.len
        omega
      have hsize := nodeSize_eq hlen
      rw [call, recordid, hid]
      dsimp only
      rw [if_neg hroom, if_neg (by omega), if_neg (by omega)]
      exact ⟨_, rfl⟩
  | recorddeps out deps mtime =>
    have hsmall := hlist out deps mtime rfl
    have hsize : depsSize deps = 12 + 4 * deps.length := depsSize_eq (by omega)
    rw [call, recorddeps, if_neg (by omega)]
    exact ⟨_, rfl⟩

theorem calls_total (o : Order) {nodes : List Path} (hd : Numbered d nodes) (cs : List Call)
    (hnode : ∀ n, .recordid n ∈ cs → n.length < MAX_RECORD_SIZE ∧
      (n.length + 7) / 4 * 4 + 4 < MAX_RECORD_SIZE)
    (hlist : ∀ out deps mtime, .recorddeps out deps mtime ∈ cs →
      12 + 4 * deps.length + 4 < MAX_RECORD_SIZE)
    (hfull : (numberedBy cs nodes).length ≤ INT32_MAX) :
    ∃ d', Fallible.each (call o) cs d = .ok d' := by
  induction cs generalizing d nodes with
  | nil => exact ⟨d, rfl⟩
  | cons c cs ih =>
    have hle : (c.numbers nodes).length ≤ INT32_MAX :=
      (prefix_numberedBy cs _).length_le.trans hfull
    obtain ⟨d₁, h₁⟩ := call_total (o := o) hd (fun n hn => hnode n (hn ▸ List.mem_cons_self))
      (fun out deps mtime hc => hlist out deps mtime (hc ▸ List.mem_cons_self)) hle
    obtain ⟨d₂, h₂⟩ := ih (call_numbered hd h₁)
      (fun n hn => hnode n (List.mem_cons_of_mem _ hn))
      (fun out deps mtime hc => hlist out deps mtime (List.mem_cons_of_mem _ hc)) hfull
    exact ⟨d₂, by rw [Fallible.each, h₁]; exact h₂⟩

theorem calls_small {nodes : List Path} {cs : List Call} (hd : Numbered d nodes)
    (hrun : Fallible.each (call o) cs d = .ok d') :
    (∀ n, .recordid n ∈ cs → n ∉ nodes → n.length < MAX_RECORD_SIZE →
      (n.length + 7) / 4 * 4 + 4 < MAX_RECORD_SIZE) ∧
    (∀ out deps mtime, .recorddeps out deps mtime ∈ cs → 4 * deps.length < MAX_RECORD_SIZE →
      12 + 4 * deps.length + 4 < MAX_RECORD_SIZE) := by
  have hmax : MAX_RECORD_SIZE = 2 ^ 19 := rfl
  induction cs generalizing d nodes with
  | nil => exact ⟨by simp, by simp⟩
  | cons c cs ih =>
    obtain ⟨d₁, hcall, hrest⟩ := Fallible.bind_eq_ok.mp hrun
    obtain ⟨hnodes, hlists⟩ := ih (call_numbered hd hcall) hrest
    constructor
    · intro n hn hnew hlen
      by_cases hhead : .recordid n = c
      · subst hhead
        obtain ⟨new, hid⟩ := call_recordid hcall
        rcases recordid_cases hid with ⟨hsome, -, -⟩ | ⟨-, -, -, hsize, -, -⟩
        · rw [hd.id, idOf_isSome] at hsome
          exact absurd hsome hnew
        · have heq := nodeSize_eq hlen
          omega
      · rcases List.mem_cons.mp hn with heq | hn
        · exact absurd heq hhead
        · apply hnodes n hn _ hlen
          intro hmem
          cases c with
          | recordid m =>
            rw [Call.numbers] at hmem
            split at hmem
            case isTrue => exact hnew hmem
            case isFalse =>
              rcases List.mem_append.mp hmem with h | h
              · exact hnew h
              · exact hhead (congrArg _ (List.mem_singleton.mp h))
          | recorddeps => exact hnew hmem
    · intro out deps mtime hc hlen
      rcases List.mem_cons.mp hc with rfl | hc
      · obtain ⟨hsize, -⟩ := recorddeps_eq hcall
        have heq : depsSize deps = 12 + 4 * deps.length := depsSize_eq (by omega)
        omega
      · exact hlists out deps mtime hc hlen

/-! ### The result of the rewrite -/

theorem order_le (hl : l.Good usesDeps) : (l.order l.nodes.length).length ≤ l.nodes.length :=
  length_le_of_subset (nodup_order l _) (order_subset hl _)

theorem exists_rewrite (o : Order) (hold : Represents old l) (hl : l.Good usesDeps)
    (hsmall : l.Small) : ∃ d, rewrite o old = .ok d := by
  have hstart : Numbered (rewriteStart o old) [] := ⟨rfl, rfl⟩
  obtain ⟨d, hd⟩ := calls_total o hstart (l.rewriteCalls l.nodes.length)
    (fun n hn => ⟨(length_path_lt hl (recordid_mem hl hn)).2.1,
      hsmall.nodes n (mem_order.mpr hn)⟩)
    (fun out deps mtime hc => by
      obtain ⟨i, hi, -, hlist⟩ := recorddeps_mem hc
      exact hsmall.lists i hi deps mtime hlist)
    ((order_le hl).trans hl.length)
  exact ⟨_, by rw [rewrite_spec o hold hl, hd]; rfl⟩

/-- What the rewrite leaves in memory and in the file. -/
theorem rewrite_result (hold : Represents old l) (hl : l.Good usesDeps)
    (h : rewrite o old = .ok d) : l.Small ∧ Numbered d (l.order l.nodes.length) ∧
      d.entries = rewritten old l l.nodes.length ∧ d.entriescap = old.entriescap ∧
      ∃ rs bs l', Records usesDeps o Log.empty rs bs l' ∧ d.depsfile = depsstart o ++ bs ∧
        l'.nodes = l.order l.nodes.length ∧ (∀ m, usesDeps m = true →
          l'.listOf m = (l.lastOwner m l.nodes.length).bind l.lists) := by
  have hmax : MAX_RECORD_SIZE = 2 ^ 19 := rfl
  rw [rewrite_spec o hold hl] at h
  cases hrun : Fallible.each (call o) (l.rewriteCalls l.nodes.length) (rewriteStart o old) with
  | error e =>
    rw [hrun] at h
    cases h
  | ok e =>
    rw [hrun] at h
    cases h
    have hstart : Numbered (rewriteStart o old) Log.empty.nodes := ⟨rfl, rfl⟩
    obtain ⟨hnodes, hlists⟩ := calls_small hstart hrun
    have hnum := calls_numbered hstart hrun
    obtain ⟨rs, bs, l', hrs, hfile, -, hnodes', hlist'⟩ := calls_records hstart
      (@Log.empty_good usesDeps) (rewriteCalls_allowed hl hstart le_rfl)
      (rewriteCalls_fit hl) hrun
    refine ⟨⟨?_, ?_⟩, ⟨hnum.id, hnum.len⟩, rfl, (calls_frame hrun).2, rs, bs, l', hrs, hfile,
      hnodes', ?_⟩
    · intro n hn
      have hc := mem_order.mp hn
      exact hnodes n hc List.not_mem_nil (length_path_lt hl (recordid_mem hl hc)).2.1
    · intro i hi ns mtime hlist
      cases ns with
      | nil =>
        rw [List.length_nil, hmax]
        decide
      | cons m ns =>
        have hn : l.nodes[i]? = some l.nodes[i] := List.getElem?_eq_getElem hi
        apply hlists l.nodes[i] (m :: ns) mtime
        · refine mem_rewriteCalls.mpr ⟨i, hi, l.nodes[i], hn, ?_⟩
          rw [hlist]
          simp [turnCalls]
        · obtain ⟨-, -, hlen⟩ := hl.lists i _ mtime hlist
          omega
    · intro m hm
      rw [hlist' m hm, written_rewriteCalls le_rfl]
      cases (l.lastOwner m l.nodes.length).bind l.lists <;> rfl

/-- The list that is recorded for a node is the one that is copied. -/
theorem lastOwner_of_listOf {n m : Path} {ns : List Path} {mtime : BitVec 64}
    (h : l.listOf n = some (m :: ns, mtime)) : ∃ i, i < l.nodes.length ∧
      l.lists i = some (m :: ns, mtime) ∧ l.lastOwner n l.nodes.length = some i ∧
      n ∈ l.order l.nodes.length := by
  obtain ⟨i, hid, hlist⟩ := Option.bind_eq_some_iff.mp h
  have howner : l.Owner i := owner_iff.mpr ⟨m, ns, mtime, hlist⟩
  have hget := idOf_eq_some hid
  have hlt := idOf_lt hid
  obtain ⟨j, hj, hle⟩ := exists_lastOwner hlt hget howner
  obtain ⟨-, hget', -⟩ := lastOwner_spec hj
  have hge := le_of_idOf hid hget'
  have heq : j = i := by omega
  exact ⟨i, hlt, hlist, heq ▸ hj, mem_order_of_owner hlt hget howner⟩

/-- The entry with the id of a node, after the rewrite. -/
theorem entryAt_rewritten (hold : Represents old l) (hl : l.Good usesDeps)
    (h : rewrite o old = .ok d) {n : Path} {i : ℕ}
    (hi : (l.order l.nodes.length)[i]? = some n) :
    ∃ j m entry, (l.lastOwner n l.nodes.length = some j ∨
      l.lastOwner n l.nodes.length = none ∧ j = i) ∧ l.nodes[j]? = some m ∧
      d.id n = some i ∧ d.entryAt i = .ok entry ∧ Describes entry m (l.lists j) := by
  obtain ⟨-, hnum, hentries, hcap, -⟩ := rewrite_result hold hl h
  have hlt := (List.getElem?_eq_some_iff.mp hi).1
  have hle := order_le hl
  have hcap' := hold.cap
  have hlen := hold.len
  have hid : d.id n = some i := by
    obtain ⟨j, hj⟩ := exists_idOf (List.mem_of_getElem? hi)
    have heq : j = i := by
      apply (List.getElem?_inj (idOf_lt hj) (nodup_order l _)).mp
      rw [idOf_eq_some hj, hi]
    rw [hnum.id, hj, heq]
  obtain ⟨j, hj, hjlt⟩ : ∃ j, (l.lastOwner n l.nodes.length = some j ∨
      l.lastOwner n l.nodes.length = none ∧ j = i) ∧ j < l.nodes.length := by
    cases hlast : l.lastOwner n l.nodes.length with
    | none => exact ⟨i, .inr ⟨rfl, rfl⟩, by omega⟩
    | some j => exact ⟨j, .inl rfl, (lastOwner_spec hlast).1⟩
  have hm : l.nodes[j]? = some l.nodes[j] := List.getElem?_eq_getElem hjlt
  obtain ⟨entry, hentry, hdesc⟩ := hold.entries j _ hm
  refine ⟨j, _, entry, hj, hm, hid, ?_, hdesc⟩
  have hat : d.entries i = some entry := by
    rw [hentries, rewritten, hi, Option.bind_some]
    rcases hj with hj | ⟨hj, rfl⟩
    · rw [hj]
      exact hentry
    · rw [hj]
      exact hentry
  rw [Deps.entryAt, if_pos (by omega), hat]

/-- What a later `depsinit` reads of the file. -/
theorem load_rewritten (hold : Represents old l) (hl : l.Good usesDeps)
    (h : rewrite o old = .ok d) (cap : ℕ) : ∃ d₂ n₂,
      load o usesDeps cap d.depsfile = .ok (.done d₂ n₂ []) ∧ d₂.id = d.id ∧
      ∀ n, usesDeps n = true →
        recorded d₂ n = ((l.lastOwner n l.nodes.length).bind l.lists).map filled := by
  obtain ⟨-, hnum, -, -, rs, bs, l', hrs, hfile, hnodes, hlists⟩ :=
    rewrite_result hold hl h
  obtain ⟨d₂, hd₂, hload⟩ := load_records cap hrs
  refine ⟨d₂, _, by rw [hfile]; exact hload, ?_, ?_⟩
  · rw [hd₂.id, hnum.id, hnodes]
  · intro n hn
    rw [hd₂.recorded, hlists n hn]

/-! ### Compaction -/

/-- Each entry with the id of a node is that node's, and each list that was recorded is there in
memory and when the file is read again. -/
structure Preserved (o : Order) (usesDeps : Path → Bool) (cap : ℕ) (l : Log) (d : Deps) :
    Prop where
  entries : ∀ n i, d.id n = some i → ∃ entry, d.entryAt i = .ok entry ∧ entry.node = n
  memory : ∀ n list, l.listOf n = some list → recorded d n = some (filled list)
  file : ∃ d₂ n₂, load o usesDeps cap d.depsfile = .ok (.done d₂ n₂ []) ∧
    ∀ n list, l.listOf n = some list → recorded d₂ n = some (filled list)

/-- The records are not too large to be written, no list that is recorded is empty, and each node
without a list that is kept has the id that it gets. -/
structure Log.Keepable (l : Log) : Prop where
  small : l.Small
  nonempty : ∀ n mtime, l.listOf n ≠ some ([], mtime)
  inPlace : ∀ (i : ℕ) (n : Path), (l.order l.nodes.length)[i]? = some n →
    (∃ j : ℕ, l.nodes[j]? = some n ∧ l.Owner j) ∨ l.nodes[i]? = some n

theorem listOf_usesDeps (hl : l.Good usesDeps) {n : Path} {list : List Path × BitVec 64}
    (h : l.listOf n = some list) : usesDeps n = true := by
  obtain ⟨i, hid, hlist⟩ := Option.bind_eq_some_iff.mp h
  obtain ⟨⟨m, hm, hu⟩, -⟩ := hl.lists i list.1 list.2 hlist
  cases (idOf_eq_some hid).symm.trans hm
  exact hu

theorem rewrite_preserves (hold : Represents old l) (hl : l.Good usesDeps) (cap : ℕ)
    (h : rewrite o old = .ok d) (hkeep : l.Keepable) : Preserved o usesDeps cap l d := by
  obtain ⟨-, hnum, -⟩ := rewrite_result hold hl h
  obtain ⟨d₂, n₂, hload, -, hlists⟩ := load_rewritten hold hl h cap
  refine ⟨?_, ?_, d₂, n₂, hload, ?_⟩
  · intro n i hi
    have hget := idOf_eq_some (hnum.id ▸ hi)
    obtain ⟨j, m, entry, hj, hm, -, hentry, hdesc⟩ := entryAt_rewritten hold hl h hget
    refine ⟨entry, hentry, ?_⟩
    rw [hdesc.1]
    rcases hj with hj | ⟨hnone, rfl⟩
    · exact Option.some.inj (hm.symm.trans (lastOwner_spec hj).2.1)
    · rcases hkeep.inPlace j n hget with ⟨j', hj', howner⟩ | hsame
      · have hlt := (List.getElem?_eq_some_iff.mp hj').1
        obtain ⟨i', hi', -⟩ := exists_lastOwner hlt hj' howner
        rw [hi'] at hnone
        cases hnone
      · exact Option.some.inj (hm.symm.trans hsame)
  · rintro n ⟨ns, mtime⟩ hlist
    cases ns with
    | nil => exact absurd hlist (hkeep.nonempty n mtime)
    | cons m ns =>
      obtain ⟨i, -, hlisti, hlast, hmem⟩ := lastOwner_of_listOf hlist
      obtain ⟨i', hi'⟩ := List.mem_iff_getElem?.mp hmem
      obtain ⟨j, m', entry, hj, -, hid, hentry, hdesc⟩ := entryAt_rewritten hold hl h hi'
      have heq : j = i := by
        rcases hj with hj | ⟨hnone, -⟩
        · exact Option.some.inj (hj.symm.trans hlast)
        · rw [hlast] at hnone
          cases hnone
      rw [recorded, hid, Option.bind_some, hentry]
      exact hdesc.2.trans (by rw [heq, hlisti]; rfl)
  · rintro n ⟨ns, mtime⟩ hlist
    rw [hlists n (listOf_usesDeps hl hlist)]
    cases ns with
    | nil => exact absurd hlist (hkeep.nonempty n mtime)
    | cons m ns =>
      obtain ⟨i, -, hlisti, hlast, -⟩ := lastOwner_of_listOf hlist
      rw [hlast, Option.bind_some, hlisti]
      rfl

/-- A list that is empty is not in the file any more. -/
theorem nonempty_of_file (hold : Represents old l) (hl : l.Good usesDeps) {cap : ℕ}
    (h : rewrite o old = .ok d) {d₂ : Deps} {n₂ : ℕ}
    (hload : load o usesDeps cap d.depsfile = .ok (.done d₂ n₂ []))
    (hfile : ∀ n list, l.listOf n = some list → recorded d₂ n = some (filled list)) (n : Path)
    (mtime : BitVec 64) : l.listOf n ≠ some ([], mtime) := by
  intro hlist
  obtain ⟨d₂', n₂', hload', -, hlists⟩ := load_rewritten hold hl h cap
  obtain ⟨rfl, -⟩ := Loaded.done.inj (Except.ok.inj (hload'.symm.trans hload))
  have heq := hfile n _ hlist
  rw [hlists n (listOf_usesDeps hl hlist)] at heq
  obtain ⟨list, hmem, hempty⟩ := Option.map_eq_some_iff.mp heq
  obtain ⟨j, hj, hlistj⟩ := Option.bind_eq_some_iff.mp hmem
  obtain ⟨m, ns, t, howner⟩ := owner_iff.mp (lastOwner_spec hj).2.2
  rw [howner] at hlistj
  cases hlistj
  cases hempty

theorem keepable_of_preserved (hold : Represents old l) (hl : l.Good usesDeps) {cap : ℕ}
    (h : rewrite o old = .ok d) (hpres : Preserved o usesDeps cap l d) : l.Keepable := by
  obtain ⟨hsmall, -⟩ := rewrite_result hold hl h
  obtain ⟨hentries, -, d₂, n₂, hload, hfile⟩ := hpres
  refine ⟨hsmall, nonempty_of_file hold hl h hload hfile, ?_⟩
  intro i n hi
  obtain ⟨j, m, entry, hj, hm, hid, hentry, hdesc⟩ := entryAt_rewritten hold hl h hi
  rcases hj with hj | ⟨-, rfl⟩
  · exact .inl ⟨j, (lastOwner_spec hj).2⟩
  · right
    obtain ⟨entry', hentry', hnode⟩ := hentries n j hid
    cases hentry.symm.trans hentry'
    rw [hm, ← hdesc.1, hnode]

/-- A log of valid records that `depsinit` decides to write anew. -/
theorem depsinit_compacts {rs : List Rec} {bs rest : List UInt8} (cap : ℕ)
    (hrs : Records usesDeps o Log.empty rs bs l) (hrest : rest.length < 4)
    (hmany : 1000 < rs.length ∧ 3 * l.nodes.length ≤ rs.length) : ∃ old, Represents old l ∧
      depsinit o usesDeps cap (depsstart o ++ (bs ++ rest)) = rewrite o old := by
  obtain ⟨old, hold, hload⟩ :=
    loadRecords_append hrs (noDeps_represents cap) Log.empty_good 0 rest
  refine ⟨old, hold, ?_⟩
  have hend : loadRecords o usesDeps old (0 + rs.length) rest =
      .ok (.done old (0 + rs.length) rest) := by
    rw [loadRecords, loadLoop, loadRecord, if_pos hrest]
    rfl
  have hcompacts : compacts old (0 + rs.length) := by
    rw [compacts, hold.len]
    omega
  rw [depsinit, load_depsstart, hload, hend]
  exact if_pos hcompacts

/-- Compaction keeps every record and the array of entries just when the log is keepable. -/
theorem compaction_preserves {rs : List Rec} {bs rest : List UInt8} (cap cap' : ℕ)
    (hrs : Records usesDeps o Log.empty rs bs l) (hrest : rest.length < 4)
    (hmany : 1000 < rs.length ∧ 3 * l.nodes.length ≤ rs.length) :
    (∃ d, depsinit o usesDeps cap (depsstart o ++ (bs ++ rest)) = .ok d ∧
      Preserved o usesDeps cap' l d) ↔ l.Keepable := by
  have hl := hrs.good Log.empty_good
  obtain ⟨old, hold, hinit⟩ := depsinit_compacts cap hrs hrest hmany
  rw [hinit]
  constructor
  · rintro ⟨d, h, hpres⟩
    exact keepable_of_preserved hold hl h hpres
  · intro hkeep
    obtain ⟨d, h⟩ := exists_rewrite o hold hl hkeep.small
    exact ⟨d, h, rewrite_preserves hold hl cap' h hkeep⟩

/-! ### Two nodes -/

theorem Log.Records.repeated {r : Rec} {bs : List UInt8} (hr : Encodes o l.nodes.length r bs)
    (hv : l.Valid usesDeps r) (hsame : l.apply usesDeps r = l) (k : ℕ) :
    Records usesDeps o l (List.replicate k r) (List.replicate k bs).flatten l := by
  induction k with
  | zero => exact .nil l
  | succ k ih =>
    rw [List.replicate_succ, List.replicate_succ, List.flatten_cons]
    apply Records.cons hr hv
    rw [hsame]
    exact ih

/-- The nodes `a` and `b`, and a list that was recorded many times for the node with the id `id`:
the other node. -/
def pairRecs (id : ℕ) : List Rec :=
  .node [97] :: .node [98] :: List.replicate 1001 (.deps id 0 [1 - id])

def pairLog (id : ℕ) : Log :=
  ⟨[[97], [98]], Function.update (fun _ => none) id
    (some ([1 - id].filterMap fun i => [[97], [98]][i]?, 0))⟩

theorem pairLog_records {id : ℕ} (hid : id < 2) : ∃ bs,
    Records (fun _ => true) .little Log.empty (pairRecs id) bs (pairLog id) := by
  have hclean : ∀ c : UInt8, c ≠ 0 → Clean [c] := fun c hc => ⟨c, rfl, hc⟩
  have ha : Encodes .little 0 (.node [97]) _ :=
    @Encodes.node _ _ _ 3 (hclean 97 (by decide)) rfl (by decide) (by decide)
  have hb : Encodes .little 1 (.node [98]) _ :=
    @Encodes.node _ _ _ 3 (hclean 98 (by decide)) rfl (by decide) (by decide)
  have hdeps : Encodes .little 2 (.deps id 0 [1 - id]) _ :=
    .deps (show 12 + 4 * 1 ≤ MAX_RECORD_SIZE by decide) (by omega) (by simp; omega)
  have hvalid : ∀ lists, (Log.mk [[97], [98]] lists).Valid (fun _ => true) (.deps id 0 [1 - id]) := by
    intro lists
    refine ⟨_, List.getElem?_eq_getElem hid, fun _ i hi => ?_⟩
    rw [List.mem_singleton.mp hi]
    show 1 - id < 2
    omega
  have happly : ∀ lists, (Log.mk [[97], [98]] lists).apply (fun _ => true) (.deps id 0 [1 - id]) =
      ⟨[[97], [98]], Function.update lists id
        (some ([1 - id].filterMap fun i => [[97], [98]][i]?, 0))⟩ := by
    intro lists
    have hget : ([[97], [98]] : List Path)[id]? = some _ := List.getElem?_eq_getElem hid
    rw [Log.apply]
    show (if ([[97], [98]] : List Path)[id]?.any _ then _ else _) = _
    rw [hget]
    rfl
  have hsame : (pairLog id).apply (fun _ => true) (.deps id 0 [1 - id]) = pairLog id := by
    rw [pairLog, happly, Function.update_idem]
  have hfirst : ((Log.empty.apply (fun _ => true) (.node [97])).apply (fun _ => true)
      (.node [98])).apply (fun _ => true) (.deps id 0 [1 - id]) = pairLog id := happly _
  have hrest := Records.repeated (l := pairLog id) hdeps (hvalid _) hsame 1000
  rw [← hfirst] at hrest
  have hva : Log.empty.Valid (fun _ => true) (.node [97]) := trivial
  have hvb : (Log.empty.apply (fun _ => true) (.node [97])).Valid (fun _ => true) (.node [98]) :=
    trivial
  have hall := Records.cons ha hva (.cons hb hvb (.cons hdeps (hvalid _) hrest))
  rw [hfirst] at hall
  exact ⟨_, hall⟩

theorem pairLog_keepable : (pairLog 0).Keepable := by
  have horder : (pairLog 0).order 2 = [[97], [98]] := by rfl
  refine ⟨⟨?_, ?_⟩, ?_, ?_⟩
  · show ∀ n ∈ (pairLog 0).order 2, _
    rw [horder]
    decide
  · intro i hi ns mtime hlist
    have hi' : i < 2 := hi
    interval_cases i <;> cases hlist
    decide
  · intro n mtime hlist
    obtain ⟨i, hid, hlist⟩ := Option.bind_eq_some_iff.mp hlist
    have hi : i < 2 := idOf_lt hid
    interval_cases i <;> cases hlist
  · intro i n hn
    change ((pairLog 0).order 2)[i]? = some n at hn
    rw [horder] at hn
    exact .inr hn

theorem compaction_preserves_pair : ∃ bs d, depsinit .little (fun _ => true) 0
    (depsstart .little ++ (bs ++ [])) = .ok d ∧ Preserved .little (fun _ => true) 0 (pairLog 0) d := by
  obtain ⟨bs, hrs⟩ := pairLog_records (by decide : 0 < 2)
  have hmany : 1000 < (pairRecs 0).length ∧ 3 * (pairLog 0).nodes.length ≤ (pairRecs 0).length := by
    rw [pairRecs, List.length_cons, List.length_cons, List.length_replicate]
    exact ⟨by decide, by decide⟩
  exact ⟨bs, (compaction_preserves 0 0 hrs (by decide) hmany).mpr pairLog_keepable⟩

/-- The node with the list gets the first id, and the other node the entry that the first had. -/
theorem compaction_not_preserves : ∃ bs, Records (fun _ => true) .little Log.empty (pairRecs 1) bs
      (pairLog 1) ∧
    ¬ ∃ d, depsinit .little (fun _ => true) 0 (depsstart .little ++ (bs ++ [])) = .ok d ∧
      Preserved .little (fun _ => true) 0 (pairLog 1) d := by
  obtain ⟨bs, hrs⟩ := pairLog_records (by decide : 1 < 2)
  refine ⟨bs, hrs, ?_⟩
  have hmany : 1000 < (pairRecs 1).length ∧ 3 * (pairLog 1).nodes.length ≤ (pairRecs 1).length := by
    rw [pairRecs, List.length_cons, List.length_cons, List.length_replicate]
    exact ⟨by decide, by decide⟩
  obtain ⟨old, hold, hinit⟩ := depsinit_compacts 0 hrs (by decide : ([] : List UInt8).length < 4) hmany
  rw [hinit]
  rintro ⟨d, h, hpres⟩
  have hkeep := keepable_of_preserved hold (hrs.good Log.empty_good) h hpres
  have horder : ((pairLog 1).order 2)[1]? = some [97] := by rfl
  rcases hkeep.inPlace 1 [97] horder with ⟨j, hj, howner⟩ | h
  · have hlt : j < 2 := (List.getElem?_eq_some_iff.mp hj).1
    interval_cases j
    · exact absurd howner (by decide)
    · cases hj
  · cases h

end Bootsh.Samu
