import Bootsh.Samu.DepsRecord
import Mathlib.Data.List.Perm.Subperm

/-!
The rewrite of the log in `depsinit`: the records that it writes, and what it leaves in the array
of entries.
-/
namespace Bootsh.Samu

open Bytes (Order)
open Log

variable {o : Order} {usesDeps : Path → Bool} {d d' old : Deps} {l : Log}

/-- The calls for an entry that is copied. -/
def turnCalls (n : Path) : Option (List Path × BitVec 64) → List Call
  | none => []
  | some ([], _) => []
  | some (m :: ns, mtime) =>
    .recordid n :: ((m :: ns).map .recordid ++ [.recorddeps n (m :: ns) mtime])

namespace Log

/-- The id has a list that is not empty: its entry is copied. -/
def Owner (l : Log) (i : ℕ) : Prop := ((l.lists i).any fun list => !list.1.isEmpty) = true

instance (l : Log) (i : ℕ) : Decidable (l.Owner i) := inferInstanceAs (Decidable (_ = _))

/-- The calls for the entries below `k`. -/
def rewriteCalls (l : Log) (k : ℕ) : List Call :=
  (List.range k).flatMap fun i =>
    match l.nodes[i]? with
    | some n => turnCalls n (l.lists i)
    | none => []

/-- The nodes in the order in which they first appear in the records that are kept. -/
def order (l : Log) (k : ℕ) : List Path := numberedBy (l.rewriteCalls k) []

/-- The last entry below `k` that is copied for the node. -/
def lastOwner (l : Log) (n : Path) : ℕ → Option ℕ
  | 0 => none
  | k + 1 => if l.nodes[k]? = some n ∧ l.Owner k then some k else l.lastOwner n k

end Log

def Deps.withEntries (d : Deps) (entries : ℕ → Option Entry) : Deps := { d with entries := entries }

/-- The array after the entries below `k` were copied. -/
def rewritten (old : Deps) (l : Log) (k : ℕ) : ℕ → Option Entry := fun i =>
  match ((l.order k)[i]?).bind fun n => l.lastOwner n k with
  | some j => old.entries j
  | none => old.entries i

/-! ### The calls of the rewrite -/

theorem call_withEntries (c : Call) (d : Deps) (entries : ℕ → Option Entry) :
    call o c (d.withEntries entries) = (call o c d).map (·.withEntries entries) := by
  cases c with
  | recordid n =>
    have hid : (d.withEntries entries).id n = d.id n := rfl
    rw [call, call, recordid, recordid, hid]
    cases d.id n with
    | some => rfl
    | none =>
      have hlen : (d.withEntries entries).entrieslen = d.entrieslen := rfl
      dsimp only
      rw [hlen]
      split_ifs <;> rfl
  | recorddeps out deps mtime =>
    rw [call, call, recorddeps, recorddeps]
    split <;> rfl

theorem calls_withEntries (cs : List Call) (d : Deps) (entries : ℕ → Option Entry) :
    Fallible.each (call o) cs (d.withEntries entries) =
      (Fallible.each (call o) cs d).map (·.withEntries entries) := by
  induction cs generalizing d with
  | nil => rfl
  | cons c cs ih =>
    rw [Fallible.each, call_withEntries, Fallible.each]
    cases call o c d with
    | error e => rfl
    | ok d₁ => exact ih d₁

theorem call_frame {c : Call} (h : call o c d = .ok d') :
    d'.entries = d.entries ∧ d'.entriescap = d.entriescap := by
  cases c with
  | recordid n =>
    obtain ⟨new, hid⟩ := call_recordid h
    rcases recordid_cases hid with ⟨-, -, rfl⟩ | ⟨-, -, -, -, -, rfl⟩ <;> exact ⟨rfl, rfl⟩
  | recorddeps out deps mtime =>
    obtain ⟨-, rfl⟩ := recorddeps_eq h
    exact ⟨rfl, rfl⟩

theorem calls_frame {cs : List Call} (h : Fallible.each (call o) cs d = .ok d') :
    d'.entries = d.entries ∧ d'.entriescap = d.entriescap := by
  apply Fallible.each_preserves
    (P := fun d' : Deps => d'.entries = d.entries ∧ d'.entriescap = d.entriescap) _ ⟨rfl, rfl⟩ h
  intro c _ d₁ d₂ ⟨hentries, hcap⟩ hcall
  obtain ⟨hentries', hcap'⟩ := call_frame hcall
  exact ⟨hentries'.trans hentries, hcap'.trans hcap⟩

theorem recordids_eq (ns : List Path) (d : Deps) :
    recordids o (ns.map some) d = Fallible.each (call o) (ns.map .recordid) d := by
  induction ns generalizing d with
  | nil => rfl
  | cons n ns ih =>
    show (call o (.recordid n) d).bind (recordids o (ns.map some)) = _
    rw [List.map_cons, Fallible.each]
    exact congrArg _ (funext ih)

/-- An entry that is copied: its calls, and it takes the place of its node's new id. -/
theorem rewriteEntry_owner {nodes : List Path} {entry : Entry} {n m : Path} {ns : List Path}
    {mtime : BitVec 64} (hd : Numbered d nodes) (hnodup : nodes.Nodup)
    (hentry : Describes entry n (some (m :: ns, mtime)))
    (hcap : ((Call.recordid n).numbers nodes).length ≤ d.entriescap) :
    rewriteEntry o entry d = (Fallible.each (call o) (turnCalls n (some (m :: ns, mtime))) d).map
      fun e => e.withEntries (Function.update d.entries (idWord (e.id n)) (some entry)) := by
  obtain ⟨rfl, hdeps⟩ := hentry
  cases hlist : entry.deps with
  | none =>
    rw [hlist] at hdeps
    cases hdeps
  | some deps =>
    rw [hlist] at hdeps
    obtain ⟨rfl, rfl⟩ := Prod.mk.inj (Option.some.inj hdeps)
    have hreduce : ((m :: ns).map some).reduceOption = m :: ns := by
      change ((m :: ns).map some).filterMap id = m :: ns
      rw [List.filterMap_map]
      exact List.filterMap_some
    rw [rewriteEntry, hlist]
    show (recordid o entry.node d).bind _ = _
    rw [turnCalls, Fallible.each, call]
    cases hid : recordid o entry.node d with
    | error e => rfl
    | ok r =>
      obtain ⟨new, d₁⟩ := r
      have hnum := recordid_numbered hd hid
      have hcall : call o (.recordid entry.node) d = .ok d₁ := by
        rw [call, hid]
        rfl
      obtain ⟨hentries, hcap₁⟩ := call_frame hcall
      obtain ⟨i, hi⟩ : ∃ i, d₁.id entry.node = some i := by
        rw [hnum.id]
        apply exists_idOf
        rw [Call.numbers]
        split
        case isTrue h => exact h
        case isFalse => exact List.mem_append_right _ (List.mem_singleton_self _)
      have hlt : i < d₁.entriescap := by
        have hlt := idOf_lt (hnum.id ▸ hi)
        omega
      have hset : d₁.setEntry (idWord (d₁.id entry.node)) entry =
          .ok (d₁.withEntries (Function.update d.entries i (some entry))) := by
        rw [hi, ← hentries]
        exact if_pos hlt
      show ((d₁.setEntry (idWord (d₁.id entry.node)) entry).bind _) =
        ((Fallible.each (call o) _ d₁).map _)
      rw [hset, Fallible.each_append]
      show (recordids o _ _).bind _ = _
      rw [hreduce, recordids_eq, calls_withEntries]
      cases hrun : Fallible.each (call o) ((m :: ns).map .recordid) d₁ with
      | error e => rfl
      | ok d₂ =>
        show recorddeps o _ _ _ (d₂.withEntries _) = (Fallible.each (call o) _ d₂).map _
        have hlast : ∀ d, Fallible.each (call o) [.recorddeps entry.node (m :: ns) entry.mtime] d =
            call o (.recorddeps entry.node (m :: ns) entry.mtime) d := by
          intro d
          rw [Fallible.each]
          cases call o (.recorddeps entry.node (m :: ns) entry.mtime) d <;> rfl
        show call o (.recorddeps entry.node (m :: ns) entry.mtime) (d₂.withEntries _) = _
        rw [hlast, call_withEntries]
        cases hend : call o (.recorddeps entry.node (m :: ns) entry.mtime) d₂ with
        | error e => rfl
        | ok d₃ =>
          have hid₃ : d₃.id entry.node = some i := by
            obtain ⟨-, rfl⟩ := recorddeps_eq hend
            show d₂.id entry.node = some i
            rw [(calls_numbered hnum hrun).id]
            apply idOf_prefix (prefix_numberedBy _ _) (nodup_numberedBy (nodup_numbers hnodup _))
            rw [← hnum.id, hi]
          show _ = Except.ok (d₃.withEntries
            (Function.update d.entries (idWord (d₃.id entry.node)) (some entry)))
          rw [hid₃]
          rfl

/-! ### The order of the nodes -/

theorem Log.owner_iff {i : ℕ} : l.Owner i ↔ ∃ m ns mtime, l.lists i = some (m :: ns, mtime) := by
  rw [Owner]
  match hlist : l.lists i with
  | none => simp
  | some ([], mtime) => simp
  | some (m :: ns, mtime) => simp

theorem turnCalls_of_not_owner {i : ℕ} (h : ¬ l.Owner i) (n : Path) :
    turnCalls n (l.lists i) = [] := by
  match hlist : l.lists i with
  | none => rfl
  | some ([], mtime) => rfl
  | some (m :: ns, mtime) => exact absurd (owner_iff.mpr ⟨m, ns, mtime, hlist⟩) h

theorem mem_turnCalls {n m : Path} {list : Option (List Path × BitVec 64)} :
    .recordid m ∈ turnCalls n list ↔
      ∃ ns mtime, list = some (ns, mtime) ∧ ns ≠ [] ∧ (m = n ∨ m ∈ ns) := by
  match list with
  | none => simp [turnCalls]
  | some ([], mtime) => simp [turnCalls]
  | some (m' :: ns, mtime) => simp [turnCalls, eq_comm]

theorem rewriteCalls_succ {k : ℕ} {n : Path} (hn : l.nodes[k]? = some n) :
    l.rewriteCalls (k + 1) = l.rewriteCalls k ++ turnCalls n (l.lists k) := by
  rw [rewriteCalls, List.range_succ, List.flatMap_append, List.flatMap_singleton, hn]
  rfl

theorem mem_rewriteCalls {k : ℕ} {c : Call} : c ∈ l.rewriteCalls k ↔
    ∃ i < k, ∃ n, l.nodes[i]? = some n ∧ c ∈ turnCalls n (l.lists i) := by
  rw [rewriteCalls, List.mem_flatMap]
  constructor
  · rintro ⟨i, hi, hc⟩
    cases hn : l.nodes[i]? with
    | none =>
      rw [hn] at hc
      cases hc
    | some n =>
      rw [hn] at hc
      exact ⟨i, List.mem_range.mp hi, n, hn, hc⟩
  · rintro ⟨i, hi, n, hn, hc⟩
    refine ⟨i, List.mem_range.mpr hi, ?_⟩
    rw [hn]
    exact hc

theorem mem_order {k : ℕ} {n : Path} : n ∈ l.order k ↔ .recordid n ∈ l.rewriteCalls k := by
  rw [order, mem_numberedBy]
  simp

theorem order_subset (hl : l.Good usesDeps) (k : ℕ) : l.order k ⊆ l.nodes := by
  intro n hn
  obtain ⟨i, -, m, hm, hc⟩ := mem_rewriteCalls.mp (mem_order.mp hn)
  obtain ⟨ns, mtime, hlist, -, rfl | hmem⟩ := mem_turnCalls.mp hc
  · exact List.mem_of_getElem? hm
  · exact (hl.lists i ns mtime hlist).2.1 n hmem

theorem nodup_order (l : Log) (k : ℕ) : (l.order k).Nodup := nodup_numberedBy List.nodup_nil

theorem length_le_of_subset {ns ms : List Path} (hnodup : ns.Nodup) (hsub : ns ⊆ ms) :
    ns.length ≤ ms.length := (List.Nodup.subperm hnodup hsub).length_le

theorem lastOwner_spec {n : Path} {k j : ℕ} (h : l.lastOwner n k = some j) :
    j < k ∧ l.nodes[j]? = some n ∧ l.Owner j := by
  induction k with
  | zero => cases h
  | succ k ih =>
    rw [lastOwner] at h
    split at h
    case isTrue howner =>
      cases h
      exact ⟨Nat.lt_succ_self _, howner⟩
    case isFalse =>
      obtain ⟨hlt, hn, howner⟩ := ih h
      exact ⟨hlt.trans (Nat.lt_succ_self _), hn, howner⟩

theorem exists_lastOwner {n : Path} {k j : ℕ} (hj : j < k) (hn : l.nodes[j]? = some n)
    (howner : l.Owner j) : ∃ i, l.lastOwner n k = some i ∧ j ≤ i := by
  induction k with
  | zero => exact absurd hj (Nat.not_lt_zero j)
  | succ k ih =>
    rw [lastOwner]
    split
    case isTrue => exact ⟨k, rfl, Nat.le_of_lt_succ hj⟩
    case isFalse hnot =>
      apply ih
      rcases Nat.lt_succ_iff_lt_or_eq.mp hj with hlt | rfl
      · exact hlt
      · exact absurd ⟨hn, howner⟩ hnot

theorem mem_order_of_owner {n : Path} {k j : ℕ} (hj : j < k) (hn : l.nodes[j]? = some n)
    (howner : l.Owner j) : n ∈ l.order k := by
  obtain ⟨m, ns, mtime, hlist⟩ := owner_iff.mp howner
  refine mem_order.mpr (mem_rewriteCalls.mpr ⟨j, hj, n, hn, ?_⟩)
  exact mem_turnCalls.mpr ⟨m :: ns, mtime, hlist, by simp, .inl rfl⟩

/-! ### The loop -/

theorem rewritten_succ_of_not_owner {k : ℕ} {n : Path} (hn : l.nodes[k]? = some n)
    (h : ¬ l.Owner k) : rewritten old l (k + 1) = rewritten old l k := by
  have horder : l.order (k + 1) = l.order k := by
    rw [order, rewriteCalls_succ hn, turnCalls_of_not_owner h, List.append_nil]
    rfl
  have hlast : ∀ m, l.lastOwner m (k + 1) = l.lastOwner m k := by
    intro m
    exact if_neg fun hm => h hm.2
  funext i
  simp only [rewritten, horder, hlast]

theorem rewritten_succ {k i : ℕ} {n : Path} {entry : Entry} (hn : l.nodes[k]? = some n)
    (howner : l.Owner k) (hentry : old.entries k = some entry)
    (hi : idOf (l.order (k + 1)) n = some i) :
    Function.update (rewritten old l k) i (some entry) = rewritten old l (k + 1) := by
  have hnodup := nodup_order l (k + 1)
  have hpre : l.order k <+: l.order (k + 1) := by
    rw [order, order, rewriteCalls_succ hn, numberedBy_append]
    exact prefix_numberedBy _ _
  funext j
  by_cases hj : j = i
  · have hlast : l.lastOwner n (k + 1) = some k := if_pos ⟨hn, howner⟩
    rw [hj, Function.update_self, rewritten, idOf_eq_some hi, Option.bind_some, hlast]
    exact hentry.symm
  · rw [Function.update_of_ne hj, rewritten, rewritten]
    cases hm : (l.order (k + 1))[j]? with
    | none =>
      have hnone : (l.order k)[j]? = none := by
        rw [List.getElem?_eq_none_iff] at hm ⊢
        exact hpre.length_le.trans hm
      rw [hnone]
      rfl
    | some m =>
      have hne : l.nodes[k]? ≠ some m := by
        intro heq
        cases hn.symm.trans heq
        apply hj
        apply (List.getElem?_inj (List.getElem?_eq_some_iff.mp hm).1 hnodup).mp
        rw [hm, idOf_eq_some hi]
      have hlast : l.lastOwner m (k + 1) = l.lastOwner m k := if_neg fun h => hne h.1
      cases hm' : (l.order k)[j]? with
      | some m' =>
        have heq : m' = m := by
          obtain ⟨more, hmore⟩ := hpre
          rw [← hmore, List.getElem?_append_left (List.getElem?_eq_some_iff.mp hm').1, hm'] at hm
          exact Option.some.inj hm
        rw [heq, Option.bind_some, Option.bind_some, hlast]
      | none =>
        rw [Option.bind_some, hlast]
        cases hlast' : l.lastOwner m k with
        | none => rfl
        | some j' =>
          -- a node that has a list was numbered in its turn
          obtain ⟨hlt, hnode, howner'⟩ := lastOwner_spec hlast'
          obtain ⟨i', hi'⟩ := List.mem_iff_getElem?.mp (mem_order_of_owner hlt hnode howner')
          have hi'' : (l.order (k + 1))[i']? = some m := by
            obtain ⟨more, hmore⟩ := hpre
            rw [← hmore, List.getElem?_append_left (List.getElem?_eq_some_iff.mp hi').1, hi']
          have heq : i' = j := by
            apply (List.getElem?_inj (List.getElem?_eq_some_iff.mp hi'').1 hnodup).mp
            rw [hi'', hm]
          rw [← heq, hi'] at hm'
          cases hm'

theorem rewriteAt_spec {k : ℕ} (hold : Represents old l) (hl : l.Good usesDeps)
    (hk : k < l.nodes.length) (hd : Numbered d (l.order k)) (hcap : d.entriescap = old.entriescap) :
    ∃ n, l.nodes[k]? = some n ∧ rewriteAt o old k (d.withEntries (rewritten old l k)) =
      (Fallible.each (call o) (turnCalls n (l.lists k)) d).map
        (·.withEntries (rewritten old l (k + 1))) := by
  have hn : l.nodes[k]? = some l.nodes[k] := List.getElem?_eq_getElem hk
  refine ⟨_, hn, ?_⟩
  obtain ⟨entry, hentry, hat, hdesc⟩ := hold.entryAt hn
  rw [rewriteAt, hentry]
  show rewriteEntry o entry _ = _
  by_cases howner : l.Owner k
  · obtain ⟨m, ns, mtime, hlist⟩ := owner_iff.mp howner
    have hbound : ((Call.recordid l.nodes[k]).numbers (l.order k)).length ≤
        (d.withEntries (rewritten old l k)).entriescap := by
      have hle : ((Call.recordid l.nodes[k]).numbers (l.order k)).length ≤ l.nodes.length := by
        apply length_le_of_subset (nodup_numbers (nodup_order l k) _)
        intro n hn'
        rw [Call.numbers] at hn'
        split at hn'
        case isTrue => exact order_subset hl k hn'
        case isFalse =>
          rcases List.mem_append.mp hn' with h | h
          · exact order_subset hl k h
          · exact List.mem_singleton.mp h ▸ List.getElem_mem hk
      have hlen := hold.len
      have hcap' := hold.cap
      show _ ≤ d.entriescap
      omega
    rw [hlist] at hdesc ⊢
    have hnum : Numbered (d.withEntries (rewritten old l k)) (l.order k) := ⟨hd.id, hd.len⟩
    rw [rewriteEntry_owner hnum (nodup_order l k) hdesc hbound, calls_withEntries]
    cases hrun : Fallible.each (call o) (turnCalls l.nodes[k] (some (m :: ns, mtime))) d with
    | error e => rfl
    | ok e =>
      have horder : numberedBy (turnCalls l.nodes[k] (some (m :: ns, mtime))) (l.order k) =
          l.order (k + 1) := by
        rw [order, order, rewriteCalls_succ hn, numberedBy_append, hlist]
      have hnum' := calls_numbered hd hrun
      rw [horder] at hnum'
      obtain ⟨i, hi⟩ := exists_idOf (mem_order_of_owner (Nat.lt_succ_self k) hn howner)
      have hid : e.id l.nodes[k] = some i := by rw [hnum'.id, hi]
      show Except.ok (e.withEntries
        (Function.update (rewritten old l k) (idWord (e.id l.nodes[k])) (some entry))) = _
      rw [hid]
      show Except.ok (e.withEntries (Function.update (rewritten old l k) i (some entry))) = _
      rw [rewritten_succ hn howner hat hi]
      rfl
  · rw [turnCalls_of_not_owner howner, rewritten_succ_of_not_owner hn howner]
    show rewriteEntry o entry _ = .ok _
    obtain ⟨-, hdeps⟩ := hdesc
    cases hlist : l.lists k with
    | none =>
      rw [hlist] at hdeps
      cases hnone : entry.deps with
      | none => rw [rewriteEntry, hnone]
      | some deps =>
        rw [hnone] at hdeps
        cases hdeps
    | some list =>
      obtain ⟨ns, mtime⟩ := list
      cases ns with
      | cons m ns => exact absurd (owner_iff.mpr ⟨m, ns, mtime, hlist⟩) howner
      | nil =>
        rw [hlist] at hdeps
        cases hnone : entry.deps with
        | none =>
          rw [hnone] at hdeps
          cases hdeps
        | some deps =>
          rw [hnone] at hdeps
          obtain ⟨rfl, -⟩ := Prod.mk.inj (Option.some.inj hdeps)
          rw [rewriteEntry, hnone]
          rfl

theorem order_zero (l : Log) : l.order 0 = [] := rfl

theorem rewriteLoop_spec (hold : Represents old l) (hl : l.Good usesDeps) (hd : Numbered d [])
    (hentries : d.entries = old.entries) (hcap : d.entriescap = old.entriescap) {k : ℕ}
    (hk : k ≤ l.nodes.length) : Fallible.each (rewriteAt o old) (List.range k) d =
      (Fallible.each (call o) (l.rewriteCalls k) d).map (·.withEntries (rewritten old l k)) := by
  induction k with
  | zero =>
    show Except.ok d = Except.ok (d.withEntries _)
    have hzero : rewritten old l 0 = d.entries := by
      rw [hentries]
      rfl
    rw [hzero]
    rfl
  | succ k ih =>
    have hn : l.nodes[k]? = some l.nodes[k] := List.getElem?_eq_getElem hk
    rw [List.range_succ, Fallible.each_append, ih (Nat.le_of_succ_le hk), rewriteCalls_succ hn,
      Fallible.each_append]
    cases hrun : Fallible.each (call o) (l.rewriteCalls k) d with
    | error e => rfl
    | ok e =>
      have hnum : Numbered e (l.order k) := calls_numbered hd hrun
      have hcap' : e.entriescap = old.entriescap := (calls_frame hrun).2.trans hcap
      obtain ⟨n, hn', hturn⟩ := rewriteAt_spec (o := o) hold hl hk hnum hcap'
      cases hn.symm.trans hn'
      show (rewriteAt o old k (e.withEntries _)).bind _ = (Fallible.each (call o) _ e).map _
      rw [hturn]
      cases Fallible.each (call o) (turnCalls l.nodes[k] (l.lists k)) e <;> rfl

theorem resetIds_spec {nodes : List Path}
    (hat : ∀ (i : ℕ) (n : Path), nodes[i]? = some n →
      ∃ entry, old.entryAt i = .ok entry ∧ entry.node = n) {k : ℕ} (hk : k ≤ nodes.length) :
    Fallible.each resetId (List.range k) old =
      .ok { old with id := fun n => if n ∈ nodes.take k then none else old.id n } := by
  induction k with
  | zero => rfl
  | succ k ih =>
    obtain ⟨entry, hentry, hnode⟩ := hat k nodes[k] (List.getElem?_eq_getElem hk)
    rw [List.range_succ, Fallible.each_append, ih (Nat.le_of_succ_le hk)]
    have hturn : ∀ id, resetId k { old with id := id } =
        .ok { old with id := Function.update id nodes[k] none } := by
      intro id
      show (old.entryAt k).map _ = _
      rw [hentry, ← hnode]
      rfl
    show (resetId k _).bind _ = _
    rw [hturn]
    show Except.ok _ = Except.ok _
    have hid : Function.update (fun n => if n ∈ nodes.take k then none else old.id n)
        nodes[k] none = fun n => if n ∈ nodes.take (k + 1) then none else old.id n := by
      funext n
      have hmem : n ∈ nodes.take (k + 1) ↔ n ∈ nodes.take k ∨ n = nodes[k] := by
        rw [List.take_succ_eq_append_getElem hk, List.mem_append, List.mem_singleton]
      by_cases hn : n = nodes[k]
      · rw [if_pos (hmem.mpr (.inr hn)), hn, Function.update_self]
      · rw [Function.update_of_ne hn]
        simp only [hmem, or_iff_left hn]
    rw [hid]

/-- The state in which the loop of the rewrite starts. -/
def rewriteStart (o : Order) (old : Deps) : Deps :=
  { old with id := fun _ => none, entrieslen := 0, depsfile := depsstart o }

/-- The loop starts without ids. -/
theorem rewrite_eq {nodes : List Path} (o : Order) (hid : old.id = idOf nodes)
    (hlen : old.entrieslen = nodes.length)
    (hat : ∀ (i : ℕ) (n : Path), nodes[i]? = some n →
      ∃ entry, old.entryAt i = .ok entry ∧ entry.node = n) : rewrite o old =
      Fallible.each (rewriteAt o old) (List.range nodes.length) (rewriteStart o old) := by
  have hreset : (fun n => if n ∈ nodes.take nodes.length then none else old.id n) =
      fun _ => none := by
    funext n
    rw [List.take_length, hid]
    split
    case isTrue => rfl
    case isFalse hn => exact idOf_eq_none.mpr hn
  rw [rewrite, hlen, resetIds_spec hat le_rfl, hreset]
  rfl

theorem rewrite_spec (o : Order) (hold : Represents old l) (hl : l.Good usesDeps) :
    rewrite o old = (Fallible.each (call o) (l.rewriteCalls l.nodes.length) (rewriteStart o old)).map
      (·.withEntries (rewritten old l l.nodes.length)) := by
  rw [rewrite_eq o hold.id hold.len fun i n hn => by
    obtain ⟨entry, hentry, -, hdesc⟩ := hold.entryAt hn
    exact ⟨entry, hentry, hdesc.1⟩]
  exact rewriteLoop_spec (d := rewriteStart o old) hold hl ⟨rfl, rfl⟩ rfl rfl le_rfl

end Bootsh.Samu
