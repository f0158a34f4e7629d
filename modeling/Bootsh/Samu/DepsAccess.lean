import Bootsh.Samu.DepsInit

/-!
Which entries `deps.c` looks at: in `depsinit` only such as are there, and afterwards too as long
as no node is looked up that got its id without an entry.
-/
namespace Bootsh.Samu

open Bytes (Order)
open Log

variable {o : Order} {usesDeps : Path → Bool} {d d' old : Deps} {l : Log}
  {content rest : List UInt8} {rs : List Rec}

/-! ### The rewrite -/

/-- The entries are those of the nodes, and name only these. -/
structure Shape (d : Deps) (nodes : List Path) : Prop where
  id : d.id = idOf nodes
  len : d.entrieslen = nodes.length
  cap : d.entrieslen ≤ d.entriescap
  entries : ∀ (i : ℕ) (n : Path), nodes[i]? = some n → ∃ entry, d.entries i = some entry ∧
    entry.node = n ∧ ∀ ns, entry.deps = some ns → ∀ m, some m ∈ ns → m ∈ nodes

theorem Represents.shape (hd : Represents d l) (hl : l.Good usesDeps) : Shape d l.nodes := by
  refine ⟨hd.id, hd.len, hd.cap, ?_⟩
  intro i n hi
  obtain ⟨entry, hentry, hnode, hdeps⟩ := hd.entries i n hi
  refine ⟨entry, hentry, hnode, ?_⟩
  intro ns hns m hm
  rw [hns] at hdeps
  cases hlist : l.lists i with
  | none =>
    rw [hlist] at hdeps
    cases hdeps
  | some list =>
    rw [hlist] at hdeps
    obtain ⟨rfl, -⟩ := Prod.mk.inj (Option.some.inj hdeps)
    obtain ⟨m', hm', heq⟩ := List.mem_map.mp hm
    cases heq
    exact (hl.lists i list.1 list.2 hlist).2.1 m hm'

theorem HalfRead.shape (h : HalfRead old l d) (hl : l.Good usesDeps) : Shape d l.nodes := by
  obtain ⟨hold, id, n, nodes, mtime, hn, -, hnodes, rfl⟩ := h
  obtain ⟨hid, hlen, hcap, hentries⟩ := hold.shape hl
  refine ⟨hid, hlen, hcap, ?_⟩
  intro i m hi
  by_cases heq : i = id
  · subst heq
    cases hn.symm.trans hi
    refine ⟨⟨n, some nodes, mtime⟩, Function.update_self .., rfl, ?_⟩
    rintro ns ⟨rfl⟩ m hm
    exact hnodes m hm
  · obtain ⟨entry, hentry, hmem⟩ := hentries i m hi
    refine ⟨entry, ?_, hmem⟩
    show Function.update old.entries id _ i = _
    rw [Function.update_of_ne heq, hentry]

theorem Shape.entryAt {nodes : List Path} (h : Shape d nodes) {i : ℕ} {n : Path}
    (hn : nodes[i]? = some n) : ∃ entry, d.entryAt i = .ok entry ∧ entry.node = n ∧
      ∀ ns, entry.deps = some ns → ∀ m, some m ∈ ns → m ∈ nodes := by
  obtain ⟨entry, hentry, hmem⟩ := h.entries i n hn
  have hi := (List.getElem?_eq_some_iff.mp hn).1
  have hlen := h.len
  have hcap := h.cap
  exact ⟨entry, by rw [Deps.entryAt, if_pos (by omega), hentry], hmem⟩

theorem Shape.rewrite_eq {nodes : List Path} (h : Shape old nodes) (o : Order) : rewrite o old =
    Fallible.each (rewriteAt o old) (List.range nodes.length) (rewriteStart o old) := by
  apply Samu.rewrite_eq o h.id h.len
  intro i n hn
  obtain ⟨entry, hentry, hnode, -⟩ := h.entryAt hn
  exact ⟨entry, hentry, hnode⟩

theorem recordid_error {n : Path} {e : Stop} (h : recordid o n d = .error e) :
    e ≠ .entries ∧ e ≠ .pointer := by
  rw [recordid] at h
  split at h
  case h_1 => cases h
  case h_2 =>
    split at h
    case isTrue =>
      cases h
      exact ⟨by decide, by decide⟩
    case isFalse =>
    split at h
    case isTrue =>
      cases h
      exact ⟨by decide, by decide⟩
    case isFalse =>
    split at h
    case isTrue =>
      cases h
      exact ⟨by decide, by decide⟩
    case isFalse => cases h

theorem recorddeps_error {out : Path} {deps : List Path} {mtime : BitVec 64} {e : Stop}
    (h : recorddeps o out deps mtime d = .error e) : e = .fatal := by
  rw [recorddeps] at h
  split at h
  case isTrue =>
    cases h
    rfl
  case isFalse => cases h

/-- The ids that the rewrite has given so far are those of nodes of the log. -/
def Renumbered (nodes : List Path) (cap : ℕ) (d : Deps) : Prop :=
  ∃ ids : List Path, ids.Nodup ∧ ids ⊆ nodes ∧ Numbered d ids ∧ d.entriescap = cap

theorem Renumbered.recordid {nodes : List Path} {cap : ℕ} {n : Path} {new : Bool}
    (hd : Renumbered nodes cap d) (hn : n ∈ nodes) (h : recordid o n d = .ok (new, d')) :
    Renumbered nodes cap d' ∧ ∃ i < nodes.length, d'.id n = some i := by
  obtain ⟨ids, hnodup, hsub, hnum, hcap⟩ := hd
  have hnum' := recordid_numbered hnum h
  have hnodup' := nodup_numbers hnodup (.recordid n)
  have hsub' : (Call.recordid n).numbers ids ⊆ nodes := by
    intro m hm
    rw [Call.numbers] at hm
    split at hm
    case isTrue => exact hsub hm
    case isFalse =>
      rcases List.mem_append.mp hm with h | h
      · exact hsub h
      · exact List.mem_singleton.mp h ▸ hn
  have hcall : call o (.recordid n) d = .ok d' := by
    rw [call, h]
    rfl
  have hcap' := (call_frame hcall).2
  refine ⟨⟨_, hnodup', hsub', hnum', hcap'.trans hcap⟩, ?_⟩
  obtain ⟨i, hi⟩ : ∃ i, idOf ((Call.recordid n).numbers ids) n = some i := by
    apply exists_idOf
    rw [Call.numbers]
    split
    case isTrue h => exact h
    case isFalse => exact List.mem_append_right _ (List.mem_singleton_self _)
  refine ⟨i, ?_, by rw [hnum'.id, hi]⟩
  exact (idOf_lt hi).trans_le (length_le_of_subset hnodup' hsub')

/-- A node that gets an identifier, if it is one. -/
def recordnode (o : Order) : Option Path → Deps → Except Stop Deps
  | some n, s => (Samu.recordid o n s).map Prod.snd
  | none, _ => .error .pointer

theorem recordids_each (ns : List (Option Path)) (s : Deps) :
    Samu.recordids o ns s = Fallible.each (recordnode o) ns s := by
  unfold Samu.recordids
  congr 1
  funext n s
  cases n <;> rfl

theorem Renumbered.recordids {nodes : List Path} {cap : ℕ} {ns : List (Option Path)}
    (hd : Renumbered nodes cap d) (hns : ∀ m, some m ∈ ns → m ∈ nodes) :
    (∀ d', recordids o ns d = .ok d' → Renumbered nodes cap d') ∧
      recordids o ns d ≠ .error .entries := by
  have hstep : ∀ n ∈ ns, ∀ s s', Renumbered nodes cap s →
      recordnode o n s = .ok s' → Renumbered nodes cap s' := by
    intro n hn s s' hs h
    cases n with
    | none => cases h
    | some n =>
      obtain ⟨new, hid⟩ := call_recordid (o := o) h
      exact (hs.recordid (hns n hn) hid).1
  rw [recordids_each]
  refine ⟨fun d' h => Fallible.each_preserves hstep hd h, ?_⟩
  intro herr
  obtain ⟨n, -, s, -, h⟩ := Fallible.each_eq_error hstep hd herr
  cases n with
  | none => cases h
  | some n =>
    change (Samu.recordid o n s).map Prod.snd = _ at h
    cases hid : Samu.recordid o n s with
    | error e =>
      rw [hid] at h
      cases h
      exact (recordid_error hid).1 rfl
    | ok r =>
      rw [hid] at h
      cases h

theorem Renumbered.rewriteEntry {nodes : List Path} {cap : ℕ} {entry : Entry}
    (hd : Renumbered nodes cap d) (hcap : nodes.length ≤ cap) (hnode : entry.node ∈ nodes)
    (hns : ∀ ns, entry.deps = some ns → ∀ m, some m ∈ ns → m ∈ nodes) :
    (∀ d', rewriteEntry o entry d = .ok d' → Renumbered nodes cap d') ∧
      rewriteEntry o entry d ≠ .error .entries := by
  match hdeps : entry.deps with
  | none =>
    rw [Samu.rewriteEntry, hdeps]
    refine ⟨?_, by rintro ⟨⟩⟩
    rintro d' ⟨⟩
    exact hd
  | some [] =>
    rw [Samu.rewriteEntry, hdeps]
    refine ⟨?_, by rintro ⟨⟩⟩
    rintro d' ⟨⟩
    exact hd
  | some (p :: ps) =>
    rw [Samu.rewriteEntry, hdeps]
    show (∀ d', (Samu.recordid o entry.node d).bind _ = .ok d' → _) ∧
      (Samu.recordid o entry.node d).bind _ ≠ _
    cases hid : Samu.recordid o entry.node d with
    | error e =>
      refine ⟨?_, ?_⟩
      · rintro d' ⟨⟩
      · rintro ⟨⟩
        exact (recordid_error hid).1 rfl
    | ok r =>
      obtain ⟨new, d₁⟩ := r
      obtain ⟨⟨ids, hnodup, hsub, hnum, hcap₁⟩, i, hi, hidn⟩ := hd.recordid hnode hid
      have hset : d₁.setEntry (idWord (d₁.id entry.node)) entry =
          .ok (d₁.withEntries (Function.update d₁.entries i (some entry))) := by
        rw [hidn]
        have hlt : i < d₁.entriescap := by omega
        exact if_pos hlt
      have hd₂ : Renumbered nodes cap
          (d₁.withEntries (Function.update d₁.entries i (some entry))) :=
        ⟨ids, hnodup, hsub, ⟨hnum.id, hnum.len⟩, hcap₁⟩
      obtain ⟨hok, herr⟩ := hd₂.recordids (o := o) (hns _ hdeps)
      show (∀ d', (d₁.setEntry _ entry).bind _ = .ok d' → _) ∧ (d₁.setEntry _ entry).bind _ ≠ _
      rw [hset]
      show (∀ d', (Samu.recordids o (p :: ps) _).bind _ = .ok d' → _) ∧
        (Samu.recordids o (p :: ps) _).bind _ ≠ _
      constructor
      · intro d' h
        obtain ⟨d₃, h₃, hlast⟩ := Fallible.bind_eq_ok.mp h
        obtain ⟨ids, hnodup, hsub, hnum, hcap₃⟩ := hok d₃ h₃
        obtain ⟨-, rfl⟩ := recorddeps_eq hlast
        exact ⟨ids, hnodup, hsub, ⟨hnum.id, hnum.len⟩, hcap₃⟩
      · intro h
        rcases Fallible.bind_eq_error.mp h with h | ⟨d₃, -, h⟩
        · exact herr h
        · cases recorddeps_error h

theorem Shape.rewrite {nodes : List Path} (h : Shape old nodes) :
    rewrite o old ≠ .error .entries := by
  have hcap : nodes.length ≤ old.entriescap := h.len ▸ h.cap
  have hstart : Renumbered nodes old.entriescap (rewriteStart o old) :=
    ⟨[], List.nodup_nil, List.nil_subset _, ⟨rfl, rfl⟩, rfl⟩
  have hturn : ∀ i ∈ List.range nodes.length, ∀ s, Renumbered nodes old.entriescap s →
      (∀ s', rewriteAt o old i s = .ok s' → Renumbered nodes old.entriescap s') ∧
        rewriteAt o old i s ≠ .error .entries := by
    intro i hi s hs
    have hn := List.getElem?_eq_getElem (List.mem_range.mp hi)
    obtain ⟨entry, hentry, hnode, hns⟩ := h.entryAt hn
    rw [rewriteAt, hentry]
    exact hs.rewriteEntry hcap (hnode ▸ List.getElem_mem _) hns
  rw [h.rewrite_eq]
  intro herr
  obtain ⟨i, hi, s, hs, herr⟩ := Fallible.each_eq_error
    (fun i hi s s' hs hstep => (hturn i hi s hs).1 s' hstep) hstart herr
  exact (hturn i hi s hs).2 herr

/-- An array that is not filled is not written again. -/
theorem HalfRead.rewrite (h : HalfRead old l d) (hl : l.Good usesDeps) :
    rewrite o d ≠ .ok d' := by
  have hshape := h.shape hl
  obtain ⟨-, id, n, nodes, mtime, hn, hnone, -, rfl⟩ := h
  rw [hshape.rewrite_eq]
  intro hrun
  have hlt := (List.getElem?_eq_some_iff.mp hn).1
  obtain ⟨s, s', hturn⟩ := Fallible.each_mem hrun (List.mem_range.mpr hlt)
  obtain ⟨entry, hentry, -⟩ := hshape.entryAt hn
  have hentry' : entry = ⟨n, some nodes, mtime⟩ := by
    rw [Deps.entryAt] at hentry
    split at hentry
    case isFalse => cases hentry
    case isTrue =>
      dsimp only at hentry
      rw [Function.update_self] at hentry
      cases hentry
      rfl
  rw [rewriteAt, hentry, hentry'] at hturn
  cases nodes with
  | nil => cases hnone
  | cons p ps =>
    change (Samu.recordid o n s).bind _ = _ at hturn
    obtain ⟨r, -, hrest⟩ := Fallible.bind_eq_ok.mp hturn
    obtain ⟨d₁, -, hrest⟩ := Fallible.bind_eq_ok.mp hrest
    obtain ⟨d₂, hids, -⟩ := Fallible.bind_eq_ok.mp hrest
    obtain ⟨s₁, s₂, hp⟩ := Fallible.each_mem hids hnone
    cases hp

theorem depsinit_entries (o : Order) (usesDeps : Path → Bool) (cap : ℕ) (content : List UInt8) :
    depsinit o usesDeps cap content ≠ .error .entries := by
  obtain ⟨rs, l, rest, h⟩ := exists_parses o usesDeps content
  rcases depsinit_cases h cap with
    ⟨-, -, heq⟩ | ⟨-, -, old, d, hhalf, heq⟩ | ⟨-, -, old, hold, heq⟩ |
      ⟨-, -, d, -, heq⟩
  · rw [heq]
    rintro ⟨⟩
  · rw [heq]
    exact (hhalf.shape h.good).rewrite
  · rw [heq]
    exact (hold.shape h.good).rewrite
  · rw [heq]
    rintro ⟨⟩

/-! ### The run after `depsinit` -/

/-- `depsload` and `depsrecord` for an edge, by its first output. -/
inductive RunOp
  | load (out : Path) (mtime : BitVec 64)
  | record (out : Path) (deps : Option (List Path)) (mtime : BitVec 64)

def RunOp.out : RunOp → Path
  | .load out _ => out
  | .record out .. => out

def runOp (o : Order) : RunOp → Deps → Except Stop Deps
  | .load out mtime, d => (depsload out mtime d).map fun _ => d
  | .record out deps mtime, d => depsrecord o out deps mtime d

/-- The index of the entry that is looked at. -/
def RunOp.access : RunOp → Deps → Option ℕ
  | .load out _, d => d.id out
  | .record _ none _, _ => none
  | .record out (some _) _, d => d.id out

/-- The entry that is looked at is in the array, and is one of the node with that id. -/
def AccessOk (l : Log) (op : RunOp) (d : Deps) : Prop :=
  ∀ id, op.access d = some id → id < d.entriescap ∧ ∃ entry j, d.entries id = some entry ∧
    l.nodes[j]? = some op.out ∧ Describes entry op.out (l.lists j)

/-- The node had an entry when the log was read, and after a rewrite it has a list that was kept
or the id that it had. -/
def HasEntry (o : Order) (content : List UInt8) (rs : List Rec) (l : Log) (rest : List UInt8)
    (n : Path) : Prop :=
  n ∈ l.nodes ∧ (Rewrites o content rs l rest →
    (∃ j : ℕ, l.nodes[j]? = some n ∧ l.Owner j) ∨
      ∃ i : ℕ, (l.order l.nodes.length)[i]? = some n ∧ l.nodes[i]? = some n)

/-- The edge's output has no id yet, or an entry. -/
def AccessAllowed (o : Order) (content : List UInt8) (rs : List Rec) (l : Log)
    (rest : List UInt8) (op : RunOp) (d : Deps) : Prop :=
  d.id op.out = none ∨ HasEntry o content rs l rest op.out

/-- The nodes that have entries find them. -/
def Entries (o : Order) (content : List UInt8) (rs : List Rec) (l : Log) (rest : List UInt8)
    (d : Deps) : Prop :=
  ∀ n, HasEntry o content rs l rest n → ∃ i entry j, d.id n = some i ∧ i < d.entriescap ∧
    d.entries i = some entry ∧ l.nodes[j]? = some n ∧ Describes entry n (l.lists j)

theorem entryAt_lt {i : ℕ} {entry : Entry} (h : d.entryAt i = .ok entry) :
    i < d.entriescap ∧ d.entries i = some entry := by
  rw [Deps.entryAt] at h
  split at h
  case isFalse => cases h
  case isTrue hlt =>
    cases hentry : d.entries i with
    | none =>
      rw [hentry] at h
      cases h
    | some e =>
      rw [hentry] at h
      cases h
      exact ⟨hlt, rfl⟩

theorem depsinit_hasEntries (h : Parses o usesDeps content rs l rest) {cap : ℕ}
    (hinit : depsinit o usesDeps cap content = .ok d) : Entries o content rs l rest d := by
  have hl := h.good
  rcases depsinit_cases h cap with
    ⟨-, -, heq⟩ | ⟨-, -, old, d', hhalf, heq⟩ | ⟨-, hrewrites, old, hold, heq⟩ |
      ⟨-, hkept, d', hd', heq⟩
  · rw [heq] at hinit
    cases hinit
  · rw [heq] at hinit
    exact absurd hinit (hhalf.rewrite hl)
  · rw [heq] at hinit
    intro n hn
    obtain ⟨i, hi⟩ : ∃ i : ℕ, (l.order l.nodes.length)[i]? = some n := by
      rcases hn.2 hrewrites with ⟨j, hj, howner⟩ | ⟨i, hi, -⟩
      · have hlt := (List.getElem?_eq_some_iff.mp hj).1
        exact List.mem_iff_getElem?.mp (mem_order_of_owner hlt hj howner)
      · exact ⟨i, hi⟩
    obtain ⟨j, m, entry, hj, hm, hid, hentry, hdesc⟩ := entryAt_rewritten hold hl hinit hi
    obtain ⟨hlt, hat⟩ := entryAt_lt hentry
    have hnode : l.nodes[j]? = some n := by
      rcases hj with hj | ⟨hnone, rfl⟩
      · exact (lastOwner_spec hj).2.1
      · rcases hn.2 hrewrites with ⟨j', hj', howner⟩ | ⟨i, hi', hsame⟩
        · obtain ⟨i', hi', -⟩ :=
            exists_lastOwner (List.getElem?_eq_some_iff.mp hj').1 hj' howner
          rw [hi'] at hnone
          cases hnone
        · have heq : i = j := by
            apply (List.getElem?_inj (List.getElem?_eq_some_iff.mp hi').1 (nodup_order l _)).mp
            rw [hi', hi]
          exact heq ▸ hsame
    cases hm.symm.trans hnode
    exact ⟨i, entry, j, hid, hlt, hat, hm, hdesc⟩
  · rw [heq] at hinit
    cases hinit
    intro n hn
    obtain ⟨i, hi⟩ := exists_idOf hn.1
    obtain ⟨entry, hentry, hat, hdesc⟩ := hd'.entryAt (idOf_eq_some hi)
    refine ⟨i, entry, i, ?_, (entryAt_lt hentry).1, hat, idOf_eq_some hi, hdesc⟩
    show d'.id n = some i
    rw [hd'.id, hi]

/-- What does not change when records are written. -/
def Keeps (d d' : Deps) : Prop :=
  d'.entries = d.entries ∧ d'.entriescap = d.entriescap ∧ ∀ n i, d.id n = some i → d'.id n = some i

theorem Keeps.trans {d₁ d₂ d₃ : Deps} (h : Keeps d₁ d₂) (h' : Keeps d₂ d₃) : Keeps d₁ d₃ :=
  ⟨h'.1.trans h.1, h'.2.1.trans h.2.1, fun n i hi => h'.2.2 n i (h.2.2 n i hi)⟩

theorem Keeps.entries (h : Keeps d d') (hd : Entries o content rs l rest d) :
    Entries o content rs l rest d' := by
  intro n hn
  obtain ⟨i, entry, j, hid, hlt, hat, hrest⟩ := hd n hn
  exact ⟨i, entry, j, h.2.2 n i hid, h.2.1 ▸ hlt, h.1 ▸ hat, hrest⟩

theorem call_keeps {c : Call} (h : call o c d = .ok d') : Keeps d d' := by
  refine ⟨(call_frame h).1, (call_frame h).2, ?_⟩
  intro n i hi
  cases c with
  | recordid m =>
    obtain ⟨new, hid⟩ := call_recordid h
    rcases recordid_cases hid with ⟨-, -, rfl⟩ | ⟨hnone, -, -, -, -, rfl⟩
    · exact hi
    · show Function.update d.id m _ n = _
      rw [Function.update_of_ne, hi]
      rintro rfl
      rw [hi] at hnone
      cases hnone
  | recorddeps out deps mtime =>
    obtain ⟨-, rfl⟩ := recorddeps_eq h
    exact hi

theorem calls_keep {cs : List Call} (h : Fallible.each (call o) cs d = .ok d') : Keeps d d' :=
  Fallible.each_preserves (P := Keeps d) (fun _ _ _ _ hs hcall => hs.trans (call_keeps hcall))
    ⟨rfl, rfl, fun _ _ h => h⟩ h

theorem runOp_keeps {op : RunOp} (h : runOp o op d = .ok d') : Keeps d d' := by
  cases op with
  | load out mtime =>
    cases hload : depsload out mtime d with
    | error e =>
      rw [runOp, hload] at h
      cases h
    | ok r =>
      rw [runOp, hload] at h
      cases h
      exact ⟨rfl, rfl, fun _ _ h => h⟩
  | record out deps mtime =>
    cases deps with
    | none =>
      cases h
      exact ⟨rfl, rfl, fun _ _ h => h⟩
    | some deps =>
      obtain ⟨⟨new, d₁⟩, hid, h⟩ := Fallible.bind_eq_ok.mp h
      obtain ⟨update, -, h⟩ := Fallible.bind_eq_ok.mp h
      obtain ⟨d₂, hids, h⟩ := Fallible.bind_eq_ok.mp h
      rw [recordids_eq] at hids
      have hkeeps : Keeps d d₂ :=
        (call_keeps (c := .recordid out) (by rw [call, hid]; rfl)).trans (calls_keep hids)
      split at h
      case isTrue => exact hkeeps.trans (call_keeps (c := .recorddeps out deps mtime) h)
      case isFalse =>
        cases h
        exact hkeeps

/-- A log with the node `a`. -/
def oneNode : List UInt8 := depsstart .little ++ (nodeRecord .little [97] 0 ++ [] ++ [])

theorem oneNode_parses :
    Parses .little (fun _ => true) oneNode [.node [97]] ⟨[[97]], fun _ => none⟩ [] := by
  have henc : Encodes .little 0 (.node [97]) (nodeRecord .little [97] 0) :=
    nodeRecord_encodes ⟨97, rfl, by decide⟩ (by decide) (by decide) (by decide)
  refine .records rfl (.cons henc trivial (.nil _)) ?_
  intro r bs' rest' heq hr
  have hlen := hr.four_le
  have hnil := congrArg List.length heq
  rw [List.length_nil, List.length_append] at hnil
  omega

end Bootsh.Samu
