import Bootsh.Samu.DepsLoop
import Mathlib.Data.List.Nodup

/-!
What `recordid` and `recorddeps` append to the log: valid records, which say what they were
called with, as long as the sizes fit into their words.
-/
namespace Bootsh.Samu

open Bytes (Order)
open Log

variable {o : Order} {usesDeps : Path → Bool} {d d' : Deps} {l : Log}

inductive Call
  | recordid (n : Path)
  | recorddeps (out : Path) (deps : List Path) (mtime : BitVec 64)

def call (o : Order) : Call → Deps → Except Stop Deps
  | .recordid n, d => (recordid o n d).map Prod.snd
  | .recorddeps out deps mtime, d => recorddeps o out deps mtime d

/-- What the callers of the two functions see to: paths are not empty and shorter than a record
may be, and the nodes of a list have ids. -/
def Allowed : Call → Deps → Prop
  | .recordid n, _ => n ≠ [] ∧ n.length < MAX_RECORD_SIZE
  | .recorddeps out deps _, d => ∀ n ∈ out :: deps, (d.id n).isSome

/-- The path of the node does not end in a NUL, and the size of the list fits into a word. -/
def Call.Fits : Call → Prop
  | .recordid n => n.getLast? ≠ some 0
  | .recorddeps _ deps _ => deps.length < 2 ^ 30 - 4

/-- What a call records for an output. -/
def Call.writes : Call → Path → Option (List Path × BitVec 64)
  | .recordid _, _ => none
  | .recorddeps out' deps mtime, out => if out' = out then some (deps, mtime) else none

/-- The list and the mtime that were recorded last for an output. -/
def written : List Call → Path → Option (List Path × BitVec 64)
  | [], _ => none
  | c :: cs, out => (written cs out).or (c.writes out)

/-- The nodes that have ids, in their order, after a call. -/
def Call.numbers : Call → List Path → List Path
  | .recordid n, nodes => if n ∈ nodes then nodes else nodes ++ [n]
  | .recorddeps .., nodes => nodes

/-- The nodes that have ids after some calls. -/
def numberedBy (cs : List Call) (nodes : List Path) : List Path :=
  cs.foldl (fun nodes c => c.numbers nodes) nodes

/-- The nodes that have ids, in their order. -/
structure Numbered (d : Deps) (nodes : List Path) : Prop where
  id : d.id = idOf nodes
  len : d.entrieslen = nodes.length

theorem clean_iff {n : Path} : Clean n ↔ n ≠ [] ∧ n.getLast? ≠ some 0 := by
  cases hlast : n.getLast? with
  | none =>
    rw [List.getLast?_eq_none_iff] at hlast
    simp [Clean, hlast]
  | some c =>
    have hne : n ≠ [] := by
      rintro rfl
      cases hlast
    simp [Clean, hlast, hne]

/-! ### One call -/

/-- `recordid` does nothing, or gives the next id and appends the record of the node. -/
theorem recordid_cases {n : Path} {new : Bool} (h : recordid o n d = .ok (new, d')) :
    ((d.id n).isSome ∧ new = false ∧ d' = d) ∨
    (d.id n = none ∧ new = true ∧ d.entrieslen ≠ INT32_MAX ∧
      (nodeSize n + 4) % 2 ^ 32 < MAX_RECORD_SIZE ∧ n.length + 4 ≤ nodeSize n ∧
      d' = { d with
        id := Function.update d.id n (some d.entrieslen)
        entrieslen := d.entrieslen + 1
        depsfile := d.depsfile ++ nodeRecord o n d.entrieslen }) := by
  rw [recordid] at h
  split at h
  case h_1 id hid =>
    cases h
    exact .inl ⟨by rw [hid]; rfl, rfl, rfl⟩
  case h_2 hid =>
    split at h
    case isTrue => cases h
    case isFalse hfull =>
    split at h
    case isTrue => cases h
    case isFalse hsize =>
    split at h
    case isTrue => cases h
    case isFalse hpad =>
      cases h
      exact .inr ⟨hid, rfl, hfull, Nat.lt_of_not_le hsize, Nat.le_of_not_lt hpad, rfl⟩

theorem recorddeps_eq {out : Path} {deps : List Path} {mtime : BitVec 64}
    (h : recorddeps o out deps mtime d = .ok d') :
    (depsSize deps + 4) % 2 ^ 32 < MAX_RECORD_SIZE ∧
      d' = d.depswrite (depsRecord o d.id out deps mtime) := by
  rw [recorddeps] at h
  split at h
  case isTrue => cases h
  case isFalse hsize =>
    cases h
    exact ⟨Nat.lt_of_not_le hsize, rfl⟩

theorem nodeRecord_encodes {n : Path} {k : ℕ} (hn : Clean n) (hlen : n.length < MAX_RECORD_SIZE)
    (hsize : (nodeSize n + 4) % 2 ^ 32 < MAX_RECORD_SIZE) (hk : k < INT32_MAX) :
    Encodes o k (.node n) (nodeRecord o n k) := by
  have hmax : MAX_RECORD_SIZE = 2 ^ 19 := rfl
  have heq : nodeSize n = (n.length + 7) / 4 * 4 := by
    rw [nodeSize, Nat.mod_eq_of_lt (by omega)]
  have hpad : n.length + (nodeSize n - n.length - 4) + 4 = nodeSize n := by omega
  have henc : Encodes o k (.node n) _ :=
    @Encodes.node o k n (nodeSize n - n.length - 4) hn (by omega) (by omega) hk
  rw [hpad] at henc
  rw [nodeRecord, List.append_assoc, List.append_assoc]
  rw [List.append_assoc] at henc
  exact henc

theorem recordid_numbered {nodes : List Path} {n : Path} {new : Bool} (hd : Numbered d nodes)
    (h : recordid o n d = .ok (new, d')) : Numbered d' ((Call.recordid n).numbers nodes) := by
  rcases recordid_cases h with ⟨hsome, -, rfl⟩ | ⟨hnone, -, -, -, -, rfl⟩
  · rw [hd.id] at hsome
    rw [Call.numbers, if_pos (idOf_isSome.mp hsome)]
    exact hd
  · rw [hd.id] at hnone
    rw [Call.numbers, if_neg (idOf_eq_none.mp hnone)]
    refine ⟨?_, ?_⟩
    · funext m
      show Function.update d.id n (some d.entrieslen) m = idOf (nodes ++ [n]) m
      rw [idOf_append_singleton, hd.id, hd.len]
      by_cases hm : n = m
      · rw [← hm, Function.update_self, if_pos rfl]
      · rw [Function.update_of_ne (Ne.symm hm), if_neg hm]
    · show d.entrieslen + 1 = (nodes ++ [n]).length
      rw [List.length_append, List.length_singleton, hd.len]

theorem recordid_records {n : Path} {new : Bool} (hd : Numbered d l.nodes) (hl : l.Good usesDeps)
    (hn : Clean n) (hlen : n.length < MAX_RECORD_SIZE) (h : recordid o n d = .ok (new, d')) :
    ∃ rs bs l', Records usesDeps o l rs bs l' ∧ d'.depsfile = d.depsfile ++ bs ∧ Numbered d' l'.nodes ∧
      l'.nodes = (Call.recordid n).numbers l.nodes ∧ (∀ m, l'.listOf m = l.listOf m) := by
  rcases recordid_cases h with ⟨hsome, -, rfl⟩ | ⟨hnone, -, hfull, hsize, -, rfl⟩
  · rw [hd.id] at hsome
    exact ⟨[], [], l, .nil l, (List.append_nil _).symm, hd, (if_pos (idOf_isSome.mp hsome)).symm,
      fun m => rfl⟩
  · have hk : l.nodes.length < INT32_MAX := by
      have hle := hl.length
      have heq := hd.len
      omega
    have henc := nodeRecord_encodes (o := o) hn hlen hsize hk
    have hnew : n ∉ l.nodes := by
      rw [hd.id] at hnone
      exact idOf_eq_none.mp hnone
    have hnum := recordid_numbered hd h
    rw [Call.numbers, if_neg hnew] at hnum
    refine ⟨_, _, _, .single henc trivial, ?_, hnum, (if_neg hnew).symm, ?_⟩
    · rw [hd.len]
    · intro m
      show (idOf (l.nodes ++ [n]) m).bind l.lists = (idOf l.nodes m).bind l.lists
      rw [idOf_append_singleton]
      split
      case isFalse => rfl
      case isTrue hm =>
        subst hm
        rw [← hd.id, hnone, Option.bind_none, Option.bind_some]
        cases hlist : l.lists l.nodes.length with
        | none => rfl
        | some list =>
          obtain ⟨⟨m, hm, -⟩, -⟩ := hl.lists _ list.1 list.2 hlist
          have hlt := (List.getElem?_eq_some_iff.mp hm).1
          omega

theorem low_word (m : BitVec 64) : (m &&& 0xffffffff).toNat = m.toNat % 2 ^ 32 := by
  rw [BitVec.toNat_and]
  exact Nat.and_two_pow_sub_one_eq_mod m.toNat 32

theorem high_word (m : BitVec 64) : (m.sshiftRight 32 &&& 0xffffffff).toNat = m.toNat / 2 ^ 32 := by
  have hmask : ∀ i, (0xffffffff : BitVec 64).getLsbD i = decide (i < 32) := by
    intro i
    show (2 ^ 32 - 1).testBit i = _
    rw [Nat.testBit_two_pow_sub_one]
  have h : m.sshiftRight 32 &&& (0xffffffff : BitVec 64) = m >>> 32 := by
    apply BitVec.eq_of_getLsbD_eq
    intro i hi
    rw [BitVec.getLsbD_and, BitVec.getLsbD_sshiftRight, BitVec.getLsbD_ushiftRight, hmask]
    by_cases h32 : i < 32
    · have h1 : 32 + i < 64 := by omega
      have h2 : ¬ 64 ≤ i := by omega
      simp [h1, h2, h32]
    · have h1 : m.getLsbD (32 + i) = false := BitVec.getLsbD_of_ge _ _ (by omega)
      simp [h32, h1]
  rw [h, BitVec.toNat_ushiftRight, Nat.shiftRight_eq_div_pow]

theorem depsSize_eq {deps : List Path} (h : deps.length < 2 ^ 30 - 4) :
    depsSize deps = 12 + 4 * deps.length := by
  rw [depsSize, Nat.mod_eq_of_lt (by omega), Nat.mul_comm]

theorem or_high {n : ℕ} (h : n < 2 ^ 31) : n ||| 0x80000000 = 2 ^ 31 + n := by
  have heq := Nat.two_pow_add_eq_or_of_lt h 1
  rw [Nat.mul_one] at heq
  rw [Nat.or_comm, heq]

/-- The integers of the record behind its size. -/
theorem depsRecord_words (id : Path → Option ℕ) (out : Path) (deps : List Path)
    (mtime : BitVec 64) : depsRecord o id out deps mtime = word o (depsSize deps ||| 0x80000000) ++
      o.encodeAll 4 (depsWords (idWord (id out)) mtime (deps.map fun n => idWord (id n))) := by
  have hdeps : (deps.flatMap fun n => word o (idWord (id n))) =
      o.encodeAll 4 (deps.map fun n => idWord (id n)) := by
    rw [Order.encodeAll, List.flatMap_map]
    rfl
  rw [depsRecord, low_word, high_word, hdeps, depsWords, Order.encodeAll_cons,
    Order.encodeAll_cons, Order.encodeAll_cons]
  simp only [List.append_assoc]
  rfl

theorem Numbered.getElem_idWord (hd : Numbered d l.nodes) {n : Path} (hn : (d.id n).isSome) :
    l.nodes[idWord (d.id n)]? = some n ∧ idOf l.nodes n = some (idWord (d.id n)) := by
  obtain ⟨i, hi⟩ := Option.isSome_iff_exists.mp hn
  rw [hi]
  rw [hd.id] at hi
  exact ⟨idOf_eq_some hi, hi⟩

theorem Numbered.filterMap_ids (hd : Numbered d l.nodes) {ns : List Path}
    (hns : ∀ n ∈ ns, (d.id n).isSome) :
    (ns.map fun n => idWord (d.id n)).filterMap (fun i => l.nodes[i]?) = ns := by
  induction ns with
  | nil => rfl
  | cons n ns ih =>
    rw [List.map_cons, List.filterMap_cons, (hd.getElem_idWord (hns n List.mem_cons_self)).1]
    exact congrArg _ (ih fun m hm => hns m (List.mem_cons_of_mem _ hm))

theorem Numbered.idWord_lt (hd : Numbered d l.nodes) (hl : l.Good usesDeps) {n : Path}
    (hn : (d.id n).isSome) : idWord (d.id n) < l.nodes.length ∧ idWord (d.id n) < 2 ^ 31 := by
  have hlt := (List.getElem?_eq_some_iff.mp (hd.getElem_idWord hn).1).1
  have hle := hl.length
  have hmax : INT32_MAX < 2 ^ 31 := by decide
  omega

theorem recorddeps_records {out : Path} {deps : List Path} {mtime : BitVec 64}
    (hd : Numbered d l.nodes) (hl : l.Good usesDeps) (hout : (d.id out).isSome)
    (hdeps : ∀ n ∈ deps, (d.id n).isSome) (hfits : deps.length < 2 ^ 30 - 4)
    (h : recorddeps o out deps mtime d = .ok d') :
    ∃ rs bs l', Records usesDeps o l rs bs l' ∧ d'.depsfile = d.depsfile ++ bs ∧ Numbered d' l'.nodes ∧
      l'.nodes = l.nodes ∧ (∀ m, usesDeps m = true →
        l'.listOf m = if out = m then some (deps, mtime) else l.listOf m) := by
  obtain ⟨hsize, rfl⟩ := recorddeps_eq h
  have hmax : MAX_RECORD_SIZE = 2 ^ 19 := rfl
  rw [depsSize_eq hfits, Nat.mod_eq_of_lt (by omega)] at hsize
  have hids : ∀ i ∈ deps.map fun n => idWord (d.id n), i < l.nodes.length ∧ i < 2 ^ 32 := by
    intro i hi
    obtain ⟨n, hn, rfl⟩ := List.mem_map.mp hi
    have hlt := hd.idWord_lt hl (hdeps n hn)
    omega
  obtain ⟨hget, hidOf⟩ := hd.getElem_idWord hout
  have hidlt := hd.idWord_lt hl hout
  have henc : Encodes o l.nodes.length
      (.deps (idWord (d.id out)) mtime (deps.map fun n => idWord (d.id n)))
      (depsRecord o d.id out deps mtime) := by
    rw [depsRecord_words, depsSize_eq hfits, or_high (by omega)]
    have henc := @Encodes.deps o l.nodes.length (idWord (d.id out)) mtime
      (deps.map fun n => idWord (d.id n)) (by rw [List.length_map]; omega) (by omega)
      fun i hi => (hids i hi).2
    rw [List.length_map] at henc
    exact henc
  have hvalid : l.Valid usesDeps
      (.deps (idWord (d.id out)) mtime (deps.map fun n => idWord (d.id n))) :=
    ⟨out, hget, fun _ i hi => (hids i hi).1⟩
  have hnodes : (l.apply usesDeps
      (.deps (idWord (d.id out)) mtime (deps.map fun n => idWord (d.id n)))).nodes = l.nodes := by
    rw [Log.apply]
    split <;> rfl
  refine ⟨_, _, _, .single henc hvalid, rfl, ?_, hnodes, ?_⟩
  · exact ⟨by rw [hnodes]; exact hd.id, by rw [hnodes]; exact hd.len⟩
  · intro m hm
    rw [Log.apply, hget]
    by_cases hu : usesDeps out = true
    · rw [if_pos (show (some out).any usesDeps = true from hu)]
      show (idOf l.nodes m).bind (Function.update l.lists _ _) = _
      rw [hd.filterMap_ids hdeps]
      split
      case isTrue heq =>
        rw [← heq, hidOf, Option.bind_some, Function.update_self]
      case isFalse hne =>
        rw [Log.listOf]
        cases hi : idOf l.nodes m with
        | none => rfl
        | some i =>
          rw [Option.bind_some, Option.bind_some, Function.update_of_ne]
          rintro rfl
          have heq := (idOf_eq_some hi).symm.trans hget
          exact hne (Option.some.inj heq).symm
    · rw [if_neg (show ¬ (some out).any usesDeps = true from hu), if_neg]
      rintro rfl
      exact hu hm

/-! ### Several calls -/

theorem call_recordid {n : Path} (h : call o (.recordid n) d = .ok d') :
    ∃ new, recordid o n d = .ok (new, d') := by
  cases hid : recordid o n d with
  | error => rw [call, hid] at h; cases h
  | ok r =>
    rw [call, hid] at h
    cases h
    exact ⟨r.1, rfl⟩

theorem call_records {c : Call} (hd : Numbered d l.nodes) (hl : l.Good usesDeps) (hc : Allowed c d)
    (hfits : c.Fits) (h : call o c d = .ok d') :
    ∃ rs bs l', Records usesDeps o l rs bs l' ∧ d'.depsfile = d.depsfile ++ bs ∧ Numbered d' l'.nodes ∧
      l'.nodes = c.numbers l.nodes ∧
      (∀ m, usesDeps m = true → l'.listOf m = (c.writes m).or (l.listOf m)) := by
  cases c with
  | recordid n =>
    obtain ⟨new, hid⟩ := call_recordid h
    obtain ⟨rs, bs, l', hrs, hfile, hnum, hnodes, hlists⟩ :=
      recordid_records hd hl (clean_iff.mpr ⟨hc.1, hfits⟩) hc.2 hid
    exact ⟨rs, bs, l', hrs, hfile, hnum, hnodes, fun m _ => hlists m⟩
  | recorddeps out deps mtime =>
    obtain ⟨rs, bs, l', hrs, hfile, hnum, hnodes, hlists⟩ := recorddeps_records hd hl
      (hc out List.mem_cons_self) (fun n hn => hc n (List.mem_cons_of_mem _ hn)) hfits h
    refine ⟨rs, bs, l', hrs, hfile, hnum, hnodes, ?_⟩
    intro m hm
    rw [hlists m hm, Call.writes]
    split <;> rfl

/-- The calls append valid records, which give the list that was recorded last. -/
theorem calls_records {cs : List Call} (hd : Numbered d l.nodes) (hl : l.Good usesDeps)
    (hcs : Fallible.Along (call o) Allowed cs d) (hfits : ∀ c ∈ cs, c.Fits)
    (h : Fallible.each (call o) cs d = .ok d') :
    ∃ rs bs l', Records usesDeps o l rs bs l' ∧ d'.depsfile = d.depsfile ++ bs ∧ Numbered d' l'.nodes ∧
      l'.nodes = numberedBy cs l.nodes ∧
      (∀ m, usesDeps m = true → l'.listOf m = (written cs m).or (l.listOf m)) := by
  induction cs generalizing d l with
  | nil =>
    cases h
    exact ⟨[], [], l, .nil l, (List.append_nil _).symm, hd, rfl, fun m _ => rfl⟩
  | cons c cs ih =>
    obtain ⟨d₁, hcall, hrest⟩ := Fallible.bind_eq_ok.mp h
    obtain ⟨rs, bs, l₁, hrs, hfile, hnum, hnodes, hlists⟩ :=
      call_records hd hl hcs.1 (hfits c List.mem_cons_self) hcall
    obtain ⟨rs', bs', l', hrs', hfile', hnum', hnodes', hlists'⟩ := ih hnum (hrs.good hl)
      (hcs.2 d₁ hcall) (fun c hc => hfits c (List.mem_cons_of_mem _ hc)) hrest
    refine ⟨rs ++ rs', bs ++ bs', l', hrs.append hrs', ?_, hnum', ?_, ?_⟩
    · rw [hfile', hfile, List.append_assoc]
    · rw [hnodes', hnodes]
      rfl
    · intro m hm
      rw [hlists' m hm, hlists m hm, written, Option.or_assoc]

theorem call_appends {c : Call} (h : call o c d = .ok d') :
    ∃ bs, d'.depsfile = d.depsfile ++ bs := by
  cases c with
  | recordid n =>
    obtain ⟨new, hid⟩ := call_recordid h
    rcases recordid_cases hid with ⟨-, -, rfl⟩ | ⟨-, -, -, -, -, rfl⟩
    · exact ⟨[], (List.append_nil _).symm⟩
    · exact ⟨_, rfl⟩
  | recorddeps out deps mtime =>
    obtain ⟨-, rfl⟩ := recorddeps_eq h
    exact ⟨_, rfl⟩

theorem calls_append {cs : List Call} (h : Fallible.each (call o) cs d = .ok d') :
    ∃ bs, d'.depsfile = d.depsfile ++ bs := by
  apply Fallible.each_preserves (P := fun d' : Deps => ∃ bs, d'.depsfile = d.depsfile ++ bs) _ _ h
  · intro c _ d₁ d₂ ⟨bs, hbs⟩ hcall
    obtain ⟨bs', hbs'⟩ := call_appends hcall
    exact ⟨bs ++ bs', by rw [hbs', hbs, List.append_assoc]⟩
  · exact ⟨[], (List.append_nil _).symm⟩

theorem call_numbered {nodes : List Path} {c : Call} (hd : Numbered d nodes)
    (h : call o c d = .ok d') : Numbered d' (c.numbers nodes) := by
  cases c with
  | recordid n =>
    obtain ⟨new, hid⟩ := call_recordid h
    exact recordid_numbered hd hid
  | recorddeps out deps mtime =>
    obtain ⟨-, rfl⟩ := recorddeps_eq h
    exact ⟨hd.id, hd.len⟩

theorem calls_numbered {nodes : List Path} {cs : List Call} (hd : Numbered d nodes)
    (h : Fallible.each (call o) cs d = .ok d') : Numbered d' (numberedBy cs nodes) := by
  induction cs generalizing d nodes with
  | nil =>
    cases h
    exact hd
  | cons c cs ih =>
    obtain ⟨d₁, hcall, hrest⟩ := Fallible.bind_eq_ok.mp h
    exact ih (call_numbered hd hcall) hrest

theorem prefix_numbers (c : Call) (nodes : List Path) : nodes <+: c.numbers nodes := by
  cases c with
  | recordid n =>
    rw [Call.numbers]
    split
    case isTrue => exact List.prefix_rfl
    case isFalse => exact List.prefix_append _ _
  | recorddeps => exact List.prefix_rfl

theorem numberedBy_append (cs cs' : List Call) (nodes : List Path) :
    numberedBy (cs ++ cs') nodes = numberedBy cs' (numberedBy cs nodes) := List.foldl_append

theorem prefix_numberedBy (cs : List Call) (nodes : List Path) : nodes <+: numberedBy cs nodes := by
  induction cs generalizing nodes with
  | nil => exact List.prefix_rfl
  | cons c cs ih => exact (prefix_numbers c nodes).trans (ih _)

theorem mem_numberedBy {cs : List Call} {nodes : List Path} {n : Path} :
    n ∈ numberedBy cs nodes ↔ n ∈ nodes ∨ .recordid n ∈ cs := by
  induction cs generalizing nodes with
  | nil => simp [numberedBy]
  | cons c cs ih =>
    show n ∈ numberedBy cs (c.numbers nodes) ↔ _
    rw [ih, List.mem_cons]
    cases c with
    | recordid m =>
      have hmem : n ∈ (Call.recordid m).numbers nodes ↔ n ∈ nodes ∨ n = m := by
        rw [Call.numbers]
        split
        case isTrue hm =>
          constructor
          · exact .inl
          · rintro (h | rfl)
            · exact h
            · exact hm
        case isFalse => rw [List.mem_append, List.mem_singleton]
      rw [hmem, Call.recordid.injEq, or_assoc]
    | recorddeps out deps mtime =>
      have hne : Call.recordid n ≠ .recorddeps out deps mtime := by
        rintro ⟨⟩
      rw [or_iff_right hne]
      exact Iff.rfl

theorem nodup_numbers {nodes : List Path} (h : nodes.Nodup) (c : Call) :
    (c.numbers nodes).Nodup := by
  cases c with
  | recordid n =>
    rw [Call.numbers]
    split
    case isTrue => exact h
    case isFalse hn =>
      apply List.Nodup.append h (List.nodup_singleton n)
      rw [List.disjoint_singleton]
      exact hn
  | recorddeps => exact h

theorem nodup_numberedBy {cs : List Call} {nodes : List Path} (h : nodes.Nodup) :
    (numberedBy cs nodes).Nodup := by
  induction cs generalizing nodes with
  | nil => exact h
  | cons c cs ih => exact ih (nodup_numbers h c)

theorem calls_id {cs : List Call} {nodes : List Path} (hd : Numbered d nodes)
    (h : Fallible.each (call o) cs d = .ok d') {n : Path} (hn : .recordid n ∈ cs) :
    (d'.id n).isSome := by
  rw [(calls_numbered hd h).id, idOf_isSome]
  exact mem_numberedBy.mpr (.inr hn)

/-- Ids are not changed. -/
theorem idOf_prefix {nodes nodes' : List Path} (h : nodes <+: nodes') (hnodup : nodes'.Nodup)
    {n : Path} {i : ℕ} (hi : idOf nodes n = some i) : idOf nodes' n = some i := by
  have hget : nodes'[i]? = some n := by
    obtain ⟨more, rfl⟩ := h
    rw [List.getElem?_append_left (idOf_lt hi), idOf_eq_some hi]
  obtain ⟨j, hj⟩ := exists_idOf (List.mem_of_getElem? hget)
  have heq : j = i := by
    apply (List.getElem?_inj (idOf_lt hj) hnodup).mp
    rw [idOf_eq_some hj, hget]
  rw [hj, heq]

/-- Records that are appended to valid ones are read with them. -/
theorem load_appended {rs : List Rec} {bs : List UInt8} {cs : List Call} (cap : ℕ)
    (hrs : Records usesDeps o Log.empty rs bs l) (hd : Numbered d l.nodes)
    (hfile : d.depsfile = depsstart o ++ bs) (hcs : Fallible.Along (call o) Allowed cs d)
    (hfits : ∀ c ∈ cs, c.Fits) (h : Fallible.each (call o) cs d = .ok d') :
    ∃ d₂ n₂, load o usesDeps cap d'.depsfile = .ok (.done d₂ n₂ []) ∧ d₂.id = d'.id ∧
      ∀ n, usesDeps n = true → recorded d₂ n = ((written cs n).or (l.listOf n)).map filled := by
  obtain ⟨rs', bs', l', hrs', hfile', hnum, -, hlists⟩ :=
    calls_records hd (hrs.good Log.empty_good) hcs hfits h
  obtain ⟨d₂, hd₂, hload⟩ := load_records cap (hrs.append hrs')
  refine ⟨d₂, (rs ++ rs').length, ?_, hd₂.id.trans hnum.id.symm, ?_⟩
  · rw [hfile', hfile, List.append_assoc]
    exact hload
  · intro n hn
    rw [hd₂.recorded, hlists n hn]

end Bootsh.Samu
