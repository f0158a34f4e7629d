import Bootsh.Samu.DepsFormat

/-!
What one turn of the loop over the records in `depsinit` does: it reads a valid record, and finds
all others to be bad but for two kinds.
-/
namespace Bootsh.Samu

open Bytes (Order)
open Log

variable {o : Order} {usesDeps : Path → Bool} {d : Deps} {l : Log}

/-! ### The parts of a record -/

theorem length_word (n : ℕ) : (word o n).length = 4 := o.length_encode 4 n

theorem decode_word {n : ℕ} (hn : n < 2 ^ 32) : o.decode (word o n) = n := by
  rw [word, Order.decode_encode, Nat.mod_eq_of_lt (by omega)]

theorem exists_word (o : Order) {bs : List UInt8} (h : bs.length = 4) : ∃ n < 2 ^ 32, bs = word o n := by
  have hlt := o.decode_lt bs
  have heq := o.encode_decode bs
  rw [h] at hlt heq
  exact ⟨o.decode bs, by omega, heq.symm⟩

theorem wordAt_encodeAll {ws : List ℕ} (hws : ∀ w ∈ ws, w < 2 ^ 32) {i : ℕ} (hi : i < ws.length) :
    wordAt o (o.encodeAll 4 ws) i = .ok ws[i] := by
  have hw := hws _ (List.getElem_mem hi)
  rw [wordAt, if_pos (by rw [Order.length_encodeAll]; omega), Order.take_drop_encodeAll o hi]
  exact congrArg Except.ok (decode_word hw)

theorem wordAt_last {body : List UInt8} {chk : ℕ} (hbody : body.length % 4 = 0)
    (hchk : chk < 2 ^ 32) :
    wordAt o (body ++ word o chk) ((body ++ word o chk).length / 4 - 1) = .ok chk := by
  have hlen : (body ++ word o chk).length = body.length + 4 := by
    rw [List.length_append, length_word]
  have hidx : 4 * ((body ++ word o chk).length / 4 - 1) = body.length := by omega
  have htake : (word o chk).take 4 = word o chk :=
    List.take_of_length_le (by rw [length_word])
  rw [wordAt, if_pos (by omega), hidx, List.drop_left, htake, decode_word hchk]

/-- The padding of a path is taken off again. -/
theorem stripNul_pad {n tail : List UInt8} (hn : Clean n) (pad : ℕ) :
    stripNul (n ++ List.replicate pad 0 ++ tail) (n.length + pad) = .ok n.length := by
  induction pad generalizing tail with
  | zero =>
    obtain ⟨c, hlast, hc⟩ := hn
    obtain ⟨m, rfl⟩ := List.getLast?_eq_some_iff.mp hlast
    have hget : (m ++ [c] ++ List.replicate 0 0 ++ tail)[m.length]? = some c := by simp
    rw [Nat.add_zero, List.length_append, List.length_singleton, stripNul, hget]
    exact if_neg hc
  | succ pad ih =>
    have hsplit : n ++ List.replicate (pad + 1) 0 ++ tail =
        n ++ List.replicate pad 0 ++ (0 :: tail) := by
      rw [List.replicate_succ', ← List.append_assoc, List.append_assoc _ [0]]
      rfl
    have hget : (n ++ List.replicate pad 0 ++ (0 :: tail))[n.length + pad]? = some 0 := by
      rw [List.getElem?_append_right (by simp)]
      simp
    rw [hsplit, ← Nat.add_assoc, stripNul, hget]
    exact ih

theorem stripNul_nul (k : ℕ) (tail : List UInt8) :
    stripNul (List.replicate k 0 ++ tail) k = .error .buffer := by
  induction k generalizing tail with
  | zero => rfl
  | succ k ih =>
    have hsplit : List.replicate (k + 1) (0 : UInt8) ++ tail = List.replicate k 0 ++ (0 :: tail) := by
      rw [List.replicate_succ', List.append_assoc]
      rfl
    have hget : (List.replicate k (0 : UInt8) ++ (0 :: tail))[k]? = some 0 := by
      rw [List.getElem?_append_right (by simp)]
      simp
    rw [hsplit, stripNul, hget]
    exact ih _

/-- Bytes are NULs, or a path and NULs that pad it. -/
theorem nul_or_clean (body : List UInt8) : body = List.replicate body.length 0 ∨
    ∃ n pad, Clean n ∧ body = n ++ List.replicate pad 0 := by
  induction body using List.reverseRecOn with
  | nil => exact .inl rfl
  | append_singleton body c ih =>
    by_cases hc : c = 0
    · subst hc
      rcases ih with h | ⟨n, pad, hn, h⟩
      · left
        rw [List.length_append, List.length_singleton, List.replicate_succ', ← h]
      · refine .inr ⟨n, pad + 1, hn, ?_⟩
        rw [List.replicate_succ', ← List.append_assoc, ← h]
    · exact .inr ⟨body ++ [c], 0, ⟨c, by simp, hc⟩, by simp⟩

theorem mtime_words {low high : ℕ} (hlow : low < 2 ^ 32) (hhigh : high < 2 ^ 32) :
    ∃ mtime, BitVec.ofNat 64 high <<< 32 ||| BitVec.ofNat 64 low = mtime ∧
      mtime.toNat % 2 ^ 32 = low ∧ mtime.toNat / 2 ^ 32 = high := by
  refine ⟨_, rfl, ?_⟩
  have hvalue : (BitVec.ofNat 64 high <<< 32 ||| BitVec.ofNat 64 low).toNat = high * 2 ^ 32 + low := by
    rw [BitVec.toNat_or, BitVec.toNat_shiftLeft, BitVec.toNat_ofNat, BitVec.toNat_ofNat,
      Nat.mod_eq_of_lt (by omega : high < 2 ^ 64), Nat.mod_eq_of_lt (by omega : low < 2 ^ 64),
      Nat.shiftLeft_eq, Nat.mod_eq_of_lt (by omega), Nat.mul_comm,
      ← Nat.two_pow_add_eq_or_of_lt hlow]
  rw [hvalue]
  omega

theorem mtime_of_words (mtime : BitVec 64) :
    BitVec.ofNat 64 (mtime.toNat / 2 ^ 32) <<< 32 ||| BitVec.ofNat 64 (mtime.toNat % 2 ^ 32) =
      mtime := by
  have hlt := mtime.isLt
  obtain ⟨t, ht, hlow, hhigh⟩ := mtime_words
    (by omega : mtime.toNat % 2 ^ 32 < 2 ^ 32) (by omega : mtime.toNat / 2 ^ 32 < 2 ^ 32)
  rw [ht]
  apply BitVec.eq_of_toNat_eq
  omega

/-! ### The frame of a record -/

theorem loadRecord_framed {w : ℕ} {buf rest : List UInt8} (hw : w < 2 ^ 32)
    (hlen : w % 2 ^ 31 = buf.length) (hne : buf ≠ []) (h4 : buf.length % 4 = 0)
    (hmax : buf.length ≤ MAX_RECORD_SIZE) :
    loadRecord o usesDeps d (word o w ++ buf ++ rest) =
      if 2 ^ 31 ≤ w then loadDeps o usesDeps d buf rest else loadNode o d buf rest := by
  have hpos := List.length_pos_iff.mpr hne
  have htake : (word o w ++ buf ++ rest).take 4 = word o w := by
    rw [List.append_assoc, List.take_left' (length_word _)]
  have hdrop : (word o w ++ buf ++ rest).drop 4 = buf ++ rest := by
    rw [List.append_assoc, List.drop_left' (length_word _)]
  have hrest : (word o w ++ buf ++ rest).drop (4 + buf.length) = rest :=
    List.drop_left' (by rw [List.length_append, length_word])
  have hshort : ¬ (word o w ++ buf ++ rest).length < 4 := by
    rw [List.length_append, List.length_append, length_word]
    omega
  rw [loadRecord, if_neg hshort, htake, decode_word hw]
  dsimp only
  rw [hlen, hdrop, List.take_left, hrest, if_neg (Nat.not_lt.mpr hmax), if_neg (by omega),
    if_neg (by omega)]

theorem loadRecord_node {buf rest : List UInt8} (hne : buf ≠ []) (h4 : buf.length % 4 = 0)
    (hmax : buf.length ≤ MAX_RECORD_SIZE) :
    loadRecord o usesDeps d (word o buf.length ++ buf ++ rest) = loadNode o d buf rest := by
  have hlt : buf.length < 2 ^ 31 := lt_of_le_of_lt hmax (by decide)
  rw [loadRecord_framed (by omega) (Nat.mod_eq_of_lt hlt) hne h4 hmax, if_neg (by omega)]

theorem loadRecord_deps {buf rest : List UInt8} (hne : buf ≠ []) (h4 : buf.length % 4 = 0)
    (hmax : buf.length ≤ MAX_RECORD_SIZE) :
    loadRecord o usesDeps d (word o (2 ^ 31 + buf.length) ++ buf ++ rest) =
      loadDeps o usesDeps d buf rest := by
  have hlt : buf.length < 2 ^ 31 := lt_of_le_of_lt hmax (by decide)
  rw [loadRecord_framed (by omega) (by omega) hne h4 hmax, if_pos (by omega)]

/-- What is not the frame of a record is bad. -/
theorem loadRecord_frame (o : Order) (usesDeps : Path → Bool) (d : Deps) (input : List UInt8) :
    (input.length < 4 ∧ loadRecord o usesDeps d input = .ok (.eof input)) ∨
    loadRecord o usesDeps d input = .ok (.bad d) ∨
    ∃ buf rest, buf ≠ [] ∧ buf.length % 4 = 0 ∧ buf.length ≤ MAX_RECORD_SIZE ∧
      (input = word o buf.length ++ buf ++ rest ∨ input = word o (2 ^ 31 + buf.length) ++ buf ++ rest) := by
  by_cases hshort : input.length < 4
  · exact .inl ⟨hshort, by rw [loadRecord, if_pos hshort]⟩
  right
  by_cases hbad : loadRecord o usesDeps d input = .ok (.bad d)
  · exact .inl hbad
  right
  have hfour : (input.take 4).length = 4 := by
    rw [List.length_take]
    omega
  obtain ⟨w, hw, htake⟩ := exists_word o hfour
  have hinput : input = word o w ++ input.drop 4 := by rw [← htake, List.take_append_drop]
  rw [loadRecord, if_neg hshort, htake, decode_word hw] at hbad
  simp only at hbad
  split at hbad
  case isTrue => exact absurd rfl hbad
  case isFalse hmax =>
  split at hbad
  case isTrue => exact absurd rfl hbad
  case isFalse hread =>
  split at hbad
  case isTrue => exact absurd rfl hbad
  case isFalse h4 =>
  have hle : ((input.drop 4).take (w % 2 ^ 31)).length ≤ w % 2 ^ 31 := by
    rw [List.length_take]
    exact Nat.min_le_left _ _
  have hlen : ((input.drop 4).take (w % 2 ^ 31)).length = w % 2 ^ 31 := by omega
  have hbuf : input.drop 4 =
      (input.drop 4).take (w % 2 ^ 31) ++ (input.drop 4).drop (w % 2 ^ 31) :=
    (List.take_append_drop _ _).symm
  refine ⟨(input.drop 4).take (w % 2 ^ 31), (input.drop 4).drop (w % 2 ^ 31), ?_, ?_, ?_, ?_⟩
  · intro h
    rw [h, List.length_nil] at hlen
    omega
  · omega
  · omega
  · rw [hlen, List.append_assoc, ← hbuf, List.append_assoc, ← hbuf]
    by_cases hdep : 2 ^ 31 ≤ w
    · right
      have hw' : 2 ^ 31 + w % 2 ^ 31 = w := by omega
      rw [hw']
      exact hinput
    · left
      have hw' : w % 2 ^ 31 = w := by omega
      rw [hw']
      exact hinput

/-! ### The array of entries -/

/-- The array of a list, with all elements set. -/
def filled (list : List Path × BitVec 64) : List (Option Path) × BitVec 64 :=
  (list.1.map some, list.2)

/-- The entry of a node says what a log says of its id. -/
def Describes (entry : Entry) (n : Path) (list : Option (List Path × BitVec 64)) : Prop :=
  entry.node = n ∧ entry.deps.map (·, entry.mtime) = list.map filled

/-- The variables of `deps.c` say what the log says. -/
structure Represents (d : Deps) (l : Log) : Prop where
  id : d.id = idOf l.nodes
  len : d.entrieslen = l.nodes.length
  cap : d.entrieslen ≤ d.entriescap
  entries : ∀ i n, l.nodes[i]? = some n → ∃ entry, d.entries i = some entry ∧
    Describes entry n (l.lists i)

/-- What holds of every log of valid records. -/
structure Log.Good (usesDeps : Path → Bool) (l : Log) : Prop where
  length : l.nodes.length ≤ INT32_MAX
  nodes : ∀ n ∈ l.nodes, Clean n ∧ n.length + 4 ≤ MAX_RECORD_SIZE
  lists : ∀ i ns mtime, l.lists i = some (ns, mtime) →
    (∃ n, l.nodes[i]? = some n ∧ usesDeps n = true) ∧ (∀ m ∈ ns, m ∈ l.nodes) ∧
      12 + 4 * ns.length ≤ MAX_RECORD_SIZE

theorem noDeps_represents (cap : ℕ) : Represents (noDeps cap) Log.empty :=
  ⟨rfl, rfl, Nat.zero_le cap, fun i n h => by simp [Log.empty] at h⟩

theorem Log.empty_good : Log.empty.Good usesDeps := by
  refine ⟨Nat.zero_le _, ?_, ?_⟩
  · intro n h
    simp [Log.empty] at h
  · intro i ns mtime h
    cases h

theorem Log.Good.apply {r : Rec} {bs : List UInt8} (hl : l.Good usesDeps)
    (hr : Encodes o l.nodes.length r bs) (hv : l.Valid usesDeps r) :
    (l.apply usesDeps r).Good usesDeps := by
  cases hr with
  | node hn hsize hmax hk =>
    refine ⟨?_, ?_, ?_⟩
    · show (l.nodes ++ _).length ≤ _
      rw [List.length_append, List.length_singleton]
      omega
    · intro n h
      rcases List.mem_append.mp h with h | h
      · exact hl.nodes n h
      · cases List.mem_singleton.mp h
        exact ⟨hn, by omega⟩
    · intro i ns mtime h
      obtain ⟨⟨n, hi, hu⟩, hns, hlen⟩ := hl.lists i ns mtime h
      refine ⟨⟨n, ?_, hu⟩, fun m hm => List.mem_append_left _ (hns m hm), hlen⟩
      show (l.nodes ++ _)[i]? = some n
      rw [List.getElem?_append_left (List.getElem?_eq_some_iff.mp hi).1, hi]
  | @deps id mtime ids hmax hid hids =>
    obtain ⟨n, hn, -⟩ := hv
    rw [Log.apply]
    split
    case isFalse => exact hl
    case isTrue hu =>
      rw [hn] at hu
      refine ⟨hl.length, hl.nodes, ?_⟩
      intro i ns t h
      change Function.update l.lists id _ i = _ at h
      by_cases hi : i = id
      · subst hi
        rw [Function.update_self] at h
        obtain ⟨rfl, rfl⟩ := Prod.mk.inj (Option.some.inj h)
        refine ⟨⟨n, hn, hu⟩, ?_, ?_⟩
        · intro m hm
          obtain ⟨j, -, hj⟩ := List.mem_filterMap.mp hm
          exact List.mem_of_getElem? hj
        · have hle := List.length_filterMap_le (fun i => l.nodes[i]?) ids
          omega
      · rw [Function.update_of_ne hi] at h
        exact hl.lists i ns t h

theorem Log.Records.good {l l' : Log} {rs : List Rec} {bs : List UInt8}
    (h : Records usesDeps o l rs bs l') (hl : l.Good usesDeps) : l'.Good usesDeps := by
  induction h with
  | nil => exact hl
  | cons hr hv _ ih => exact ih (hl.apply hr hv)

theorem Represents.entryAt (hd : Represents d l) {i : ℕ} {n : Path} (hn : l.nodes[i]? = some n) :
    ∃ entry, d.entryAt i = .ok entry ∧ d.entries i = some entry ∧
      Describes entry n (l.lists i) := by
  obtain ⟨entry, hentry, hdesc⟩ := hd.entries i n hn
  have hi := (List.getElem?_eq_some_iff.mp hn).1
  have hlen := hd.len
  have hcap := hd.cap
  refine ⟨entry, ?_, hentry, hdesc⟩
  rw [Deps.entryAt, if_pos (by omega), hentry]

/-- There is always room for one more entry. -/
theorem Represents.lt_grown (hd : Represents d l) : d.entrieslen < grown d ∧
    d.entriescap ≤ grown d := by
  have hcap := hd.cap
  rw [grown]
  split
  case isTrue =>
    split <;> omega
  case isFalse => omega

theorem addNode_represents (hd : Represents d l) (hl : l.Good usesDeps) (n : Path) :
    ∃ d', addNode n d = .ok d' ∧ Represents d' (l.apply usesDeps (.node n)) := by
  obtain ⟨hroom, hgrown⟩ := hd.lt_grown
  refine ⟨_, if_pos hroom, ?_⟩
  refine ⟨?_, ?_, hroom, ?_⟩
  · funext m
    show Function.update d.id n (some d.entrieslen) m = idOf (l.nodes ++ [n]) m
    rw [idOf_append_singleton, hd.id, hd.len]
    by_cases hm : n = m
    · rw [← hm, Function.update_self, if_pos rfl]
    · rw [Function.update_of_ne (Ne.symm hm), if_neg hm]
  · show d.entrieslen + 1 = (l.nodes ++ [n]).length
    rw [List.length_append, List.length_singleton, hd.len]
  · intro i m hm
    change (l.nodes ++ [n])[i]? = some m at hm
    show ∃ entry, Function.update d.entries d.entrieslen _ i = some entry ∧
      Describes entry m (l.lists i)
    by_cases hi : i = l.nodes.length
    · rw [hi, List.getElem?_concat_length] at hm
      cases hm
      refine ⟨⟨n, none, 0⟩, ?_, rfl, ?_⟩
      · rw [hd.len, hi, Function.update_self]
      · cases hlist : l.lists i with
        | none => rfl
        | some list =>
          obtain ⟨⟨n', hn', -⟩, -⟩ := hl.lists i list.1 list.2 hlist
          have hlt := (List.getElem?_eq_some_iff.mp hn').1
          omega
    · have hlt : i < l.nodes.length := by
        have hlt := (List.getElem?_eq_some_iff.mp hm).1
        rw [List.length_append, List.length_singleton] at hlt
        omega
      rw [List.getElem?_append_left hlt] at hm
      rw [hd.len, Function.update_of_ne hi]
      exact hd.entries i m hm

theorem loadList_spec (o : Order) (hd : Represents d l) (pre ids : List ℕ) (i : ℕ)
    (hpre : pre.length = 3 + i) (hwords : ∀ w ∈ pre ++ ids, w < 2 ^ 32) :
    ((∀ id ∈ ids, id < l.nodes.length) ∧ loadList o d (o.encodeAll 4 (pre ++ ids)) i ids.length =
        .ok (true, (ids.filterMap fun id => l.nodes[id]?).map some)) ∨
    ((∃ id ∈ ids, l.nodes.length ≤ id) ∧ ∃ nodes, none ∈ nodes ∧
      (∀ n, some n ∈ nodes → n ∈ l.nodes) ∧
      loadList o d (o.encodeAll 4 (pre ++ ids)) i ids.length = .ok (false, nodes)) := by
  induction ids generalizing pre i with
  | nil => exact .inl ⟨by simp, rfl⟩
  | cons id ids ih =>
    have hidx : 3 + i < (pre ++ id :: ids).length := by
      rw [List.length_append, List.length_cons]
      omega
    have hget : (pre ++ id :: ids)[3 + i] = id := by
      have hsome : (pre ++ id :: ids)[3 + i]? = some id := by rw [← hpre]; simp
      exact (List.getElem?_eq_some_iff.mp hsome).2
    have hword : wordAt o (o.encodeAll 4 (pre ++ id :: ids)) (3 + i) = .ok id := by
      rw [wordAt_encodeAll hwords hidx, hget]
    have hsplit : pre ++ id :: ids = (pre ++ [id]) ++ ids := by simp
    have hpre' : (pre ++ [id]).length = 3 + (i + 1) := by
      rw [List.length_append, List.length_singleton]
      omega
    have ih' := ih _ _ hpre' (hsplit ▸ hwords)
    rw [List.length_cons, loadList, hword]
    simp only [Except.bind]
    rw [hd.len]
    by_cases hid : l.nodes.length ≤ id
    · refine .inr ⟨⟨id, List.mem_cons_self, hid⟩, List.replicate (ids.length + 1) none, ?_, ?_, ?_⟩
      · rw [List.replicate_succ]
        exact List.mem_cons_self
      · intro n hn
        cases List.eq_of_mem_replicate hn
      · rw [if_pos hid]
    · have hn : l.nodes[id]? = some (l.nodes.get ⟨id, by omega⟩) := List.getElem?_eq_getElem _
      obtain ⟨entry, hentry, -, hdesc⟩ := hd.entryAt hn
      rw [if_neg hid, hentry, hsplit]
      dsimp only
      rcases ih' with ⟨hall, hload⟩ | ⟨⟨id', hid', hle⟩, nodes, hnone, hnodes, hload⟩
      · refine .inl ⟨?_, ?_⟩
        · intro id' hid'
          rcases List.mem_cons.mp hid' with rfl | hid'
          · omega
          · exact hall id' hid'
        · rw [hload, List.filterMap_cons, hn, hdesc.1]
          rfl
      · refine .inr ⟨⟨id', List.mem_cons_of_mem _ hid', hle⟩, some entry.node :: nodes, ?_, ?_, ?_⟩
        · exact List.mem_cons_of_mem _ hnone
        · intro n hn'
          rcases List.mem_cons.mp hn' with heq | hn'
          · cases heq
            rw [hdesc.1]
            exact List.mem_of_getElem? hn
          · exact hnodes n hn'
        · rw [hload]
          rfl

/-! ### A turn of the loop -/

/-- A record of a node with the right checksum whose path is nothing but NULs. -/
def NulPath (o : Order) (l : Log) (input : List UInt8) : Prop :=
  ∃ k rest, 0 < k ∧ (k + 4) % 4 = 0 ∧ k + 4 ≤ MAX_RECORD_SIZE ∧ l.nodes.length < INT32_MAX ∧
    input = word o (k + 4) ++ (List.replicate k 0 ++ word o (2 ^ 32 - 1 - l.nodes.length)) ++ rest

/-- A record that lists an id that no node has, for an output whose list matters. -/
def UnknownDep (o : Order) (usesDeps : Path → Bool) (l : Log) (input : List UInt8) : Prop :=
  ∃ id mtime ids rest n, 12 + 4 * ids.length ≤ MAX_RECORD_SIZE ∧ (∀ i ∈ ids, i < 2 ^ 32) ∧
    l.nodes[id]? = some n ∧ usesDeps n = true ∧ (∃ i ∈ ids, l.nodes.length ≤ i) ∧
    input = word o (2 ^ 31 + (12 + 4 * ids.length)) ++ o.encodeAll 4 (depsWords id mtime ids) ++ rest

theorem depsWords_lt {id : ℕ} (mtime : BitVec 64) {ids : List ℕ} (hid : id < 2 ^ 32)
    (hids : ∀ i ∈ ids, i < 2 ^ 32) : ∀ w ∈ depsWords id mtime ids, w < 2 ^ 32 := by
  have hlt := mtime.isLt
  intro w hw
  rcases List.mem_cons.mp hw with rfl | hw
  · exact hid
  rcases List.mem_cons.mp hw with rfl | hw
  · omega
  rcases List.mem_cons.mp hw with rfl | hw
  · omega
  · exact hids w hw

theorem length_depsWords (id : ℕ) (mtime : BitVec 64) (ids : List ℕ) :
    (o.encodeAll 4 (depsWords id mtime ids)).length = 12 + 4 * ids.length := by
  rw [Order.length_encodeAll]
  show 4 * (ids.length + 3) = _
  omega

/-- The integers of the record of a list, read back. -/
theorem loadDeps_words (o : Order) (usesDeps : Path → Bool) (d : Deps) {id : ℕ}
    {mtime : BitVec 64} {ids : List ℕ} (rest : List UInt8) (hid : id < 2 ^ 32)
    (hids : ∀ i ∈ ids, i < 2 ^ 32) :
    loadDeps o usesDeps d (o.encodeAll 4 (depsWords id mtime ids)) rest =
      if d.entrieslen ≤ id then .ok (.bad d)
      else (d.entryAt id).bind fun entry =>
        if usesDeps entry.node then
          (loadList o d (o.encodeAll 4 (depsWords id mtime ids)) 0 ids.length).bind
            fun (ok, nodes) => (d.setEntry id ⟨entry.node, some nodes, mtime⟩).map fun d =>
              if ok then .next d rest else .bad d
        else (d.setEntry id { entry with mtime }).map fun d => .next d rest := by
  have hwords := depsWords_lt mtime hid hids
  have hlen : (depsWords id mtime ids).length = ids.length + 3 := rfl
  have h0 : wordAt o (o.encodeAll 4 (depsWords id mtime ids)) 0 = .ok id :=
    wordAt_encodeAll hwords (by omega)
  have h1 : wordAt o (o.encodeAll 4 (depsWords id mtime ids)) 1 = .ok (mtime.toNat % 2 ^ 32) :=
    wordAt_encodeAll hwords (by omega)
  have h2 : wordAt o (o.encodeAll 4 (depsWords id mtime ids)) 2 = .ok (mtime.toNat / 2 ^ 32) :=
    wordAt_encodeAll hwords (by omega)
  have hcount : (12 + 4 * ids.length - 12) / 4 = ids.length := by omega
  rw [loadDeps, length_depsWords, if_neg (by omega), h0]
  simp only [Except.bind, h1, h2, hcount, mtime_of_words]

/-- The bytes of the record of a node. -/
theorem loadNode_body (o : Order) (d : Deps) {body : List UInt8} {chk : ℕ} (rest : List UInt8)
    (hpos : 0 < body.length) (h4 : body.length % 4 = 0) (hchk : chk < 2 ^ 32) :
    loadNode o d (body ++ word o chk) rest =
      if d.entrieslen ≠ 2 ^ 32 - 1 - chk then .ok (.bad d)
      else if d.entrieslen = INT32_MAX then .ok (.bad d)
      else (stripNul (body ++ word o chk) body.length).bind fun len =>
        (addNode ((body ++ word o chk).take len) d).map fun d => .next d rest := by
  have hlen : (body ++ word o chk).length = body.length + 4 := by
    rw [List.length_append, length_word]
  rw [loadNode, if_neg (by omega), wordAt_last h4 hchk, hlen, Nat.add_sub_cancel]
  rfl

theorem Represents.setEntry (hd : Represents d l) {id : ℕ} {n : Path} (hn : l.nodes[id]? = some n)
    (entry : Entry) : d.setEntry id entry =
      .ok { d with entries := Function.update d.entries id (some entry) } := by
  have hi := (List.getElem?_eq_some_iff.mp hn).1
  have hlen := hd.len
  have hcap := hd.cap
  exact if_pos (by omega)

theorem Represents.update (hd : Represents d l) {id : ℕ} {n : Path} {entry : Entry}
    {lists : ℕ → Option (List Path × BitVec 64)} (hn : l.nodes[id]? = some n)
    (hentry : Describes entry n (lists id)) (hlists : ∀ i ≠ id, lists i = l.lists i) :
    Represents { d with entries := Function.update d.entries id (some entry) }
      { l with lists := lists } := by
  refine ⟨hd.id, hd.len, hd.cap, ?_⟩
  intro i m hm
  show ∃ e, Function.update d.entries id _ i = some e ∧ Describes e m (lists i)
  by_cases hi : i = id
  · subst hi
    cases hn.symm.trans hm
    exact ⟨entry, Function.update_self .., hentry⟩
  · rw [Function.update_of_ne hi, hlists i hi]
    exact hd.entries i m hm

/-- A valid record is read, and what it says is kept. -/
theorem loadRecord_encodes (hd : Represents d l) (hl : l.Good usesDeps) {r : Rec}
    {bs : List UInt8} (hr : Encodes o l.nodes.length r bs) (hv : l.Valid usesDeps r)
    (rest : List UInt8) : ∃ d', loadRecord o usesDeps d (bs ++ rest) = .ok (.next d' rest) ∧
      Represents d' (l.apply usesDeps r) := by
  cases hr with
  | @node n pad hn hsize hmax hk =>
    have hbody : (n ++ List.replicate pad (0 : UInt8)).length = n.length + pad := by simp
    have hlen : (n ++ List.replicate pad 0 ++ word o (2 ^ 32 - 1 - l.nodes.length)).length =
        n.length + pad + 4 := by rw [List.length_append, length_word, hbody]
    have hne : n ++ List.replicate pad 0 ++ word o (2 ^ 32 - 1 - l.nodes.length) ≠ [] := by
      intro h
      rw [h, List.length_nil] at hlen
      omega
    have hpos : 0 < n.length := by
      obtain ⟨c, hc, -⟩ := hn
      exact List.length_pos_iff.mpr (by rintro rfl; cases hc)
    have hid := hd.len
    have hmax' : INT32_MAX < 2 ^ 32 := by decide
    obtain ⟨d', hadd, hd'⟩ := addNode_represents hd hl n
    refine ⟨d', ?_, hd'⟩
    rw [← hlen, loadRecord_node hne (by omega) (by omega),
      loadNode_body o d rest (by omega) (by omega) (by omega), if_neg (by omega), if_neg (by omega),
      hbody, stripNul_pad hn pad]
    simp only [Except.bind, List.append_assoc, List.take_left, hadd]
    rfl
  | @deps id mtime ids hmax hid hids =>
    obtain ⟨n, hn, hknown⟩ := hv
    have hlt := (List.getElem?_eq_some_iff.mp hn).1
    have hlen := length_depsWords (o := o) id mtime ids
    have hne : o.encodeAll 4 (depsWords id mtime ids) ≠ [] := by
      intro h
      rw [h, List.length_nil] at hlen
      omega
    have hidlen := hd.len
    obtain ⟨entry, hentry, hat, hnode, hdeps⟩ := hd.entryAt hn
    rw [← hlen, loadRecord_deps hne (by omega) (by omega), loadDeps_words o usesDeps d rest hid hids,
      if_neg (by omega), hentry]
    simp only [Except.bind, hnode, hd.setEntry hn]
    rw [Log.apply, hn]
    by_cases hu : usesDeps n = true
    · rw [if_pos hu]
      have hlist := loadList_spec o hd [id, mtime.toNat % 2 ^ 32, mtime.toNat / 2 ^ 32] ids 0
        rfl (depsWords_lt mtime hid hids)
      rcases hlist with ⟨-, hload⟩ | ⟨⟨i, hi, hle⟩, -⟩
      · change loadList o d (o.encodeAll 4 (depsWords id mtime ids)) 0 ids.length = _ at hload
        rw [hload]
        refine ⟨_, rfl, ?_⟩
        rw [if_pos (show (some n).any usesDeps = true from hu)]
        apply hd.update hn
        · exact ⟨rfl, by rw [Function.update_self]; rfl⟩
        · intro i hi
          exact Function.update_of_ne hi ..
      · have hlt' := hknown hu i hi
        omega
    · rw [if_neg hu, if_neg (show ¬ (some n).any usesDeps = true from hu)]
      refine ⟨_, rfl, ?_⟩
      apply hd.update hn _ fun i _ => rfl
      refine ⟨rfl, ?_⟩
      cases hlist : l.lists id with
      | none =>
        rw [hlist] at hdeps
        cases hnone : entry.deps with
        | none => rfl
        | some nodes =>
          rw [hnone] at hdeps
          cases hdeps
      | some list =>
        obtain ⟨⟨n', hn', hu'⟩, -⟩ := hl.lists id list.1 list.2 hlist
        cases hn.symm.trans hn'
        exact absurd hu' hu

theorem loadRecord_nulPath (hd : Represents d l) {input : List UInt8} (h : NulPath o l input) :
    loadRecord o usesDeps d input = .error .buffer := by
  obtain ⟨k, rest, hk, h4, hmax, hlt, rfl⟩ := h
  have hbody : (List.replicate k (0 : UInt8)).length = k := List.length_replicate
  have hlen : (List.replicate k 0 ++ word o (2 ^ 32 - 1 - l.nodes.length)).length = k + 4 := by
    rw [List.length_append, length_word, hbody]
  have hne : List.replicate k 0 ++ word o (2 ^ 32 - 1 - l.nodes.length) ≠ [] := by
    intro h
    rw [h, List.length_nil] at hlen
    omega
  have hid := hd.len
  have hmax' : INT32_MAX < 2 ^ 32 := by decide
  rw [← hlen, loadRecord_node hne (by omega) (by omega),
    loadNode_body o d rest (by omega) (by omega) (by omega), if_neg (by omega), if_neg (by omega),
    hbody, stripNul_nul]
  rfl

theorem loadRecord_unknownDep (hd : Represents d l) {input : List UInt8}
    (h : UnknownDep o usesDeps l input) :
    ∃ id n nodes mtime, l.nodes[id]? = some n ∧ none ∈ nodes ∧ (∀ m, some m ∈ nodes → m ∈ l.nodes) ∧
      loadRecord o usesDeps d input = .ok (.bad { d with
        entries := Function.update d.entries id (some ⟨n, some nodes, mtime⟩) }) := by
  obtain ⟨id, mtime, ids, rest, n, hmax, hids, hn, hu, ⟨i, hi, hle⟩, rfl⟩ := h
  have hlt := (List.getElem?_eq_some_iff.mp hn).1
  have hid : id < 2 ^ 32 := hlt.trans_le (hle.trans (hids i hi).le)
  have hlen := length_depsWords (o := o) id mtime ids
  have hne : o.encodeAll 4 (depsWords id mtime ids) ≠ [] := by
    intro h
    rw [h, List.length_nil] at hlen
    omega
  have hidlen := hd.len
  obtain ⟨entry, hentry, -, hnode, -⟩ := hd.entryAt hn
  have hlist := loadList_spec o hd [id, mtime.toNat % 2 ^ 32, mtime.toNat / 2 ^ 32] ids 0 rfl
    (depsWords_lt mtime hid hids)
  rcases hlist with ⟨hall, -⟩ | ⟨-, nodes, hnone, hnodes, hload⟩
  · have hlt' := hall i hi
    omega
  · change loadList o d (o.encodeAll 4 (depsWords id mtime ids)) 0 ids.length = _ at hload
    refine ⟨id, n, nodes, mtime, hn, hnone, hnodes, ?_⟩
    rw [← hlen, loadRecord_deps hne (by omega) (by omega), loadDeps_words o usesDeps d rest hid hids,
      if_neg (by omega), hentry]
    simp only [Except.bind, hnode, if_pos hu, hload, hd.setEntry hn]
    rfl

/-- What the loop can meet: the end of the file, a valid record, one of the two records that are
not caught in time, or a record that is found to be bad. -/
theorem loadRecord_cases (hd : Represents d l) (hl : l.Good usesDeps) (o : Order)
    (input : List UInt8) :
    (input.length < 4 ∧ loadRecord o usesDeps d input = .ok (.eof input)) ∨
    loadRecord o usesDeps d input = .ok (.bad d) ∨
    (∃ r bs rest, input = bs ++ rest ∧ Encodes o l.nodes.length r bs ∧ l.Valid usesDeps r) ∨
    NulPath o l input ∨ UnknownDep o usesDeps l input := by
  rcases loadRecord_frame o usesDeps d input with h | h | ⟨buf, rest, hne, h4, hmax, hinput⟩
  · exact .inl h
  · exact .inr (.inl h)
  right
  by_cases hbad : loadRecord o usesDeps d input = .ok (.bad d)
  · exact .inl hbad
  right
  have hpos := List.length_pos_iff.mpr hne
  have hidlen := hd.len
  have hmax' : MAX_RECORD_SIZE = 2 ^ 19 := rfl
  rcases hinput with rfl | rfl
  · rw [loadRecord_node hne h4 hmax] at hbad
    have hbuf : 4 < buf.length := by
      by_contra h
      exact hbad (if_pos (by omega))
    have hdrop : (buf.drop (buf.length - 4)).length = 4 := by
      rw [List.length_drop]
      omega
    obtain ⟨chk, hchk, hword⟩ := exists_word (o := o) hdrop
    have hsplit : buf = buf.take (buf.length - 4) ++ word o chk := by
      rw [← hword, List.take_append_drop]
    have htake : (buf.take (buf.length - 4)).length = buf.length - 4 := by
      rw [List.length_take]
      omega
    rw [hsplit, loadNode_body o d rest (by omega) (by omega) hchk] at hbad
    split at hbad
    case isTrue => exact absurd rfl hbad
    case isFalse hid =>
    split at hbad
    case isTrue => exact absurd rfl hbad
    case isFalse hfull =>
    have hchk' : chk = 2 ^ 32 - 1 - l.nodes.length := by omega
    subst hchk'
    have hk : l.nodes.length < INT32_MAX := by
      have hle := hl.length
      omega
    rcases nul_or_clean (buf.take (buf.length - 4)) with hnul | ⟨n, pad, hn, hbody⟩
    · refine .inr (.inl ⟨buf.length - 4, rest, by omega, by omega, by omega, hk, ?_⟩)
      rw [htake] at hnul
      rw [← hnul, ← hsplit, Nat.sub_add_cancel (by omega)]
    · left
      have hlen : n.length + pad = buf.length - 4 := by
        rw [← htake, hbody, List.length_append, List.length_replicate]
      rw [hbody] at hsplit
      refine ⟨.node n, _, rest, rfl, ?_, trivial⟩
      have henc : Encodes o l.nodes.length (.node n) _ :=
        @Encodes.node o _ n pad hn (by omega) (by omega) hk
      have hsize : n.length + pad + 4 = buf.length := by omega
      rw [hsize, ← hsplit] at henc
      exact henc
  · rw [loadRecord_deps hne h4 hmax] at hbad
    have hquarter : buf.length = 4 * (buf.length / 4) := by omega
    obtain ⟨ws, hws, hlt, hbuf⟩ := o.exists_encodeAll 4 hquarter
    have h12 : 12 ≤ buf.length := by
      by_contra h
      exact hbad (if_pos (by omega))
    match ws, hws, hlt, hbuf with
    | [], hws, _, _ | [_], hws, _, _ | [_, _], hws, _, _ =>
      simp only [List.length_nil, List.length_cons] at hws
      omega
    | id :: low :: high :: ids, hws, hlt, hbuf =>
      simp only [List.length_cons] at hws
      obtain ⟨mtime, -, hlow, hhigh⟩ := mtime_words (hlt low (by simp)) (hlt high (by simp))
      have hwords : id :: low :: high :: ids = depsWords id mtime ids := by
        rw [depsWords, hlow, hhigh]
      rw [hwords] at hbuf
      have hid : id < 2 ^ 32 := hlt id (by simp)
      have hids : ∀ i ∈ ids, i < 2 ^ 32 := fun i hi => hlt i (by simp [hi])
      have hsize : buf.length = 12 + 4 * ids.length := by omega
      rw [hbuf, loadDeps_words o usesDeps d rest hid hids] at hbad
      by_cases hknown : l.nodes.length ≤ id
      · exact absurd (if_pos (by omega)) hbad
      have hn : l.nodes[id]? = some (l.nodes.get ⟨id, by omega⟩) := List.getElem?_eq_getElem _
      have henc : Encodes o l.nodes.length (.deps id mtime ids) _ :=
        .deps (by omega) hid hids
      rw [← hsize, ← hbuf] at henc
      by_cases hdeps : usesDeps (l.nodes.get ⟨id, by omega⟩) = true →
          ∀ i ∈ ids, i < l.nodes.length
      · exact .inl ⟨_, _, rest, rfl, henc, _, hn, hdeps⟩
      · push Not at hdeps
        obtain ⟨hu, hex⟩ := hdeps
        refine .inr (.inr ⟨id, mtime, ids, rest, _, by omega, hids, hn, hu, hex, ?_⟩)
        rw [← hsize, ← hbuf]

end Bootsh.Samu
