import Bootsh.Samu.DepsRecord

/-!
What `recordid` and `recorddeps` write is what a later `depsinit` reads.
-/
namespace Bootsh.Samu

open Bytes (Order)
open Log

variable {o : Order} {usesDeps usesDeps' : Path → Bool} {d d' r : Deps} {l : Log}

/-! ### A size that does not fit into its word -/

theorem word_inj {w w' : ℕ} {x x' : List UInt8} (hw : w < 2 ^ 32) (hw' : w' < 2 ^ 32)
    (h : word o w ++ x = word o w' ++ x') : w = w' := by
  have heq := (List.append_inj h (by rw [length_word, length_word])).1
  exact o.encode_injective (by omega) (by omega) heq

/-- The word at a place among others. -/
theorem word_of_encodeAll {ids : List ℕ} {x y rest : List UInt8} {m w : ℕ} (hw : w < 2 ^ 32)
    (hids : ∀ i ∈ ids, i < 2 ^ 32) (hm : m < ids.length) (hx : x.length = 4 * m)
    (h : o.encodeAll 4 ids ++ rest = x ++ (word o w ++ y)) : w = ids[m] := by
  have hdrop := congrArg (List.drop (4 * m)) h
  have hle : 4 * m ≤ (o.encodeAll 4 ids).length := by
    rw [Order.length_encodeAll]
    omega
  rw [← hx, List.drop_left, hx, List.drop_append_of_le_length hle] at hdrop
  have hle' : 4 ≤ ((o.encodeAll 4 ids).drop (4 * m)).length := by
    rw [List.length_drop, Order.length_encodeAll]
    omega
  have htake := congrArg (List.take 4) hdrop
  rw [List.take_append_of_le_length hle', o.take_drop_encodeAll hm,
    List.take_left' (length_word w)] at htake
  have hlt := hids _ (List.getElem_mem hm)
  exact (o.encode_injective (by omega) (by omega) htake).symm

theorem loadRecord_bad_size (hd : Represents r l) (hl : l.Good usesDeps) {w : ℕ}
    (hw : w < 2 ^ 32) (hhigh : 2 ^ 31 ≤ w) (hsize : w < 2 ^ 31 + 12 ∨ 2 ^ 31 + MAX_RECORD_SIZE < w)
    (rest : List UInt8) : loadRecord o usesDeps r (word o w ++ rest) = .ok (.bad r) := by
  have hmax : MAX_RECORD_SIZE = 2 ^ 19 := rfl
  rcases loadRecord_cases hd hl o (word o w ++ rest) with
    ⟨hshort, -⟩ | h | ⟨rec, bs, rest', heq, hr, -⟩ | ⟨k, rest', hk, h4, hk', -, heq⟩ |
      ⟨id, mtime, ids, rest', n, hids, -, -, -, -, heq⟩
  · rw [List.length_append, length_word] at hshort
    omega
  · exact h
  · cases hr with
    | node hn h4 hn' hk =>
      rw [List.append_assoc] at heq
      have h := word_inj hw (by omega) heq
      omega
    | deps hids hid hlt =>
      rw [List.append_assoc] at heq
      have h := word_inj hw (by omega) heq
      omega
  · rw [List.append_assoc] at heq
    have h := word_inj hw (by omega) heq
    omega
  · rw [List.append_assoc] at heq
    have h := word_inj hw (by omega) heq
    omega

/-- Ids in the place of a record: none is the checksum of a node. -/
theorem loadRecord_bad_ids (hd : Represents r l) (hl : l.Good usesDeps) {ids : List ℕ}
    (hids : ∀ i ∈ ids, i < 2 ^ 31) (hmany : MAX_RECORD_SIZE ≤ ids.length) (rest : List UInt8) :
    loadRecord o usesDeps r (o.encodeAll 4 ids ++ rest) = .ok (.bad r) := by
  have hmax : MAX_RECORD_SIZE = 2 ^ 19 := rfl
  have hwords : ∀ i ∈ ids, i < 2 ^ 32 := fun i hi => (hids i hi).trans (by decide)
  have hlen := hl.length
  have hfull : INT32_MAX < 2 ^ 31 := by decide
  have hfirst : ∀ {w y}, w < 2 ^ 32 → o.encodeAll 4 ids ++ rest = word o w ++ y → w < 2 ^ 31 := by
    intro w y hw heq
    have h := word_of_encodeAll (x := []) hw hwords (by omega : 0 < ids.length) rfl heq
    rw [h]
    exact hids _ (List.getElem_mem _)
  have hlast : ∀ {w m y} {x : List UInt8}, w < 2 ^ 32 → m < ids.length → x.length = 4 * m →
      o.encodeAll 4 ids ++ rest = x ++ (word o w ++ y) → w < 2 ^ 31 := by
    intro w m y x hw hm hx heq
    have h := word_of_encodeAll hw hwords hm hx heq
    rw [h]
    exact hids _ (List.getElem_mem _)
  rcases loadRecord_cases hd hl o (o.encodeAll 4 ids ++ rest) with
    ⟨hshort, -⟩ | h | ⟨rec, bs, rest', heq, hr, -⟩ | ⟨k, rest', hk, h4, hk', -, heq⟩ |
      ⟨id, mtime, ids', rest', n, hids', -, -, -, -, heq⟩
  · rw [List.length_append, Order.length_encodeAll] at hshort
    omega
  · exact h
  · cases hr with
    | @node n pad hn h4 hn' hk =>
      have heq' : o.encodeAll 4 ids ++ rest = (word o (n.length + pad + 4) ++
          (n ++ List.replicate pad 0)) ++ (word o (2 ^ 32 - 1 - l.nodes.length) ++ rest') := by
        rw [heq]
        simp only [List.append_assoc]
      have h := hlast (m := (n.length + pad) / 4 + 1) (by omega) (by omega)
        (by simp [length_word]; omega) heq'
      omega
    | @deps id mtime ids' hids' hid hlt =>
      rw [List.append_assoc] at heq
      have h := hfirst (by omega) heq
      omega
  · have heq' : o.encodeAll 4 ids ++ rest = (word o (k + 4) ++ List.replicate k 0) ++
        (word o (2 ^ 32 - 1 - l.nodes.length) ++ rest') := by
      rw [heq]
      simp only [List.append_assoc]
    have h := hlast (m := k / 4 + 1) (by omega) (by omega)
      (by simp [length_word]; omega) heq'
    omega
  · rw [List.append_assoc] at heq
    have h := hfirst (by omega) heq
    omega

theorem loadRecords_bad {input : List UInt8} (n : ℕ)
    (h : loadRecord o usesDeps r input = .ok (.bad r)) :
    loadRecords o usesDeps r n input = .ok (.bad r) := by
  rw [loadRecords, loadLoop, h]
  rfl

/-- The record of a list whose size does not fit is read as a shorter one, or not at all; then
come the ids that are left. -/
theorem recorddeps_overflow {out : Path} {deps : List Path} {mtime : BitVec 64}
    (hr : Represents r l) (hd : Numbered d l.nodes) (hl : l.Good usesDeps) (hout : (d.id out).isSome)
    (hdeps : ∀ n ∈ deps, (d.id n).isSome) (hlong : 2 ^ 30 - 4 ≤ deps.length)
    (h : recorddeps o out deps mtime d = .ok d') (n : ℕ) (rest : List UInt8) :
    ∃ bs r', d'.depsfile = d.depsfile ++ bs ∧
      loadRecords o usesDeps r n (bs ++ rest) = .ok (.bad r') := by
  obtain ⟨hsize, rfl⟩ := recorddeps_eq h
  have hmax : MAX_RECORD_SIZE = 2 ^ 19 := rfl
  have hdef : depsSize deps = (12 + deps.length * 4) % 2 ^ 32 := rfl
  have hids : ∀ i ∈ deps.map fun n => idWord (d.id n), i < l.nodes.length ∧ i < 2 ^ 31 := by
    intro i hi
    obtain ⟨n, hn, rfl⟩ := List.mem_map.mp hi
    exact hd.idWord_lt hl (hdeps n hn)
  have hidlt := hd.idWord_lt hl hout
  have hfile : (d.depswrite (depsRecord o d.id out deps mtime)).depsfile =
      d.depsfile ++ depsRecord o d.id out deps mtime := rfl
  have hrec := depsRecord_words (o := o) d.id out deps mtime
  by_cases hwrap : depsSize deps = 2 ^ 32 - 4
  · refine ⟨_, r, hfile, ?_⟩
    have hword : (2 ^ 32 - 4) ||| 0x80000000 = 2 ^ 32 - 4 := by decide
    rw [hrec, hwrap, hword, List.append_assoc]
    exact loadRecords_bad n (loadRecord_bad_size hr hl (by omega) (by omega) (by omega) _)
  have hsmall : depsSize deps < 2 ^ 19 := by omega
  rw [or_high (by omega)] at hrec
  by_cases hshort : depsSize deps < 12
  · refine ⟨_, r, hfile, ?_⟩
    rw [hrec, List.append_assoc]
    exact loadRecords_bad n (loadRecord_bad_size hr hl (by omega) (by omega) (by omega) _)
  · obtain ⟨k, hk⟩ : ∃ k, depsSize deps = 12 + 4 * k := ⟨(depsSize deps - 12) / 4, by omega⟩
    have hle : k + MAX_RECORD_SIZE ≤ deps.length := by omega
    have htake : ((deps.map fun n => idWord (d.id n)).take k).length = k := by
      rw [List.length_take, List.length_map]
      omega
    have henc : Encodes o l.nodes.length
        (.deps (idWord (d.id out)) mtime ((deps.map fun n => idWord (d.id n)).take k)) _ :=
      .deps (by omega) (by omega) fun i hi => (hids i (List.mem_of_mem_take hi)).2.trans (by decide)
    have hvalid : l.Valid usesDeps
        (.deps (idWord (d.id out)) mtime ((deps.map fun n => idWord (d.id n)).take k)) :=
      ⟨out, (hd.getElem_idWord hout).1, fun _ i hi => (hids i (List.mem_of_mem_take hi)).1⟩
    rw [htake, ← hk] at henc
    have hsplit : depsRecord o d.id out deps mtime ++ rest =
        (word o (2 ^ 31 + depsSize deps) ++ o.encodeAll 4 (depsWords (idWord (d.id out)) mtime
          ((deps.map fun n => idWord (d.id n)).take k))) ++
        (o.encodeAll 4 ((deps.map fun n => idWord (d.id n)).drop k) ++ rest) := by
      have hwords : depsWords (idWord (d.id out)) mtime (deps.map fun n => idWord (d.id n)) =
          depsWords (idWord (d.id out)) mtime ((deps.map fun n => idWord (d.id n)).take k) ++
            (deps.map fun n => idWord (d.id n)).drop k := by
        show _ = idWord (d.id out) :: mtime.toNat % 2 ^ 32 :: mtime.toNat / 2 ^ 32 :: (_ ++ _)
        rw [List.take_append_drop]
        rfl
      rw [hrec, hwords, Order.encodeAll_append]
      simp only [List.append_assoc]
    obtain ⟨r', hr', hload⟩ := loadRecords_step hr hl henc hvalid n
      (o.encodeAll 4 ((deps.map fun n => idWord (d.id n)).drop k) ++ rest)
    refine ⟨_, r', hfile, ?_⟩
    rw [hsplit, hload]
    apply loadRecords_bad
    have hl' := hl.apply henc hvalid
    apply loadRecord_bad_ids hr' hl' fun i hi => (hids i (List.mem_of_mem_drop hi)).2
    rw [List.length_drop, List.length_map]
    omega

/-- A log that is read to its end has no such record. -/
theorem fits_of_loaded {cs : List Call} {bs : List UInt8} {n m : ℕ} {rest : List UInt8}
    (hr : Represents r l) (hd : Numbered d l.nodes) (hl : l.Good usesDeps)
    (hcs : Fallible.Along (call o) Allowed cs d)
    (hclean : ∀ n, .recordid n ∈ cs → n.getLast? ≠ some 0)
    (hrun : Fallible.each (call o) cs d = .ok d') (hfile : d'.depsfile = d.depsfile ++ bs)
    {r' : Deps} (hload : loadRecords o usesDeps r n bs = .ok (.done r' m rest)) :
    ∀ c ∈ cs, c.Fits := by
  induction cs generalizing d r l n bs with
  | nil => simp
  | cons c cs ih =>
    obtain ⟨d₁, hcall, hrest⟩ := Fallible.bind_eq_ok.mp hrun
    obtain ⟨bs₂, hbs₂⟩ := calls_append hrest
    have hfits : c.Fits := by
      cases c with
      | recordid n => exact hclean n List.mem_cons_self
      | recorddeps out deps mtime =>
        by_contra hlong
        obtain ⟨bs₁, r₁, hbs₁, hbad⟩ := recorddeps_overflow hr hd hl
          (hcs.1 out List.mem_cons_self) (fun n hn => hcs.1 n (List.mem_cons_of_mem _ hn))
          (Nat.le_of_not_lt hlong) hcall n bs₂
        have hbs : bs = bs₁ ++ bs₂ := by
          rw [hbs₂, hbs₁, List.append_assoc] at hfile
          exact (List.append_cancel_left hfile).symm
        rw [hbs, hbad] at hload
        cases hload
    intro c' hc'
    rcases List.mem_cons.mp hc' with rfl | hc'
    · exact hfits
    · obtain ⟨rs, bs₁, l₁, hrs, hbs₁, hnum, -, -⟩ := call_records hd hl hcs.1 hfits hcall
      have hbs : bs = bs₁ ++ bs₂ := by
        rw [hbs₂, hbs₁, List.append_assoc] at hfile
        exact (List.append_cancel_left hfile).symm
      obtain ⟨r₁, hr₁, hstep⟩ := loadRecords_append hrs hr hl n bs₂
      rw [hbs, hstep] at hload
      exact ih hr₁ hnum (hrs.good hl) (hcs.2 d₁ hcall)
        (fun n hn => hclean n (List.mem_cons_of_mem _ hn)) hrest hbs₂ hload c' hc'

/-! ### The round trip -/

/-- A later `depsinit` reads the log to its end, gives every path the id it had, and for every
output whose rule has `deps` gives the list and the mtime recorded last: by the calls, or in the
log before them, which gives `d₀` by itself. -/
def Recovers (o : Order) (usesDeps : Path → Bool) (cap : ℕ) (d₀ : Deps) (cs : List Call)
    (d₁ : Deps) : Prop :=
  ∃ d₂ n₂, load o usesDeps cap d₁.depsfile = .ok (.done d₂ n₂ []) ∧ d₂.id = d₁.id ∧
    (∀ out, usesDeps out = true →
      recorded d₂ out = ((written cs out).map filled).or (recorded d₀ out)) ∧
    (¬ compacts d₂ n₂ →
      depsinit o usesDeps cap d₁.depsfile = .ok { d₂ with depsfile := d₁.depsfile })

/-- Calls of `recordid` and `recorddeps` after a log that was read to its end. -/
theorem deps_log_round_trip {cap cap' : ℕ} {content : List UInt8} {d₀ d₀' d₁ : Deps} {n₀ n₀' : ℕ}
    {cs : List Call} (h₀ : load o usesDeps cap content = .ok (.done d₀ n₀ []))
    (h₀' : load o usesDeps' cap' content = .ok (.done d₀' n₀' []))
    (hcs : Fallible.Along (call o) Allowed cs { d₀ with depsfile := content })
    (hrun : Fallible.each (call o) cs { d₀ with depsfile := content } = .ok d₁) :
    Recovers o usesDeps' cap' d₀' cs d₁ ↔ ∀ c ∈ cs, c.Fits := by
  obtain ⟨rs, bs, l, hcontent, hrs, hd₀, -, -⟩ := load_done h₀
  obtain ⟨rs', bs', l', hcontent', hrs', hd₀', -, -⟩ := load_done h₀'
  rw [List.append_nil] at hcontent hcontent'
  have hbs : bs' = bs := List.append_cancel_left (hcontent'.symm.trans hcontent)
  subst hbs
  have hgood := hrs'.good Log.empty_good
  obtain ⟨hids, hlen⟩ := hrs.same_ids hrs'
  have hnum : Numbered { d₀ with depsfile := content } l'.nodes :=
    ⟨hd₀.id.trans hids, hd₀.len.trans hlen⟩
  constructor
  · rintro ⟨d₂, n₂, hload, hid, -, -⟩
    obtain ⟨rs₂, bs₂, l₂, -, hrs₂, hd₂, -, -⟩ := load_done hload
    obtain ⟨more, hmore⟩ := calls_append hrun
    have hclean : ∀ n, .recordid n ∈ cs → n.getLast? ≠ some 0 := by
      intro n hn
      have hsome := calls_id hnum hrun hn
      rw [← hid, hd₂.id] at hsome
      exact (clean_iff.mp ((hrs₂.good Log.empty_good).nodes n (idOf_isSome.mp hsome)).1).2
    obtain ⟨r, hr, hstart⟩ := loadRecords_append hrs' (noDeps_represents cap') Log.empty_good 0 more
    have hfile : d₁.depsfile = depsstart o ++ (bs' ++ more) := by
      rw [hmore, hcontent, List.append_assoc]
    rw [hfile, load_depsstart, hstart] at hload
    exact fits_of_loaded hr hnum hgood hcs hclean hrun hmore hload
  · intro hfits
    obtain ⟨d₂, n₂, hload, hid, hlists⟩ := load_appended cap' hrs' hnum hcontent hcs hfits hrun
    refine ⟨d₂, n₂, hload, hid, ?_, ?_⟩
    · intro out hout
      rw [hlists out hout, hd₀'.recorded]
      cases written cs out <;> rfl
    · intro hcompacts
      rw [depsinit, hload]
      exact if_neg hcompacts

/-- A log without records. -/
def newLog : Deps := { noDeps 0 with depsfile := depsstart .little }

theorem newLog_loaded (usesDeps : Path → Bool) (cap : ℕ) :
    load .little usesDeps cap (depsstart .little) = .ok (.done (noDeps cap) 0 []) := by
  rw [← List.append_nil (depsstart .little), load_depsstart]
  rfl

/-- The output `a` depends on `b`. -/
def oneOutput : List Call := [.recordid [97], .recordid [98], .recorddeps [97] [[98]] 5]

theorem deps_log_round_trip_output : ∃ d₁, Fallible.each (call .little) oneOutput newLog = .ok d₁ ∧
    Recovers .little (fun _ => true) 0 (noDeps 0) oneOutput d₁ := by
  have hcs : Fallible.Along (call .little) Allowed oneOutput newLog := by
    refine ⟨⟨by decide, by decide⟩, ?_⟩
    rintro _ ⟨⟩
    refine ⟨⟨by decide, by decide⟩, ?_⟩
    rintro _ ⟨⟩
    refine ⟨?_, fun _ _ => trivial⟩
    intro n hn
    simp only [List.mem_cons, List.not_mem_nil, or_false] at hn
    rcases hn with rfl | rfl <;> rfl
  have hfits : ∀ c ∈ oneOutput, c.Fits := by
    intro c hc
    simp only [oneOutput, List.mem_cons, List.not_mem_nil, or_false] at hc
    rcases hc with rfl | rfl | rfl
    · show _ ≠ _
      decide
    · show _ ≠ _
      decide
    · show 1 < 2 ^ 30 - 4
      decide
  have h₀ := newLog_loaded (fun _ => true) 0
  exact ⟨_, rfl, (deps_log_round_trip h₀ h₀ hcs rfl).mpr hfits⟩

/-- The NUL at the end of a path is read as padding. -/
theorem deps_log_loses_path : ∃ d₁ d₂,
    Fallible.each (call .little) [.recordid [97, 0]] newLog = .ok d₁ ∧
      load .little (fun _ => true) 0 d₁.depsfile = .ok (.done d₂ 1 []) ∧
      d₁.id [97, 0] = some 0 ∧ d₂.id [97, 0] = none ∧ d₂.id [97] = some 0 ∧
      ¬ Recovers .little (fun _ => true) 0 (noDeps 0) [.recordid [97, 0]] d₁ := by
  refine ⟨_, _, rfl, rfl, rfl, rfl, rfl, ?_⟩
  rintro ⟨d, n, hload, hid, -, -⟩
  obtain ⟨rfl, -⟩ := Loaded.done.inj (Except.ok.inj hload)
  exact Option.some_ne_none 0 (congrFun hid [97, 0]).symm

end Bootsh.Samu
