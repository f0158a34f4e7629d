import Bootsh.Samu.DepsAccess
import Bootsh.Samu.DepsRoundTrip

/-!
A damaged log: which lists `depsinit` keeps, and whether what is appended later can be read.
-/
namespace Bootsh.Samu

open Bytes (Order)
open Log

variable {o : Order} {usesDeps : Path → Bool} {d d' old : Deps} {l : Log}
  {content rest : List UInt8} {rs : List Rec} {cap cap' : ℕ}

theorem Encodes.size {k : ℕ} {r : Rec} {bs : List UInt8} (h : Encodes o k r bs) :
    ∃ w body, w < 2 ^ 32 ∧ bs = word o w ++ body ∧ body.length = w % 2 ^ 31 := by
  have hmax : MAX_RECORD_SIZE = 2 ^ 19 := rfl
  cases h with
  | @node n pad hn hsize hle hk =>
    refine ⟨_, _, by omega, rfl, ?_⟩
    rw [List.length_append, List.length_append, List.length_replicate, length_word]
    omega
  | @deps id mtime ids hle hid hids =>
    refine ⟨_, _, by omega, rfl, ?_⟩
    rw [Order.length_encodeAll]
    show 4 * (ids.length + 3) = _
    omega

/-- No record is the beginning of another. -/
theorem Encodes.eq_of_prefix {k : ℕ} {r r' : Rec} {bs bs' : List UInt8} (h : Encodes o k r bs)
    (h' : Encodes o k r' bs') (hpre : bs' <+: bs) : bs' = bs := by
  obtain ⟨w, body, hw, rfl, hbody⟩ := h.size
  obtain ⟨w', body', hw', rfl, hbody'⟩ := h'.size
  obtain ⟨tail, htail⟩ := hpre
  have heq : w' = w := by
    rw [List.append_assoc] at htail
    exact word_inj hw' hw htail
  apply List.IsPrefix.eq_of_length ⟨tail, htail⟩
  rw [List.length_append, List.length_append, length_word, length_word, hbody, hbody', heq]

/-- A log that is cut in its last record holds the records before it. -/
theorem parses_cut {bs cut record : List UInt8} {r : Rec}
    (hrs : Records usesDeps o Log.empty rs bs l) (hr : Encodes o l.nodes.length r record)
    (hcut : cut <+: record) (hne : cut ≠ record) :
    Parses o usesDeps (depsstart o ++ (bs ++ cut)) rs l cut := by
  refine .records rfl hrs ?_
  intro r' bs' rest' heq hr' _
  have hpre : bs' <+: cut := ⟨rest', heq.symm⟩
  have hsame := hr.eq_of_prefix hr' (hpre.trans hcut)
  exact hne (hcut.eq_of_length_le (hsame ▸ hpre.length_le))

/-! ### Bytes that are left over -/

/-- Bytes that do not make a size, before a record: what is read as a size is too large. -/
theorem misaligned_size {w : ℕ} (tail : List UInt8) (hne : rest ≠ []) (hshort : rest.length < 4)
    (hw : w = 8 ∨ w = 2 ^ 31 + 12) :
    o.decode ((rest ++ (word o w ++ tail)).take 4) % 2 ^ 31 = 0 ∨
      16 ≤ o.decode ((rest ++ (word o w ++ tail)).take 4) % 2 ^ 31 := by
  match rest, hne, hshort with
  | [a], _, _ =>
    have ha := a.toNat_lt
    rcases hw with rfl | rfl <;> cases o <;>
      simp [word, Order.encode, Order.decode, Bytes.digits, Bytes.value] <;> omega
  | [a, b], _, _ =>
    have ha := a.toNat_lt
    have hb := b.toNat_lt
    rcases hw with rfl | rfl <;> cases o <;>
      simp [word, Order.encode, Order.decode, Bytes.digits, Bytes.value] <;> omega
  | [a, b, c], _, _ =>
    have ha := a.toNat_lt
    have hb := b.toNat_lt
    have hc := c.toNat_lt
    rcases hw with rfl | rfl <;> cases o <;>
      simp [word, Order.encode, Order.decode, Bytes.digits, Bytes.value] <;> omega

theorem loadRecord_misaligned {w : ℕ} {tail : List UInt8} (hne : rest ≠ [])
    (hshort : rest.length < 4) (hw : w = 8 ∨ w = 2 ^ 31 + 12) (htail : tail.length ≤ 12) :
    loadRecord o usesDeps d (rest ++ (word o w ++ tail)) = .ok (.bad d) := by
  have hlen : (rest ++ (word o w ++ tail)).length = rest.length + (4 + tail.length) := by
    rw [List.length_append, List.length_append, length_word]
  rw [loadRecord, if_neg (by omega)]
  dsimp only
  split
  case isTrue => rfl
  case isFalse =>
  rw [if_pos]
  rcases misaligned_size (o := o) tail hne hshort hw with h | h
  · exact .inl h
  · right
    rw [List.length_take, List.length_drop]
    omega

/-! ### Damage -/

/-- `depsinit` ends, keeps the lists of the valid records before the first bad one and no others,
and what is appended after that is read again. -/
def Harmless (o : Order) (usesDeps : Path → Bool) (cap cap' : ℕ) (content : List UInt8)
    (l : Log) : Prop :=
  ∃ d, depsinit o usesDeps cap content = .ok d ∧
    (∀ n, recorded d n = (l.listOf n).map filled) ∧
    ∀ cs d₁, Fallible.Along (call o) Allowed cs d → (∀ c ∈ cs, c.Fits) →
      Fallible.each (call o) cs d = .ok d₁ →
      ∃ d₂ n₂, load o usesDeps cap' d₁.depsfile = .ok (.done d₂ n₂ []) ∧ d₂.id = d₁.id ∧
        ∀ n, usesDeps n = true → recorded d₂ n = ((written cs n).or (l.listOf n)).map filled

/-- The lists that are recorded can be written anew: none is empty, and no node without a list
had one by an earlier record or gets the id of one that has. -/
structure Log.Rewritable (l : Log) : Prop where
  small : l.Small
  nonempty : ∀ n mtime, l.listOf n ≠ some ([], mtime)
  unlisted : ∀ (i : ℕ) (n : Path), (l.order l.nodes.length)[i]? = some n → l.listOf n = none →
    l.lists i = none ∧ ∀ j : ℕ, l.nodes[j]? = some n → ¬ l.Owner j

/-- The first bad record is found to be bad, and either nothing is left of it or the log is
written anew. -/
structure Recoverable (o : Order) (usesDeps : Path → Bool) (content : List UInt8) (rs : List Rec)
    (l : Log) (rest : List UInt8) : Prop where
  found : Found o usesDeps content l rest
  kept : ¬ Rewrites o content rs l rest → rest = []
  rewritten : Rewrites o content rs l rest → l.Rewritable

theorem lastOwner_lists (hkeep : l.Rewritable) (n : Path) :
    (l.lastOwner n l.nodes.length).bind l.lists = l.listOf n := by
  match hlist : l.listOf n with
  | some ([], mtime) => exact absurd hlist (hkeep.nonempty n mtime)
  | some (m :: ns, mtime) =>
    obtain ⟨i, -, hlisti, hlast, -⟩ := lastOwner_of_listOf hlist
    rw [hlast, Option.bind_some, hlisti]
  | none =>
    cases hlast : l.lastOwner n l.nodes.length with
    | none => rfl
    | some j =>
      obtain ⟨hlt, hj, howner⟩ := lastOwner_spec hlast
      obtain ⟨i, hi⟩ := List.mem_iff_getElem?.mp (mem_order_of_owner hlt hj howner)
      exact absurd howner ((hkeep.unlisted i n hi hlist).2 j hj)

theorem recorded_rewritten (hold : Represents old l) (hl : l.Good usesDeps)
    (h : rewrite o old = .ok d) (hkeep : l.Rewritable) (n : Path) :
    recorded d n = (l.listOf n).map filled := by
  obtain ⟨-, hnum, -⟩ := rewrite_result hold hl h
  have hlast := lastOwner_lists hkeep n
  by_cases hmem : n ∈ l.order l.nodes.length
  · obtain ⟨i, hi⟩ := List.mem_iff_getElem?.mp hmem
    obtain ⟨j, m, entry, hj, -, hid, hentry, hdesc⟩ := entryAt_rewritten hold hl h hi
    rw [recorded, hid, Option.bind_some, hentry]
    refine hdesc.2.trans ?_
    rcases hj with hj | ⟨hnone, rfl⟩
    · rw [← hlast, hj]
      rfl
    · have hlist : l.listOf n = none := by
        rw [← hlast, hnone]
        rfl
      rw [hlist, (hkeep.unlisted j n hi hlist).1]
  · have hid : d.id n = none := by rw [hnum.id, idOf_eq_none.mpr hmem]
    have hnone : l.lastOwner n l.nodes.length = none := by
      rw [Option.eq_none_iff_forall_ne_some]
      intro j hj
      obtain ⟨hlt, hj, howner⟩ := lastOwner_spec hj
      exact hmem (mem_order_of_owner hlt hj howner)
    rw [recorded, hid, ← hlast, hnone]
    rfl

theorem harmless_of_recoverable (h : Parses o usesDeps content rs l rest)
    (hrec : Recoverable o usesDeps content rs l rest) (cap cap' : ℕ) :
    Harmless o usesDeps cap cap' content l := by
  obtain ⟨hfound, hkept, hrewritten⟩ := hrec
  have hl := h.good
  rcases depsinit_cases h cap with
    ⟨hnul, hpre, -⟩ | ⟨hunknown, hpre, -⟩ | ⟨-, hrewrites, old, hold, heq⟩ |
      ⟨-, hnot, d, hd, heq⟩
  · exact absurd hnul (hfound hpre).1
  · exact absurd hunknown (hfound hpre).2
  · have hkeep := hrewritten hrewrites
    obtain ⟨d, hd⟩ := exists_rewrite o hold hl hkeep.small
    refine ⟨d, heq.trans hd, recorded_rewritten hold hl hd hkeep, ?_⟩
    intro cs d₁ hcs hfits hrun
    obtain ⟨-, hnum, -, -, rs', bs', l', hrs', hfile, hnodes, hlists⟩ :=
      rewrite_result hold hl hd
    rw [← hnodes] at hnum
    obtain ⟨d₂, n₂, hload, hid, hrecorded⟩ := load_appended cap' hrs' hnum hfile hcs hfits hrun
    refine ⟨d₂, n₂, hload, hid, ?_⟩
    intro n hn
    rw [hrecorded n hn, hlists n hn, lastOwner_lists hkeep]
  · have hnil := hkept hnot
    refine ⟨_, heq, hd.recorded, ?_⟩
    intro cs d₁ hcs hfits hrun
    cases h with
    | noHeader hheader => exact absurd (.inl hheader) hnot
    | records hcontent hrs hrest =>
      have hnum : Numbered { d with depsfile := content } l.nodes := ⟨hd.id, hd.len⟩
      rw [hnil, List.append_nil] at hcontent
      exact load_appended cap' hrs hnum hcontent hcs hfits hrun

/-- What is appended behind bytes that are left over is not read. -/
theorem rest_eq_nil (h : Parses o usesDeps content rs l rest)
    (hnot : ¬ Rewrites o content rs l rest) (hharmless : Harmless o usesDeps cap cap' content l) :
    rest = [] := by
  by_contra hne
  obtain ⟨d, hinit, -, happend⟩ := hharmless
  have hl := h.good
  have hlist : ∀ {w : ℕ} {tail : List UInt8} {c : Call} {d₁ : Deps}, Allowed c d → c.Fits →
      call o c d = .ok d₁ → d₁.depsfile = content ++ (word o w ++ tail) →
      (w = 8 ∨ w = 2 ^ 31 + 12) → tail.length ≤ 12 → False := by
    intro w tail c d₁ hallowed hfits hcall hfile hw htail
    obtain ⟨d₂, n₂, hload, -⟩ := happend [c] d₁ ⟨hallowed, fun _ _ => trivial⟩
      (by simpa using hfits) (by rw [Fallible.each, hcall]; rfl)
    cases h with
    | noHeader hheader => exact hnot (.inl hheader)
    | @records rs bs l rest hcontent hrs hrest =>
      have hshort : rest.length < 4 := by
        by_contra hlong
        exact hnot (.inr (.inl (by omega)))
      obtain ⟨r, hr, hstart⟩ := loadRecords_append hrs (noDeps_represents cap') Log.empty_good 0
        (rest ++ (word o w ++ tail))
      rw [hfile, hcontent, List.append_assoc, List.append_assoc, load_depsstart, hstart,
        loadRecords_bad _ (loadRecord_misaligned hne hshort hw htail)] at hload
      cases hload
  rcases depsinit_cases h cap with
    ⟨-, -, heq⟩ | ⟨-, -, old, d', hhalf, heq⟩ | ⟨-, hrewrites, -⟩ | ⟨-, -, d', hd, heq⟩
  · rw [heq] at hinit
    cases hinit
  · rw [heq] at hinit
    exact hhalf.rewrite hl hinit
  · exact hnot hrewrites
  · rw [heq] at hinit
    cases hinit
    cases hnodes : l.nodes with
    | nil =>
      have hid : d'.id [1] = none := by rw [hd.id, hnodes, idOf_nil]
      have hlen : d'.entrieslen = 0 := by rw [hd.len, hnodes, List.length_nil]
      have hcall : call o (.recordid [1]) { d' with depsfile := content } = .ok { d' with
          id := Function.update d'.id [1] (some d'.entrieslen)
          entrieslen := d'.entrieslen + 1
          depsfile := content ++ nodeRecord o [1] d'.entrieslen } := by
        rw [call, recordid, hid, hlen]
        rfl
      have hrecord : nodeRecord o [1] d'.entrieslen =
          word o 8 ++ ([1, 0, 0, 0] ++ word o (2 ^ 32 - 1 - d'.entrieslen)) := by
        rw [nodeRecord, List.append_assoc, List.append_assoc]
        rfl
      refine hlist (c := .recordid [1]) ⟨by decide, by decide⟩ ?_ hcall (by rw [hrecord])
        (.inl rfl) ?_
      · show _ ≠ _
        decide
      · rw [List.length_append, length_word]
        decide
    | cons n ns =>
      have hsome : (d'.id n).isSome := by
        rw [hd.id, idOf_isSome, hnodes]
        exact List.mem_cons_self
      have hrecord : depsRecord o d'.id n [] 0 =
          word o (2 ^ 31 + 12) ++ (word o (idWord (d'.id n)) ++ (word o 0 ++ word o 0)) := by
        rw [depsRecord, List.append_assoc, List.append_assoc, List.append_assoc, List.flatMap_nil,
          List.append_nil]
        rfl
      have hcall : call o (.recorddeps n [] 0) { d' with depsfile := content } =
          .ok { d' with depsfile := content ++ depsRecord o d'.id n [] 0 } := rfl
      refine hlist (c := .recorddeps n [] 0) ?_ ?_ hcall (by rw [hrecord]) (.inr rfl) ?_
      · intro m hm
        rw [List.mem_singleton.mp hm]
        exact hsome
      · show 0 < 2 ^ 30 - 4
        decide
      · simp only [List.length_append, length_word]
        decide

theorem recoverable_of_harmless (h : Parses o usesDeps content rs l rest)
    (hharmless : Harmless o usesDeps cap cap' content l) :
    Recoverable o usesDeps content rs l rest := by
  have hrest := fun hnot => rest_eq_nil h hnot hharmless
  obtain ⟨d, hinit, hlists, happend⟩ := hharmless
  have hl := h.good
  rcases depsinit_cases h cap with
    ⟨-, -, heq⟩ | ⟨-, -, old, d', hhalf, heq⟩ | ⟨hfound, hrewrites, old, hold, heq⟩ |
      ⟨hfound, hnot, -⟩
  · rw [heq] at hinit
    cases hinit
  · rw [heq] at hinit
    exact absurd hinit (hhalf.rewrite hl)
  · rw [heq] at hinit
    refine ⟨hfound, hrest, fun _ => ⟨(rewrite_result hold hl hinit).1, ?_, ?_⟩⟩
    · obtain ⟨d₂, n₂, hload, -, hlists₂⟩ := happend [] d trivial (by simp) rfl
      apply nonempty_of_file hold hl hinit hload
      intro n list hlist
      rw [hlists₂ n (listOf_usesDeps hl hlist), hlist]
      rfl
    · intro i n hi hnone
      obtain ⟨j, m, entry, hj, -, hid, hentry, hdesc⟩ := entryAt_rewritten hold hl hinit hi
      have hempty : l.lists j = none := by
        have hrecorded := hlists n
        rw [recorded, hid, Option.bind_some, hentry, hnone] at hrecorded
        exact Option.map_eq_none_iff.mp (hdesc.2.symm.trans hrecorded)
      rcases hj with hj | ⟨hnoOwner, rfl⟩
      · obtain ⟨m', ns, mtime, howner⟩ := owner_iff.mp (lastOwner_spec hj).2.2
        rw [hempty] at howner
        cases howner
      · refine ⟨hempty, ?_⟩
        intro k hk howner
        obtain ⟨k', hk', -⟩ := exists_lastOwner (List.getElem?_eq_some_iff.mp hk).1 hk howner
        rw [hnoOwner] at hk'
        cases hk'
  · exact ⟨hfound, hrest, fun hrewrites => absurd hrewrites hnot⟩

/-- Which contents `depsinit` and the run after it get over. -/
theorem damaged_log_harmless (h : Parses o usesDeps content rs l rest) (cap cap' : ℕ) :
    Harmless o usesDeps cap cap' content l ↔ Recoverable o usesDeps content rs l rest :=
  ⟨recoverable_of_harmless h, fun hrec => harmless_of_recoverable h hrec cap cap'⟩

theorem damaged_log_harmless_oneNode :
    Harmless .little (fun _ => true) 0 0 oneNode ⟨[[97]], fun _ => none⟩ := by
  refine (damaged_log_harmless oneNode_parses 0 0).mpr ⟨?_, fun _ => rfl, ?_⟩
  · exact found_of_short (by decide)
  · rintro (h | h | h)
    · exact absurd (List.prefix_append _ _) h
    · exact absurd h (by decide)
    · exact absurd h.1 (by decide)

/-- The log is cut behind the first byte of a size. -/
theorem cut_log_not_harmless : ∃ l, Parses .little (fun _ => true)
      (depsstart .little ++ ([] ++ (nodeRecord .little [97] 0).take 1)) [] l [8] ∧
    ¬ Harmless .little (fun _ => true) 0 0
      (depsstart .little ++ ([] ++ (nodeRecord .little [97] 0).take 1)) l := by
  have henc : Encodes .little 0 (.node [97]) (nodeRecord .little [97] 0) :=
    nodeRecord_encodes ⟨97, rfl, by decide⟩ (by decide) (by decide) (by decide)
  have hnil : Records (fun _ => true) .little Log.empty [] [] Log.empty := .nil _
  have hparses := parses_cut hnil henc (List.take_prefix 1 _) (by decide)
  refine ⟨_, hparses, ?_⟩
  intro hharmless
  have hnil := rest_eq_nil hparses ?_ hharmless
  · cases hnil
  · rintro (h | h | h)
    · exact absurd (List.prefix_append _ _) h
    · exact absurd h (by decide)
    · exact absurd h.1 (by decide)

end Bootsh.Samu
