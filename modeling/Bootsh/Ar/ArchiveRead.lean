import Bootsh.Ar.Archive

/-!
Archives that `ar` writes are read back as GNU archives.
-/
namespace Bootsh.Ar

open Bytes (Order)
open GnuAr (ascii slash newline space)
open Fallible

/-! ### Numerals -/

section

variable {base n x : ℕ}

/-- The digits of the loop, as numbers. -/
def digitsOf (base : ℕ) : ℕ → ℕ → List ℕ
  | 0, _ => []
  | n + 1, x => x % base :: if x / base = 0 then [] else digitsOf base n (x / base)

theorem digitLoop_eq (base n x : ℕ) : digitLoop base n x = (digitsOf base n x).map GnuAr.digit := by
  induction n generalizing x with
  | zero => rfl
  | succ n ih =>
    rw [digitLoop, digitsOf, List.map_cons]
    congr 1
    split_ifs
    · rfl
    · exact ih _

theorem digitsOf_lt (hbase : 0 < base) : ∀ d ∈ digitsOf base n x, d < base := by
  induction n generalizing x with
  | zero =>
    intro d hd
    cases hd
  | succ n ih =>
    intro d hd
    rw [digitsOf, List.mem_cons] at hd
    rcases hd with rfl | hd
    · exact Nat.mod_lt x hbase
    · split_ifs at hd
      · cases hd
      · exact ih d hd

theorem digitsOf_value (hx : x < base ^ (n + 1)) :
    (digitsOf base (n + 1) x).foldr (fun d n => n * base + d) 0 = x := by
  induction n generalizing x with
  | zero =>
    rw [Nat.pow_one] at hx
    simp [digitsOf, Nat.mod_eq_of_lt hx]
  | succ n ih =>
    have hbase : 0 < base := by
      rcases Nat.eq_zero_or_pos base with rfl | hbase
      · simp at hx
      · exact hbase
    have hdiv := Nat.div_add_mod x base
    rw [Nat.mul_comm] at hdiv
    rw [digitsOf, List.foldr_cons]
    by_cases hzero : x / base = 0
    · rw [if_pos hzero, List.foldr_nil]
      rw [hzero] at hdiv
      exact hdiv
    · rw [if_neg hzero, ih]
      · exact hdiv
      · rw [Nat.pow_succ] at hx
        exact Nat.div_lt_of_lt_mul (Nat.mul_comm _ base ▸ hx)

theorem digitsOf_length {k : ℕ} (hx : x < base ^ (k + 1)) :
    (digitsOf base n x).length ≤ k + 1 := by
  induction n generalizing k x with
  | zero => exact Nat.zero_le _
  | succ n ih =>
    rw [digitsOf, List.length_cons]
    split_ifs with hzero
    · exact Nat.succ_le_succ (Nat.zero_le k)
    · cases k with
      | zero =>
        rw [Nat.pow_one] at hx
        exact absurd (Nat.div_eq_of_lt hx) hzero
      | succ k =>
        rw [Nat.pow_succ] at hx
        exact Nat.succ_le_succ (ih (Nat.div_lt_of_lt_mul (Nat.mul_comm _ base ▸ hx)))

theorem number_digitLoop (hbase : 0 < base) (hten : base ≤ 10) (hx : x < base ^ (n + 1)) :
    GnuAr.number base (digitLoop base (n + 1) x).reverse = some x := by
  have hne : digitsOf base (n + 1) x ≠ [] := List.cons_ne_nil _ _
  rw [digitLoop_eq, GnuAr.number_reverse hne hten (digitsOf_lt hbase), digitsOf_value hx]

/-- A numeral does not end with a space. -/
theorem getLast?_digitLoop (hbase : 0 < base) (hten : base ≤ 10) :
    (digitLoop base n x).reverse.getLast? ≠ some space := by
  rw [List.getLast?_reverse, digitLoop_eq]
  intro h
  have hmem := List.mem_of_mem_head? h
  rw [List.mem_map] at hmem
  obtain ⟨d, hd, hspace⟩ := hmem
  have hnat := GnuAr.toNat_digit (Nat.lt_of_lt_of_le (digitsOf_lt hbase d hd) hten)
  rw [hspace] at hnat
  change 32 = d + 48 at hnat
  omega

theorem digitLoop_length {k : ℕ} (hx : x < base ^ (k + 1)) :
    (digitLoop base n x).reverse.length ≤ k + 1 := by
  rw [List.length_reverse, digitLoop_eq, List.length_map]
  exact digitsOf_length hx

theorem formatUint64_eq (hx : x < 2 ^ 64) : formatUint64 x = (digitLoop 10 20 x).reverse := by
  unfold formatUint64
  rw [Nat.mod_eq_of_lt hx]

theorem formatOctal32_eq (hx : x < 2 ^ 32) :
    formatOctal32 x false = (digitLoop 8 11 x).reverse := by
  unfold formatOctal32
  dsimp only
  rw [Nat.mod_eq_of_lt hx, if_neg fun h => Bool.false_ne_true h.2, List.append_nil]

theorem number_formatUint64 (hx : x < 2 ^ 64) : GnuAr.number 10 (formatUint64 x) = some x := by
  rw [formatUint64_eq hx]
  exact number_digitLoop (by decide) (Nat.le_refl 10) (Nat.lt_trans hx (by decide))

/-- A numeral in its field. -/
theorem trim_field {s : List UInt8} (hs : s.getLast? ≠ some space) :
    GnuAr.trim (field n s) = s := GnuAr.trim_spaces hs

theorem length_field {s : List UInt8} (hs : s.length ≤ n) : (field n s).length = n := by
  unfold field
  rw [List.length_append, List.length_replicate]
  omega

/-- The mode of a header, read back. -/
theorem mode_field (mode : ℕ) :
    (field 8 (formatOctal32 (mode % 0o1000) false)).length = 8 ∧
      GnuAr.number 8 (GnuAr.trim (field 8 (formatOctal32 (mode % 0o1000) false))) =
        some (mode % 0o1000) := by
  have hmode : mode % 0o1000 < 8 ^ (2 + 1) := Nat.mod_lt mode (by decide)
  have hlt : mode % 0o1000 < 2 ^ 32 := Nat.lt_trans hmode (by decide)
  rw [formatOctal32_eq hlt]
  refine ⟨length_field (Nat.le_trans (digitLoop_length hmode) (by decide)), ?_⟩
  rw [trim_field (getLast?_digitLoop (by decide) (by decide))]
  exact number_digitLoop (by decide) (by decide) (Nat.lt_trans hmode (by decide))

/-- The size of a header, read back. -/
theorem size_field (hx : x < 10 ^ 10) :
    (field 10 (formatUint64 x)).length = 10 ∧
      GnuAr.number 10 (GnuAr.trim (field 10 (formatUint64 x))) = some x := by
  have hlt : x < 2 ^ 64 := Nat.lt_trans hx (by decide)
  rw [formatUint64_eq hlt]
  refine ⟨length_field (digitLoop_length hx), ?_⟩
  rw [trim_field (getLast?_digitLoop (by decide) (Nat.le_refl 10)), ← formatUint64_eq hlt]
  exact number_formatUint64 hlt

end

/-! ### Headers -/

section

variable {name header data rest : List UInt8} {mode size off : ℕ}

theorem length_makeArHeader (hh : makeArHeader name mode size = .ok header)
    (hsize : size < 10 ^ 10) : header.length = sizeofArHdr := by
  unfold makeArHeader at hh
  split_ifs at hh with hname htable
  · cases hh
    simp only [List.length_append, List.length_replicate, length_field (Nat.le_of_not_lt hname),
      (size_field hsize).1]
    rfl
  · cases hh
    simp only [List.length_append, length_field (Nat.le_of_not_lt hname), (size_field hsize).1,
      (mode_field mode).1]
    rfl

/-- A member with a header that was made for it, read back. -/
theorem readRaw_member (hh : makeArHeader name mode data.length = .ok header)
    (hname : name.getLast? ≠ some space) (hne : name ≠ ascii "//")
    (hsize : data.length < 10 ^ 10) :
    GnuAr.readRaw off (header ++ (data ++ rest)) =
      some (⟨off, name, field 8 (formatOctal32 (mode % 0o1000) false), data⟩, rest) := by
  unfold makeArHeader at hh
  rw [if_neg hne] at hh
  split_ifs at hh with hlen
  cases hh
  have hread := GnuAr.readRaw_fields off rest
    (length_field (Nat.le_of_not_lt hlen))
    (show (field 12 (ascii "0") ++ field 6 (ascii "0") ++ field 6 (ascii "0")).length = 24 from rfl)
    (mode_field mode).1 (size_field hsize).1 (size_field hsize).2
  rw [trim_field hname] at hread
  rw [← hread]
  simp only [List.append_assoc]
  rfl

/-- The table of long names, read back. -/
theorem readRaw_table (hh : makeArHeader (ascii "//") mode data.length = .ok header)
    (hsize : data.length < 10 ^ 10) :
    GnuAr.readRaw off (header ++ (data ++ rest)) =
      some (⟨off, GnuAr.tableName, List.replicate 8 space, data⟩, rest) := by
  unfold makeArHeader at hh
  rw [if_pos rfl, if_neg (by decide)] at hh
  cases hh
  have hread := GnuAr.readRaw_fields off rest
    (show (field 16 (ascii "//")).length = 16 from rfl)
    (show (List.replicate 24 space).length = 24 from rfl)
    (show (List.replicate 8 space).length = 8 from rfl) (size_field hsize).1 (size_field hsize).2
  rw [trim_field (by decide)] at hread
  have hblank : List.replicate 32 space = List.replicate 24 space ++ List.replicate 8 space := rfl
  rw [hblank]
  simp only [List.append_assoc]
  exact hread

end

/-! ### The members -/

/-- A header name for the base name `base`, given the table of long names. -/
def NameFor (table name base : List UInt8) : Prop :=
  (name = base ++ [slash] ∧ name.length ≤ 16) ∨
    ∃ pre post, table = pre ++ (base ++ slash :: newline :: post) ∧
      name = slash :: formatUint64 pre.length

/-- What the analysis keeps of a file: a name for it that can be read, and a size that was
checked. -/
structure Entry.Ok (table : List UInt8) (e : Entry) : Prop where
  base : slash ∉ basename e.arg ∧ basename e.arg ≠ []
  name : NameFor table e.name (basename e.arg)
  size : e.size ≤ 0x7ffff000

section

variable {table : List UInt8} {e : Entry} {es : List Entry}

theorem NameFor.last {name base : List UInt8} (h : NameFor table name base)
    (htable : table.length < 2 ^ 64) : name.getLast? ≠ some space := by
  rcases h with ⟨rfl, -⟩ | ⟨pre, post, rfl, rfl⟩
  · rw [List.getLast?_concat]
    decide
  · rw [List.length_append] at htable
    rw [formatUint64_eq (by omega)]
    rw [List.getLast?_cons]
    intro h
    cases hlast : (digitLoop 10 20 pre.length).reverse.getLast? with
    | none =>
      rw [hlast] at h
      exact absurd (Option.some.inj h) (by decide)
    | some c =>
      rw [hlast] at h
      exact getLast?_digitLoop (by decide) (Nat.le_refl 10) (hlast.trans h)

/-- The name is read back, and it is not the name of a table. -/
theorem NameFor.read {name base : List UInt8} (h : NameFor table name base)
    (hslash : slash ∉ base) (hne : base ≠ []) (htable : table.length < 2 ^ 64) :
    GnuAr.memberName table name = some base ∧ name ≠ GnuAr.symtabName ∧
      name ≠ GnuAr.tableName := by
  rcases h with ⟨rfl, -⟩ | ⟨pre, post, rfl, rfl⟩
  · refine ⟨GnuAr.memberName_short hslash hne, ?_, ?_⟩
    · intro h
      cases base with
      | nil => exact hne rfl
      | cons c cs => cases cs <;> cases h
    · intro h
      cases base with
      | nil => exact hne rfl
      | cons c cs =>
        have hc : c = slash := (List.cons.inj h).1
        exact hslash (hc ▸ List.mem_cons_self ..)
  · have hpre : pre.length < 2 ^ 64 := by
      rw [List.length_append] at htable
      omega
    have hnum := number_formatUint64 hpre
    refine ⟨?_, ?_, ?_⟩
    · rw [GnuAr.memberName_long hnum]
      exact GnuAr.longName_at hslash
    · intro h
      have hnil : formatUint64 pre.length = [] := (List.cons.inj h).2
      rw [hnil] at hnum
      cases hnum
    · intro h
      have hone : formatUint64 pre.length = [slash] := (List.cons.inj h).2
      rw [hone] at hnum
      cases hnum

/-- The member of an entry whose header is at an offset. -/
def Entry.raw (e : Entry) (off : ℕ) : GnuAr.Raw :=
  ⟨off, e.name, field 8 (formatOctal32 (e.file.mode % 0o1000) false), e.file.contents⟩

def Entry.member (e : Entry) (off : ℕ) : GnuAr.Member :=
  ⟨basename e.arg, e.file.mode % 0o1000, e.file.contents, off⟩

theorem Entry.Ok.member (he : e.Ok table) (htable : table.length < 2 ^ 64) (off : ℕ) :
    GnuAr.member table (e.raw off) = some (e.member off) := by
  have hname := (he.name.read he.base.1 he.base.2 htable).1
  change (GnuAr.memberName table e.name).bind _ = _
  rw [hname, Option.bind_some]
  change (GnuAr.number 8 (GnuAr.trim (field 8 _))).map _ = _
  rw [(mode_field e.file.mode).2]
  rfl

theorem members_zipWith (htable : table.length < 2 ^ 64) {offsets : List ℕ}
    (hes : ∀ e ∈ es, e.Ok table) :
    GnuAr.members table (List.zipWith Entry.raw es offsets) =
      some (List.zipWith Entry.member es offsets) := by
  induction es generalizing offsets with
  | nil => rfl
  | cons e es ih =>
    cases offsets with
    | nil => rfl
    | cons off offsets =>
      have he := hes e (List.mem_cons_self ..)
      obtain ⟨-, hsym, htab⟩ := he.name.read he.base.1 he.base.2 htable
      have hnot : ¬ ((e.raw off).name = GnuAr.symtabName ∨ (e.raw off).name = GnuAr.tableName) :=
        not_or.mpr ⟨hsym, htab⟩
      rw [List.zipWith_cons_cons, List.zipWith_cons_cons, GnuAr.members, if_neg hnot,
        he.member htable off, ih fun e he => hes e (List.mem_cons_of_mem _ he)]
      rfl

/-- One turn of the layout. -/
theorem layout_cons {outsize size : ℕ} {sizes : List ℕ} {l : List ℕ × ℕ}
    (h : layout outsize (size :: sizes) = .ok l) : outsize + outsize % 2 ≤ intMax ∧
      ∃ r, layout (outsize + outsize % 2 + sizeofArHdr + size) sizes = .ok r ∧
        l = ((outsize + outsize % 2) :: r.1, r.2) := by
  rw [layout] at h
  split_ifs at h with hmax
  obtain ⟨r, hr, rfl⟩ := map_eq_ok.mp h
  exact ⟨Nat.le_of_not_lt hmax, r, hr, rfl⟩

/-- The offsets are even and in range, and the layout ends behind where it began. -/
theorem layout_offsets {outsize : ℕ} {sizes : List ℕ} {l : List ℕ × ℕ}
    (h : layout outsize sizes = .ok l) : l.1.length = sizes.length ∧ outsize ≤ l.2 ∧
      ∀ o ∈ l.1, o % 2 = 0 ∧ outsize ≤ o ∧ o ≤ intMax := by
  induction sizes generalizing outsize l with
  | nil =>
    cases h
    simp
  | cons size sizes ih =>
    obtain ⟨hmax, r, hr, rfl⟩ := layout_cons h
    obtain ⟨hlen, hle, hoff⟩ := ih hr
    refine ⟨congrArg Nat.succ hlen, by dsimp only; omega, ?_⟩
    intro o ho
    rcases List.mem_cons.mp ho with rfl | ho
    · exact ⟨by omega, by omega, hmax⟩
    · obtain ⟨heven, hlow, hhigh⟩ := hoff o ho
      exact ⟨heven, by omega, hhigh⟩

/-- One turn of the second loop. -/
theorem emit_cons {outsize : ℕ} {bytes : List UInt8} (h : emit outsize (e :: es) = .ok bytes) :
    ∃ header rest, makeArHeader e.name e.file.mode e.size = .ok header ∧
      emit (outsize + outsize % 2 + sizeofArHdr + e.size) es = .ok rest ∧
      bytes = (ascii "\n").take (outsize % 2) ++ (header ++ (e.file.contents ++ rest)) := by
  rw [emit] at h
  obtain ⟨header, hheader, h⟩ := bind_eq_ok.mp h
  obtain ⟨rest, hrest, rfl⟩ := map_eq_ok.mp h
  refine ⟨header, rest, hheader, hrest, ?_⟩
  simp only [List.append_assoc]

/-- The byte between two members. -/
theorem length_pad (n : ℕ) : ((ascii "\n").take (n % 2)).length = n % 2 := by
  rw [List.length_take]
  have hone : (ascii "\n").length = 1 := rfl
  omega

/-- What the second loop writes behind `outsize` bytes: as many bytes as the layout says, which read
back as the members at the offsets of the layout. -/
theorem emit_read {outsize n : ℕ} {l : List ℕ × ℕ} {bytes : List UInt8}
    (htable : table.length < 2 ^ 64) (hes : ∀ e ∈ es, e.Ok table)
    (hl : layout outsize (es.map Entry.size) = .ok l)
    (hb : emit outsize es = .ok bytes) (hn : bytes.length ≤ n) :
    outsize + bytes.length = l.2 ∧
      GnuAr.readRaws n (outsize + outsize % 2) (bytes.drop (outsize % 2)) =
        some (List.zipWith Entry.raw es l.1) := by
  induction es generalizing outsize l bytes n with
  | nil =>
    cases hl
    cases hb
    rw [List.drop_nil]
    exact ⟨rfl, GnuAr.readRaws_nil⟩
  | cons e es ih =>
    have he := hes e (List.mem_cons_self ..)
    have hsize : e.file.contents.length < 10 ^ 10 := Nat.lt_of_le_of_lt he.size (by decide)
    obtain ⟨-, r, hr, rfl⟩ := layout_cons hl
    obtain ⟨header, rest, hheader, hrest, rfl⟩ := emit_cons hb
    have hlength := length_makeArHeader hheader hsize
    have hpad := length_pad outsize
    simp only [List.length_append, hlength, hpad] at hn ⊢
    cases n with
    | zero =>
      exfalso
      unfold sizeofArHdr at hn
      omega
    | succ n =>
      obtain ⟨htotal, hread⟩ := ih (n := n) (fun e he => hes e (List.mem_cons_of_mem _ he)) hr hrest
        (by unfold sizeofArHdr at hn; omega)
      refine ⟨?_, ?_⟩
      · rw [← htotal]
        change _ = outsize + outsize % 2 + sizeofArHdr + e.file.contents.length + rest.length
        omega
      · rw [List.drop_left' hpad,
          GnuAr.readRaws_cons ?_ (readRaw_member hheader (he.name.last htable) ?_ hsize)]
        · have heven : (outsize + outsize % 2 + sizeofArHdr + e.size) % 2 =
              e.file.contents.length % 2 := by
            change (outsize + outsize % 2 + 60 + e.file.contents.length) % 2 = _
            omega
          rw [heven] at hread
          change (GnuAr.readRaws n (outsize + outsize % 2 + 60 + e.file.contents.length +
            e.file.contents.length % 2) (rest.drop (e.file.contents.length % 2))).map _ = _
          change GnuAr.readRaws n (outsize + outsize % 2 + 60 + e.file.contents.length + _) _ = _
            at hread
          rw [hread]
          rfl
        · intro hnil
          have hzero := congrArg List.length hnil
          rw [List.length_append, hlength] at hzero
          unfold sizeofArHdr at hzero
          rw [List.length_nil] at hzero
          omega
        · exact (he.name.read he.base.1 he.base.2 htable).2.2

end

/-! ### Names of files -/

theorem not_mem_takeWhile_slash {s : List UInt8} : slash ∉ s.takeWhile (· != slash) := by
  intro h
  have hall := List.all_takeWhile (p := (· != slash)) (l := s)
  exact absurd rfl (bne_iff_ne.mp (List.all_eq_true.mp hall _ h))

/-- The base name of a path that does not end with a slash. -/
theorem basename_ok {path : List UInt8} (hpath : endswith path (ascii "/") = false) :
    slash ∉ basename path ∧ basename path ≠ [] := by
  unfold basename
  by_cases hnil : path = []
  · subst hnil
    decide
  · obtain ⟨front, c, rfl⟩ : ∃ front c, path = front ++ [c] := by
      rcases List.eq_nil_or_concat path with h | ⟨front, c, h⟩
      · exact absurd h hnil
      · exact ⟨front, c, h.trans List.concat_eq_append⟩
    have hc : c ≠ slash := by
      rintro rfl
      have hends : endswith (front ++ [slash]) (ascii "/") = true := by
        unfold endswith
        have hone : (ascii "/").length = 1 := rfl
        rw [List.length_append, hone, if_neg (by simp), List.length_singleton,
          Nat.add_sub_cancel, List.drop_left]
        rfl
      rw [hends] at hpath
      cases hpath
    have hbeq : (c == slash) = false := beq_eq_false_iff_ne.mpr hc
    have hdrop : (front ++ [c]).reverse.dropWhile (· == slash) = c :: front.reverse := by
      rw [List.reverse_append, List.reverse_singleton, List.singleton_append, List.dropWhile_cons,
        if_neg (by rw [hbeq]; exact Bool.false_ne_true)]
    dsimp only
    rw [if_neg hnil, hdrop, if_neg (List.cons_ne_nil _ _)]
    refine ⟨?_, ?_⟩
    · rw [List.mem_reverse]
      exact not_mem_takeWhile_slash
    · rw [List.takeWhile_cons, if_pos (bne_iff_ne.mpr hc)]
      simp

/-- A base name of what was added to the table, or of what stood there. -/
theorem NameFor.mono {table name base more : List UInt8} (h : NameFor table name base) :
    NameFor (table ++ more) name base := by
  rcases h with h | ⟨pre, post, rfl, hname⟩
  · exact Or.inl h
  · refine Or.inr ⟨pre, post ++ more, ?_, hname⟩
    simp only [List.append_assoc, List.cons_append]

theorem Entry.Ok.mono {table more : List UInt8} {e : Entry} (h : e.Ok table) :
    e.Ok (table ++ more) := ⟨h.base, h.name.mono, h.size⟩

theorem nameFor_ok (a : Analysis) (base : List UInt8) :
    ∃ more, (a.nameFor (base ++ [slash])).2 = a.filenames ++ more ∧
      NameFor (a.filenames ++ more) (a.nameFor (base ++ [slash])).1 base := by
  unfold Analysis.nameFor
  split_ifs with hlen
  · refine ⟨[], (List.append_nil _).symm, Or.inl ⟨rfl, hlen⟩⟩
  · refine ⟨base ++ [slash] ++ [newline], (List.append_assoc _ _ _), Or.inr ⟨a.filenames, [], ?_, rfl⟩⟩
    simp only [List.append_assoc, List.cons_append, List.nil_append]

/-! ### Symbols -/

section

variable {elf : Image}

theorem load_one_lt {addr c : ℕ} (h : elf.load addr 1 = .ok c) : c < 256 := by
  unfold Image.load at h
  split_ifs at h
  cases h
  have hlt := Order.little.decode_lt ((elf.bytes.drop (addr - elf.base)).take 1)
  have hlen : ((elf.bytes.drop (addr - elf.base)).take 1).length ≤ 1 := List.length_take_le _ _
  exact Nat.lt_of_lt_of_le hlt (Nat.pow_le_pow_right (by decide) hlen)

theorem cstring_nul {addr n : ℕ} {s : List UInt8} (h : cstring elf addr n = .ok s) : 0 ∉ s := by
  induction n generalizing addr s with
  | zero => cases h
  | succ n ih =>
    rw [cstring] at h
    obtain ⟨c, hc, h⟩ := bind_eq_ok.mp h
    split_ifs at h with hzero
    · cases h
      exact List.not_mem_nil
    · obtain ⟨t, ht, rfl⟩ := map_eq_ok.mp h
      intro hmem
      rcases List.mem_cons.mp hmem with heq | hmem
      · have hnat := congrArg UInt8.toNat heq
        have hlt := load_one_lt hc
        rw [UInt8.toNat_ofNat'] at hnat
        change 0 = c % 256 at hnat
        omega
      · exact ih ht hmem

theorem symbolLoop_nul {strs syms j n : ℕ} {names : List (List UInt8)}
    (h : symbolLoop elf strs syms j n = .ok names) : ∀ s ∈ names, 0 ∉ s := by
  induction n generalizing j names with
  | zero =>
    cases h
    intro s hs
    cases hs
  | succ n ih =>
    rw [symbolLoop] at h
    obtain ⟨name, -, h⟩ := bind_eq_ok.mp h
    split_ifs at h
    · exact ih h
    · obtain ⟨shndx, -, h⟩ := bind_eq_ok.mp h
      split_ifs at h
      · exact ih h
      · exact ih h
      · obtain ⟨str, -, h⟩ := bind_eq_ok.mp h
        cases str with
        | null => cases h
        | literal =>
          obtain ⟨rest, hrest, rfl⟩ := map_eq_ok.mp h
          intro s hs
          rcases List.mem_cons.mp hs with rfl | hs
          · exact List.not_mem_nil
          · exact ih hrest s hs
        | «at» addr =>
          obtain ⟨t, ht, h⟩ := bind_eq_ok.mp h
          obtain ⟨rest, hrest, rfl⟩ := map_eq_ok.mp h
          intro s hs
          rcases List.mem_cons.mp hs with rfl | hs
          · exact cstring_nul ht
          · exact ih hrest s hs

theorem symbols_nul {names : List (List UInt8)} (h : symbols elf = .ok names) :
    ∀ s ∈ names, 0 ∉ s := by
  unfold symbols at h
  obtain ⟨ok, -, h⟩ := bind_eq_ok.mp h
  split_ifs at h
  obtain ⟨strs, -, h⟩ := bind_eq_ok.mp h
  split_ifs at h
  obtain ⟨symsec, -, h⟩ := bind_eq_ok.mp h
  obtain ⟨syms, -, h⟩ := bind_eq_ok.mp h
  split_ifs at h
  obtain ⟨size, -, h⟩ := bind_eq_ok.mp h
  obtain ⟨info, -, h⟩ := bind_eq_ok.mp h
  exact symbolLoop_nul h

end

/-! ### The analysis -/

/-- The global symbols an object defines. -/
def globals (f : File) : List (List UInt8) :=
  match symbols f.elf with
  | .ok names => names
  | .error _ => []

/-- The arguments that are archived, with their files: neither passed over by name nor
directories. -/
def archived (fs : Files) (args : List (List UInt8)) : List (List UInt8 × File) :=
  args.filterMap fun arg =>
    if skipped arg then none
    else (fs.stat arg).bind fun f => if f.isDir then none else some (arg, f)

/-- For each symbol of the given files, the number of its file. -/
def symnamesOf (ins : List (List UInt8 × File)) : List ℕ :=
  ins.zipIdx.flatMap fun p => (globals p.1.2).map fun _ => p.2

/-- What the analysis of some files has kept of them. -/
structure Analysed (a : Analysis) (ins : List (List UInt8 × File)) : Prop where
  entries : a.entries.map (fun e => (e.arg, e.file)) = ins
  ok : ∀ e ∈ a.entries, e.Ok a.filenames
  symnames : a.symnames = symnamesOf ins
  symbols : a.symbols = (ins.flatMap fun i => globals i.2).flatMap fun s => s ++ [0]
  nul : ∀ i ∈ ins, ∀ s ∈ globals i.2, 0 ∉ s
  filenames : a.entries = [] → a.filenames = []

section

variable {fs : Files} {a a' : Analysis} {ins : List (List UInt8 × File)} {arg : List UInt8}
  {f : File}

theorem analysed_empty : Analysed Analysis.empty [] := by
  refine ⟨rfl, ?_, rfl, rfl, ?_, fun _ => rfl⟩
  · intro e he
    cases he
  · intro i hi
    cases hi

/-- One file is added. -/
theorem Analysed.add {names : List (List UInt8)} (h : Analysed a ins)
    (hbase : slash ∉ basename arg ∧ basename arg ≠ []) (hlen : arg.length < pathMax)
    (hsize : f.contents.length ≤ 0x7ffff000) (hnames : Ar.symbols f.elf = .ok names) :
    Analysed (a.add arg f names) (ins ++ [(arg, f)]) := by
  have hglobals : globals f = names := by
    unfold globals
    rw [hnames]
  have htake : arg.take pathMax = arg := List.take_of_length_le (Nat.le_of_lt hlen)
  have hcount : a.entries.length = ins.length := by rw [← h.entries, List.length_map]
  obtain ⟨more, hmore, hname⟩ := nameFor_ok a (basename arg)
  unfold Analysis.add
  rw [htake]
  dsimp only
  refine ⟨?_, ?_, ?_, ?_, ?_, ?_⟩
  · rw [List.map_append, h.entries]
    rfl
  · intro e he
    dsimp only at he ⊢
    rw [hmore]
    rcases List.mem_append.mp he with he | he
    · exact (h.ok e he).mono
    · rw [List.mem_singleton] at he
      subst he
      exact ⟨hbase, hname, hsize⟩
  · change a.symnames ++ _ = _
    rw [h.symnames]
    unfold symnamesOf
    rw [List.zipIdx_append, List.flatMap_append, hcount]
    simp [hglobals]
  · change a.symbols ++ _ = _
    rw [h.symbols, List.flatMap_append, List.flatMap_append]
    simp [hglobals]
  · intro i hi
    rcases List.mem_append.mp hi with hi | hi
    · exact h.nul i hi
    · rw [List.mem_singleton] at hi
      subst hi
      rw [hglobals]
      exact symbols_nul hnames
  · intro hnil
    cases (List.append_eq_nil_iff.mp hnil).2

/-- The analysis keeps what is archived. -/
theorem analyse_analysed {args : List (List UInt8)} (h : Analysed a ins)
    (ha : analyse fs args a = .ok a') : Analysed a' (ins ++ archived fs args) := by
  induction args generalizing a ins with
  | nil =>
    cases ha
    unfold archived
    rw [List.filterMap_nil, List.append_nil]
    exact h
  | cons arg args ih =>
    rw [analyse] at ha
    unfold archived
    rw [List.filterMap_cons]
    by_cases hskip : skipped arg = true
    · rw [if_pos hskip] at ha ⊢
      exact ih h ha
    · rw [if_neg hskip] at ha ⊢
      cases hstat : fs.stat arg with
      | none =>
        rw [hstat] at ha
        cases ha
      | some f =>
        rw [hstat] at ha
        rw [Option.bind_some]
        dsimp only at ha
        by_cases hdir : f.isDir = true
        · rw [if_pos hdir] at ha ⊢
          exact ih h ha
        · rw [if_neg hdir] at ha ⊢
          split_ifs at ha with hempty hlarge
          obtain ⟨names, hnames, ha⟩ := bind_eq_ok.mp ha
          have hslash : endswith arg (ascii "/") = false := by
            rw [Bool.not_eq_true, skipped, Bool.or_eq_false_iff] at hskip
            exact hskip.1
          have hlen : arg.length < pathMax := by
            by_contra hlong
            rw [fs.short arg (Nat.le_of_not_lt hlong)] at hstat
            cases hstat
          have hadd := h.add (basename_ok hslash) hlen (Nat.le_of_not_lt hlarge) hnames
          have hrest := ih hadd ha
          rw [List.append_assoc] at hrest
          exact hrest

end

/-! ### The symbol table -/

section

variable {α β : Type*}

/-- A list with its places, from another of the same length. -/
theorem zip_eq_zipIdx {as : List α} {os : List ℕ} (hlen : os.length = as.length) :
    as.zip os = as.zipIdx.map fun p => (p.1, os.getD p.2 0) := by
  apply List.ext_getElem
  · rw [List.length_zip, List.length_map, List.length_zipIdx, hlen, Nat.min_self]
  · intro i hi hi'
    have hos : i < os.length := by
      rw [List.length_zip] at hi
      omega
    rw [List.getElem_zip, List.getElem_map, List.getElem_zipIdx, Nat.zero_add,
      List.getD_eq_getElem?_getD, List.getElem?_eq_getElem hos, Option.getD_some]

theorem zip_flatMap {as : List α} {f : α → List β} {g : α → ℕ} :
    (as.flatMap f).zip (as.flatMap fun a => (f a).map fun _ => g a) =
      as.flatMap fun a => (f a).map fun b => (b, g a) := by
  induction as with
  | nil => rfl
  | cons a as ih =>
    rw [List.flatMap_cons, List.flatMap_cons, List.flatMap_cons,
      List.zip_append (List.length_map _).symm, ih]
    congr 1
    induction f a with
    | nil => rfl
    | cons b bs ihb => rw [List.map_cons, List.zip_cons_cons, ihb, List.map_cons]

end

/-! ### The archive -/

section

variable {a : Analysis} {ins : List (List UInt8 × File)} {offsets : List ℕ}

/-- The data of the two tables. -/
def Analysis.symtab (a : Analysis) (offsets : List ℕ) : List UInt8 :=
  a.tablebuf offsets ++ (a.symbols ++ [0].take (a.symbolsEnd % 2))

def Analysis.nametab (a : Analysis) : List UInt8 :=
  a.filenames ++ (ascii "\n").take (a.filenames.length % 2)

theorem length_symtab : (a.symtab offsets).length = a.tablebufsize + roundup a.symbols.length := by
  have hpad : (([0] : List UInt8).take (a.symbolsEnd % 2)).length = a.symbols.length % 2 := by
    rw [List.length_take, List.length_singleton]
    unfold Analysis.symbolsEnd Analysis.tablebufsize sizeofArHdr
    omega
  unfold Analysis.symtab Analysis.tablebuf Analysis.tablebufsize roundup
  rw [List.length_append, List.length_append, List.length_append, hpad, Bytes.Order.length_encode,
    Bytes.Order.length_encodeAll, List.length_map]
  omega

theorem length_nametab : a.nametab.length = roundup a.filenames.length := by
  unfold Analysis.nametab roundup
  rw [List.length_append, length_pad]
  omega

theorem nametab_nil (hnil : a.filenames.length = 0) : a.nametab = [] := by
  rw [List.eq_nil_iff_length_eq_zero, length_nametab, hnil]
  rfl

/-- The eight pieces, as two members. -/
theorem metadata_eq (h1 h2 : List UInt8) : a.metadata h1 h2 offsets = armag ++ (h1 ++
    (a.symtab offsets ++ ((if a.filenames.length ≠ 0 then h2 else []) ++ a.nametab))) := by
  unfold Analysis.metadata Analysis.symtab Analysis.nametab
  simp only [List.append_assoc]

/-- Even the first member begins in the range of `int`. -/
theorem metadataEnd_le {l : List ℕ × ℕ} (h : Analysed a ins)
    (hl : layout a.metadataEnd (a.entries.map Entry.size) = .ok l) : a.metadataEnd ≤ intMax := by
  cases hentries : a.entries with
  | nil =>
    have hins : ins = [] := by rw [← h.entries, hentries, List.map_nil]
    have hsyms := h.symnames
    have hsymbols := h.symbols
    subst hins
    unfold Analysis.metadataEnd Analysis.symbolsEnd Analysis.tablebufsize
    rw [hsyms, hsymbols, h.filenames hentries]
    decide
  | cons e es =>
    rw [hentries, List.map_cons] at hl
    have hle := (layout_cons hl).1
    omega

theorem symtab_read (h : Analysed a ins) (hlen : offsets.length = ins.length)
    (hcount : a.symnames.length < 2 ^ 32) (hoffsets : ∀ o ∈ offsets, o ≤ intMax) :
    GnuAr.readSymbols (a.symtab offsets) =
      some ((ins.zip offsets).flatMap fun p => (globals p.1.2).map fun s => (s, p.2)) := by
  have hzip := zip_eq_zipIdx hlen
  have hfst : (ins.zip offsets).map Prod.fst = ins := List.map_fst_zip (Nat.le_of_eq hlen.symm)
  have hnames : (ins.flatMap fun i => globals i.2) =
      (ins.zip offsets).flatMap fun p => globals p.1.2 := by
    rw [← hfst, List.flatMap_map, hfst]
  have hnumbers : (a.symnames.map fun i => offsets.getD i 0) =
      (ins.zip offsets).flatMap fun p => (globals p.1.2).map fun _ => p.2 := by
    rw [h.symnames, hzip]
    unfold symnamesOf
    rw [List.map_flatMap, List.flatMap_map]
    simp only [List.map_map]
    rfl
  have hsame : a.symnames.length = (ins.flatMap fun i => globals i.2).length := by
    rw [h.symnames, hnames, hzip]
    unfold symnamesOf
    rw [List.flatMap_map, List.length_flatMap, List.length_flatMap]
    simp only [List.length_map]
  unfold Analysis.symtab Analysis.tablebuf
  rw [h.symbols, List.append_assoc, hsame, hnumbers, GnuAr.readSymbols_table, hnames, zip_flatMap]
  · rw [hnames, List.length_flatMap, List.length_flatMap]
    simp only [List.length_map]
  · rw [← hsame]
    exact hcount
  · intro o ho
    rw [List.mem_flatMap] at ho
    obtain ⟨p, hp, ho⟩ := ho
    rw [List.mem_map] at ho
    obtain ⟨-, -, rfl⟩ := ho
    have hle := hoffsets p.2 (List.of_mem_zip hp).2
    unfold intMax at hle
    omega
  · intro s hs
    rw [List.mem_flatMap] at hs
    obtain ⟨i, hi, hs⟩ := hs
    exact h.nul i hi s hs

theorem dataOf_entries (offsets : List ℕ) {table name : List UInt8} {es : List Entry}
    (htable : table.length < 2 ^ 64)
    (hes : ∀ e ∈ es, e.Ok table) (hname : name = GnuAr.symtabName ∨ name = GnuAr.tableName) :
    GnuAr.dataOf name (List.zipWith Entry.raw es offsets) = none := by
  unfold GnuAr.dataOf
  rw [Option.map_eq_none_iff, List.find?_eq_none]
  intro r hr
  obtain ⟨i, hi, rfl⟩ := List.mem_iff_getElem.mp hr
  rw [List.getElem_zipWith]
  rw [List.length_zipWith] at hi
  have he := hes _ (List.getElem_mem (l := es) (n := i) (by omega))
  obtain ⟨-, hsym, htab⟩ := he.name.read he.base.1 he.base.2 htable
  intro h
  rcases hname with rfl | rfl
  · exact hsym (eq_of_beq h)
  · exact htab (eq_of_beq h)

end

section

variable {a : Analysis} {ins : List (List UInt8 × File)} {l : List ℕ × ℕ} {h1 h2 rest : List UInt8}
  {n : ℕ}

/-- What stands behind the symbol table, up to the members. -/
def Analysis.longNames (a : Analysis) (h2 : List UInt8) : List UInt8 :=
  (if a.filenames.length ≠ 0 then h2 else []) ++ a.nametab

/-- What this reads as. -/
def Analysis.longNamesRaw (a : Analysis) : List GnuAr.Raw :=
  if a.filenames.length ≠ 0 then
    [⟨a.symbolsEnd + a.symbolsEnd % 2, GnuAr.tableName, List.replicate 8 space, a.nametab⟩]
  else []

theorem symtab_end (offsets : List ℕ) : 8 + 60 + (a.symtab offsets).length +
    (a.symtab offsets).length % 2 = a.symbolsEnd + a.symbolsEnd % 2 ∧
      (a.symtab offsets).length % 2 = 0 := by
  have hlen : (a.symtab offsets).length = _ := length_symtab
  rw [hlen]
  unfold Analysis.symbolsEnd Analysis.tablebufsize roundup sizeofArHdr
  omega

theorem metadataEnd_eq (a : Analysis) : a.metadataEnd = a.symbolsEnd + a.symbolsEnd % 2 +
    ((if a.filenames.length ≠ 0 then 60 else 0) + a.nametab.length) ∧ a.metadataEnd % 2 = 0 := by
  have hlen : a.nametab.length = _ := length_nametab
  rw [hlen]
  unfold Analysis.metadataEnd roundup sizeofArHdr
  split_ifs <;> omega

theorem lengths_le (h : Analysed a ins)
    (hl : layout a.metadataEnd (a.entries.map Entry.size) = .ok l) :
    (a.symtab l.1).length < 10 ^ 10 ∧ a.nametab.length < 10 ^ 10 ∧ a.filenames.length < 2 ^ 64 ∧
      a.symnames.length < 2 ^ 32 := by
  have hmax := metadataEnd_le h hl
  have hend := (metadataEnd_eq a).1
  have hsym := symtab_end (a := a) l.1
  have hname : a.nametab.length = _ := length_nametab
  have hcount : a.symnames.length ≤ a.symbolsEnd := by
    unfold Analysis.symbolsEnd Analysis.tablebufsize
    omega
  unfold roundup at hname
  unfold intMax at hmax
  refine ⟨by omega, by omega, by omega, by omega⟩

theorem length_header1 (h : Analysed a ins)
    (hl : layout a.metadataEnd (a.entries.map Entry.size) = .ok l) (hh1 : a.header1 = .ok h1) :
    h1.length = 60 := by
  have hsymtab : (a.symtab l.1).length = _ := length_symtab
  have hsize := (lengths_le h hl).1
  rw [hsymtab] at hsize
  exact length_makeArHeader hh1 hsize

theorem length_header2 (h : Analysed a ins)
    (hl : layout a.metadataEnd (a.entries.map Entry.size) = .ok l) (hh2 : a.header2 = .ok h2) :
    h2.length = 60 := by
  have hnametab : a.nametab.length = _ := length_nametab
  have hsize := (lengths_le h hl).2.1
  rw [hnametab] at hsize
  exact length_makeArHeader hh2 hsize

/-- The pieces of the first `writev` are as long as `outsize` says. -/
theorem length_metadata (h : Analysed a ins)
    (hl : layout a.metadataEnd (a.entries.map Entry.size) = .ok l) (hh1 : a.header1 = .ok h1)
    (hh2 : a.header2 = .ok h2) :
    (armag ++ (h1 ++ (a.symtab l.1 ++ a.longNames h2))).length = a.metadataEnd := by
  have hmag : armag.length = 8 := rfl
  obtain ⟨hoff, hpar⟩ := symtab_end (a := a) l.1
  have hend := (metadataEnd_eq a).1
  have hlen2 := length_header2 h hl hh2
  have hnames : (a.longNames h2).length =
      (if a.filenames.length ≠ 0 then 60 else 0) + a.nametab.length := by
    unfold Analysis.longNames
    rw [List.length_append]
    split_ifs
    · rw [hlen2]
    · rfl
  simp only [List.length_append, hmag, length_header1 h hl hh1, hnames, hend]
  omega

theorem append_ne_nil {s t : List UInt8} (hs : s.length = 60) : s ++ t ≠ [] := by
  intro hnil
  have hzero := congrArg List.length hnil
  rw [List.length_append, hs, List.length_nil] at hzero
  omega

/-- The table of long names, where there is one, and the members. -/
theorem readRaws_names (h : Analysed a ins)
    (hl : layout a.metadataEnd (a.entries.map Entry.size) = .ok l) (hh2 : a.header2 = .ok h2)
    (hrest : emit a.metadataEnd a.entries = .ok rest)
    (hn : (a.longNames h2 ++ rest).length ≤ n) :
    GnuAr.readRaws n (a.symbolsEnd + a.symbolsEnd % 2) (a.longNames h2 ++ rest) =
      some (a.longNamesRaw ++ List.zipWith Entry.raw a.entries l.1) := by
  obtain ⟨-, hsize, htable, -⟩ := lengths_le h hl
  obtain ⟨hend, heven⟩ := metadataEnd_eq a
  have hlen := length_header2 h hl hh2
  have hmembers : ∀ k, rest.length ≤ k → GnuAr.readRaws k a.metadataEnd rest =
      some (List.zipWith Entry.raw a.entries l.1) := by
    intro k hk
    have hread := (emit_read htable h.ok hl hrest hk).2
    rwa [heven, List.drop_zero, Nat.add_zero] at hread
  unfold Analysis.longNames Analysis.longNamesRaw at *
  by_cases hfile : a.filenames.length ≠ 0
  · rw [if_pos hfile] at hn hend ⊢
    rw [if_pos hfile]
    have hnametab : a.nametab.length = roundup a.filenames.length := length_nametab
    unfold Analysis.header2 at hh2
    rw [← hnametab] at hh2
    have hpar : a.nametab.length % 2 = 0 := by
      rw [hnametab]
      unfold roundup
      omega
    rw [List.append_assoc] at hn ⊢
    rw [List.length_append, List.length_append, hlen] at hn
    obtain ⟨k, rfl⟩ : ∃ k, n = k + 1 := ⟨n - 1, by omega⟩
    have hoff : a.symbolsEnd + a.symbolsEnd % 2 + 60 + a.nametab.length + a.nametab.length % 2 =
        a.metadataEnd := by omega
    rw [GnuAr.readRaws_cons (append_ne_nil hlen) (readRaw_table hh2 hsize)]
    dsimp only
    rw [hoff, hpar, List.drop_zero, hmembers k (by omega)]
    rfl
  · have hnil := nametab_nil (Decidable.not_not.mp hfile)
    rw [if_neg hfile, hnil] at hn hend ⊢
    rw [if_neg hfile]
    rw [List.append_nil, List.nil_append] at hn ⊢
    rw [List.length_nil] at hend
    have hoff : a.symbolsEnd + a.symbolsEnd % 2 = a.metadataEnd := by omega
    rw [hoff]
    exact hmembers n hn

/-- All that stands behind the magic number, read back. -/
theorem readRaws_archive (h : Analysed a ins)
    (hl : layout a.metadataEnd (a.entries.map Entry.size) = .ok l) (hh1 : a.header1 = .ok h1)
    (hh2 : a.header2 = .ok h2) (hrest : emit a.metadataEnd a.entries = .ok rest)
    (hn : (h1 ++ (a.symtab l.1 ++ (a.longNames h2 ++ rest))).length ≤ n) :
    ∃ mode, GnuAr.readRaws n 8 (h1 ++ (a.symtab l.1 ++ (a.longNames h2 ++ rest))) =
      some (⟨8, GnuAr.symtabName, mode, a.symtab l.1⟩ ::
        (a.longNamesRaw ++ List.zipWith Entry.raw a.entries l.1)) := by
  obtain ⟨hsize, -, -, -⟩ := lengths_le h hl
  obtain ⟨hoff, hpar⟩ := symtab_end (a := a) l.1
  have hlen := length_header1 h hl hh1
  unfold Analysis.header1 at hh1
  have hsymtab : (a.symtab l.1).length = _ := length_symtab
  rw [← hsymtab] at hh1
  rw [List.length_append, List.length_append, hlen] at hn
  obtain ⟨k, rfl⟩ : ∃ k, n = k + 1 := ⟨n - 1, by omega⟩
  have hread := readRaws_names (n := k) h hl hh2 hrest (by omega)
  refine ⟨field 8 (formatOctal32 (0 % 0o1000) false), ?_⟩
  rw [GnuAr.readRaws_cons (append_ne_nil hlen) (readRaw_member hh1 (by decide) (by decide) hsize)]
  dsimp only
  rw [hoff, hpar, List.drop_zero, hread]
  rfl

end

section

variable {a : Analysis} {es : List Entry} {table : List UInt8} {l : List ℕ × ℕ}

/-- The table of long names as the reader finds it. -/
theorem nametab_found {mode : List UInt8} (htable : a.nametab.length < 2 ^ 64)
    (hes : ∀ e ∈ es, e.Ok a.nametab) :
    (GnuAr.dataOf GnuAr.tableName (⟨8, GnuAr.symtabName, mode, table⟩ ::
      (a.longNamesRaw ++ List.zipWith Entry.raw es l.1))).getD [] = a.nametab := by
  have hnone := dataOf_entries l.1 htable hes (Or.inr rfl)
  unfold GnuAr.dataOf at hnone ⊢
  unfold Analysis.longNamesRaw
  rw [List.find?_cons_of_neg]
  · split_ifs with hfile
    · rfl
    · rw [List.nil_append, hnone, nametab_nil (Decidable.not_not.mp hfile)]
      rfl
  · intro heq
    have hname : (GnuAr.symtabName == GnuAr.tableName) = true := heq
    exact absurd hname (by decide)

theorem members_found {mode : List UInt8} (htable : a.nametab.length < 2 ^ 64)
    (hes : ∀ e ∈ es, e.Ok a.nametab) :
    GnuAr.members a.nametab (⟨8, GnuAr.symtabName, mode, table⟩ ::
      (a.longNamesRaw ++ List.zipWith Entry.raw es l.1)) =
      some (List.zipWith Entry.member es l.1) := by
  rw [GnuAr.members, if_pos (Or.inl rfl)]
  unfold Analysis.longNamesRaw
  split_ifs with hfile
  · rw [List.singleton_append, GnuAr.members, if_pos (Or.inr rfl)]
    exact members_zipWith htable hes
  · rw [List.nil_append]
    exact members_zipWith htable hes

end

/-- The archive that is written is as long as was computed, and read as a GNU archive it holds the
archived files in order, with their base names, permissions and contents, at even offsets, and maps
their global symbols in order to the headers of their members. -/
theorem archive_read {fs : Files} {args : List (List UInt8)} {out : Output}
    (h : arMain fs args = .ok out) :
    ∃ offsets, offsets.length = (archived fs args).length ∧ (∀ o ∈ offsets, o % 2 = 0) ∧
      GnuAr.read out.bytes = some
        ⟨List.zipWith (fun i o => ⟨basename i.1, i.2.mode % 0o1000, i.2.contents, o⟩)
          (archived fs args) offsets,
        ((archived fs args).zip offsets).flatMap fun p =>
          (globals p.1.2).map fun s => (s, p.2)⟩ ∧
      out.bytes.length = out.outsize := by
  unfold arMain at h
  obtain ⟨a, ha, h⟩ := bind_eq_ok.mp h
  split_ifs at h with hheap
  obtain ⟨l, hl, h⟩ := bind_eq_ok.mp h
  obtain ⟨h1, hh1, h⟩ := bind_eq_ok.mp h
  obtain ⟨h2, hh2, h⟩ := bind_eq_ok.mp h
  obtain ⟨rest, hrest, rfl⟩ := map_eq_ok.mp h
  have hana := analyse_analysed analysed_empty ha
  rw [List.nil_append] at hana
  have hmeta : a.metadata h1 h2 l.1 = armag ++ (h1 ++ (a.symtab l.1 ++ a.longNames h2)) :=
    metadata_eq h1 h2
  obtain ⟨hsize, hnsize, htable, hcount⟩ := lengths_le hana hl
  obtain ⟨hlen, -, hoffsets⟩ := layout_offsets hl
  have hmag : armag.length = 8 := rfl
  have hes : ∀ e ∈ a.entries, e.Ok a.nametab := fun e he => (hana.ok e he).mono
  have htab : a.nametab.length < 2 ^ 64 := Nat.lt_trans hnsize (by decide)
  have hcountins : l.1.length = (archived fs args).length := by
    rw [hlen, List.length_map, ← hana.entries, List.length_map]
  rw [hmeta] at hrest ⊢
  have hmetalen := length_metadata hana hl hh1 hh2
  rw [hmetalen] at hrest
  have hbytes : armag ++ (h1 ++ (a.symtab l.1 ++ a.longNames h2)) ++ rest =
      armag ++ (h1 ++ (a.symtab l.1 ++ (a.longNames h2 ++ rest))) := by
    simp only [List.append_assoc]
  have hle : (h1 ++ (a.symtab l.1 ++ (a.longNames h2 ++ rest))).length ≤
      (armag ++ (h1 ++ (a.symtab l.1 ++ (a.longNames h2 ++ rest)))).length := by
    exact List.Sublist.length_le (List.sublist_append_right _ _)
  obtain ⟨mode, hread⟩ := readRaws_archive hana hl hh1 hh2 hrest hle
  have htotal := (emit_read htab hes hl hrest (Nat.le_refl _)).1
  refine ⟨l.1, hcountins, fun o ho => (hoffsets o ho).1, ?_, ?_⟩
  · dsimp only
    rw [hbytes]
    unfold GnuAr.read
    rw [List.take_left' hmag, if_neg (fun hne => hne rfl), List.drop_left' hmag, hread,
      Option.bind_some, nametab_found htab hes, members_found htab hes, Option.bind_some]
    have hsym : GnuAr.dataOf GnuAr.symtabName (⟨8, GnuAr.symtabName, mode, a.symtab l.1⟩ ::
        (a.longNamesRaw ++ List.zipWith Entry.raw a.entries l.1)) = some (a.symtab l.1) := rfl
    rw [hsym]
    dsimp only
    rw [symtab_read hana hcountins hcount fun o ho => (hoffsets o ho).2.2, Option.map_some,
      ← hana.entries, List.zipWith_map_left]
    rfl
  · dsimp only
    rw [List.length_append, hmetalen]
    exact htotal

/-- An object that defines `f`: the file header, the headers of three sections, `.strtab` and one
symbol. -/
def tinyObject : Image where
  base := 0x10000
  bytes := [0x7f, 0x45, 0x4c, 0x46, 2] ++ List.replicate 35 0 ++ [64] ++ List.replicate 17 0 ++
    [64, 0, 3, 0, 1, 0] ++ List.replicate 64 0 ++
    [1, 0, 0, 0, 3] ++ List.replicate 19 0 ++ [0, 1, 0, 0, 0, 0, 0, 0, 11] ++ List.replicate 31 0 ++
    [0, 0, 0, 0, 2] ++ List.replicate 19 0 ++ [11, 1, 0, 0, 0, 0, 0, 0, 24] ++
      List.replicate 23 0 ++ [24] ++ List.replicate 7 0 ++
    (0 :: strtabName ++ [0, 102, 0]) ++ [9, 0, 0, 0, 0, 0, 1] ++ List.replicate 17 0

/-- That object and nothing else, as `d/a.o`. -/
def tinyFiles : Files where
  stat path := if path = ascii "d/a.o" then some ⟨false, 0o100644, tinyObject⟩ else none
  short path hlen := if_neg (by rintro rfl; revert hlen; decide)
theorem archive_read_tiny : ∃ out, arMain tinyFiles [ascii "d/a.o"] = .ok out ∧
    ∃ offsets, offsets.length = (archived tinyFiles [ascii "d/a.o"]).length ∧
      (∀ o ∈ offsets, o % 2 = 0) ∧
      GnuAr.read out.bytes = some
        ⟨List.zipWith (fun i o => ⟨basename i.1, i.2.mode % 0o1000, i.2.contents, o⟩)
          (archived tinyFiles [ascii "d/a.o"]) offsets,
        ((archived tinyFiles [ascii "d/a.o"]).zip offsets).flatMap fun p =>
          (globals p.1.2).map fun s => (s, p.2)⟩ ∧
      out.bytes.length = out.outsize := by
  have hok : (arMain tinyFiles [ascii "d/a.o"]).toBool = true := by decide +kernel
  cases hout : arMain tinyFiles [ascii "d/a.o"] with
  | error e =>
    rw [hout] at hok
    cases hok
  | ok out => exact ⟨out, rfl, archive_read hout⟩

end Bootsh.Ar
