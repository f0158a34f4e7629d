import Bootsh.Lib.Bytes

/-!
The GNU format of archives, as it is read. Every member is a header of 60 bytes and its data, and
begins at an even offset. The member "/" is the symbol table, the member "//" the table of long
names; a name is short and ends with '/', or is '/' and the offset of a long one.
-/
namespace GnuAr

open Bytes (Order)

def space : UInt8 := 32
def slash : UInt8 := 47
def newline : UInt8 := 10

/-- A text of ASCII. -/
def ascii (s : String) : List UInt8 := s.toList.map fun c => UInt8.ofNat c.toNat

def magic : List UInt8 := ascii "!<arch>\n"

def fmag : List UInt8 := ascii "`\n"

/-- A field without the spaces behind it. -/
def trim (s : List UInt8) : List UInt8 := (s.reverse.dropWhile (· == space)).reverse

/-- A numeral: digits and nothing else. -/
def number (base : ℕ) (s : List UInt8) : Option ℕ :=
  if s ≠ [] ∧ s.all (fun c => decide (48 ≤ c.toNat ∧ c.toNat < 48 + base)) then
    some (s.foldl (fun n c => n * base + (c.toNat - 48)) 0)
  else none

/-- A member as it stands: where its header is, and its fields. -/
structure Raw where
  offset : ℕ
  name : List UInt8
  mode : List UInt8
  data : List UInt8
  deriving DecidableEq, Repr

/-- A member and what stands behind its data. -/
def readRaw (off : ℕ) (bs : List UInt8) : Option (Raw × List UInt8) :=
  if bs.length < 60 ∨ (bs.drop 58).take 2 ≠ fmag then none
  else (number 10 (trim ((bs.drop 48).take 10))).bind fun size =>
    if (bs.drop 60).length < size then none
    else some (⟨off, trim (bs.take 16), (bs.drop 40).take 8, (bs.drop 60).take size⟩,
      (bs.drop 60).drop size)

/-- The members one behind the other, a byte between them where the data is odd. -/
def readRaws : ℕ → ℕ → List UInt8 → Option (List Raw)
  | 0, _, bs => if bs = [] then some [] else none
  | n + 1, off, bs =>
    if bs = [] then some []
    else (readRaw off bs).bind fun r =>
      let size := r.1.data.length
      (readRaws n (off + 60 + size + size % 2) (r.2.drop (size % 2))).map fun rs => r.1 :: rs

/-- The long name at an offset of the table. -/
def longName (table : List UInt8) (i : ℕ) : Option (List UInt8) :=
  let name := (table.drop i).takeWhile (· != slash)
  if ((table.drop i).drop name.length).take 2 = [slash, newline] then some name else none

def memberName (table name : List UInt8) : Option (List UInt8) :=
  if name.head? = some slash then (number 10 name.tail).bind (longName table)
  else if name.getLast? = some slash then some name.dropLast
  else none

structure Member where
  name : List UInt8
  mode : ℕ
  contents : List UInt8
  offset : ℕ
  deriving DecidableEq, Repr

def symtabName : List UInt8 := [slash]
def tableName : List UInt8 := [slash, slash]

def member (table : List UInt8) (r : Raw) : Option Member :=
  (memberName table r.name).bind fun name => (number 8 (trim r.mode)).map fun mode =>
    ⟨name, mode, r.data, r.offset⟩

/-- The members that are neither of the two tables. -/
def members (table : List UInt8) : List Raw → Option (List Member)
  | [] => some []
  | r :: rs =>
    if r.name = symtabName ∨ r.name = tableName then members table rs
    else (member table r).bind fun m => (members table rs).map fun ms => m :: ms

/-- Strings, each with a NUL behind it. -/
def readStrings : ℕ → List UInt8 → Option (List (List UInt8))
  | 0, _ => some []
  | n + 1, bs =>
    let s := bs.takeWhile (· != 0)
    if s.length < bs.length then (readStrings n (bs.drop (s.length + 1))).map fun ss => s :: ss
    else none

/-- The symbol table: each symbol with the offset of the header of its member. -/
def readSymbols (data : List UInt8) : Option (List (List UInt8 × ℕ)) :=
  let count := Order.big.decode (data.take 4)
  let offsets := (data.drop 4).take (4 * count)
  if data.length < 4 + 4 * count then none
  else (readStrings count (data.drop (4 + 4 * count))).map fun names =>
    names.zip ((List.range count).map fun i => Order.big.decode ((offsets.drop (4 * i)).take 4))

structure Archive where
  members : List Member
  symbols : List (List UInt8 × ℕ)
  deriving DecidableEq, Repr

def dataOf (name : List UInt8) (raws : List Raw) : Option (List UInt8) :=
  (raws.find? fun r => r.name == name).map Raw.data

/-- What an archive holds. -/
def read (bs : List UInt8) : Option Archive :=
  if bs.take 8 ≠ magic then none
  else (readRaws bs.length 8 (bs.drop 8)).bind fun raws =>
    (members ((dataOf tableName raws).getD []) raws).bind fun ms =>
      match dataOf symtabName raws with
      | none => some ⟨ms, []⟩
      | some data => (readSymbols data).map fun symbols => ⟨ms, symbols⟩

/-! ### Fields and numerals -/

section

variable {s t : List UInt8} {base n k : ℕ}

theorem trim_spaces (hs : s.getLast? ≠ some space) : trim (s ++ List.replicate k space) = s := by
  unfold trim
  rw [List.reverse_append, List.reverse_replicate, List.dropWhile_append_of_pos]
  · have hhead : s.reverse.dropWhile (· == space) = s.reverse := by
      cases hrev : s.reverse with
      | nil => rfl
      | cons c cs =>
        rw [List.dropWhile_cons, if_neg]
        rw [← List.head?_reverse, hrev] at hs
        intro hc
        exact hs (congrArg some (eq_of_beq hc))
    rw [hhead, List.reverse_reverse]
  · intro c hc
    rw [List.eq_of_mem_replicate hc]
    rfl

/-- A digit as the byte it is written with. -/
def digit (d : ℕ) : UInt8 := UInt8.ofNat (d + 48)

theorem toNat_digit {d : ℕ} (hd : d < 10) : (digit d).toNat = d + 48 := by
  unfold digit
  rw [UInt8.toNat_ofNat']
  omega

/-- A numeral, from its digits with the last one first. -/
theorem number_reverse {ds : List ℕ} (hne : ds ≠ []) (hbase : base ≤ 10)
    (hds : ∀ d ∈ ds, d < base) : number base (ds.map digit).reverse =
      some (ds.foldr (fun d n => n * base + d) 0) := by
  unfold number
  rw [if_pos]
  · congr 1
    rw [List.foldl_reverse, List.foldr_map]
    induction ds with
    | nil => rfl
    | cons d ds ih =>
      have hd := toNat_digit (Nat.lt_of_lt_of_le (hds d (List.mem_cons_self ..)) hbase)
      rw [List.foldr_cons, List.foldr_cons, hd, Nat.add_sub_cancel]
      by_cases hnil : ds = []
      · rw [hnil]
        rfl
      · rw [ih hnil fun d hd => hds d (List.mem_cons_of_mem _ hd)]
  · refine ⟨by simpa using hne, ?_⟩
    rw [List.all_eq_true]
    intro c hc
    rw [List.mem_reverse, List.mem_map] at hc
    obtain ⟨d, hd, rfl⟩ := hc
    have hlt := hds d hd
    have hnat := toNat_digit (Nat.lt_of_lt_of_le hlt hbase)
    rw [decide_eq_true_iff, hnat]
    omega

end

/-! ### Members -/

section

variable {off n : ℕ} {name mid mode size data rest bs : List UInt8} {r : Raw}

variable (off rest) in
/-- A header of the given fields and the data its size gives. -/
theorem readRaw_fields (hname : name.length = 16) (hmid : mid.length = 24)
    (hmode : mode.length = 8) (hsize : size.length = 10)
    (hnum : number 10 (trim size) = some data.length) :
    readRaw off (name ++ (mid ++ (mode ++ (size ++ (fmag ++ (data ++ rest)))))) =
      some (⟨off, trim name, mode, data⟩, rest) := by
  have h16 : ∀ t : List UInt8, (name ++ t).drop 16 = t := by
    intro t
    rw [← hname, List.drop_left]
  have h40 : ∀ t : List UInt8, (name ++ (mid ++ t)).drop 40 = t := by
    intro t
    rw [show 40 = 16 + 24 from rfl, ← List.drop_drop, h16, ← hmid, List.drop_left]
  have h48 : ∀ t : List UInt8, (name ++ (mid ++ (mode ++ t))).drop 48 = t := by
    intro t
    rw [show 48 = 40 + 8 from rfl, ← List.drop_drop, h40, ← hmode, List.drop_left]
  have h58 : ∀ t : List UInt8, (name ++ (mid ++ (mode ++ (size ++ t)))).drop 58 = t := by
    intro t
    rw [show 58 = 48 + 10 from rfl, ← List.drop_drop, h48, ← hsize, List.drop_left]
  have h60 : ∀ t : List UInt8, (name ++ (mid ++ (mode ++ (size ++ (fmag ++ t))))).drop 60 = t := by
    intro t
    rw [show 60 = 58 + 2 from rfl, ← List.drop_drop, h58]
    rfl
  unfold readRaw
  rw [if_neg, h48, h40, h60, List.take_left' hsize, hnum, Option.bind_some, if_neg,
    List.take_left, List.drop_left, List.take_left' hmode, List.take_left' hname]
  · rw [List.length_append]
    omega
  · rw [h58]
    refine not_or.mpr ⟨?_, ?_⟩
    · simp only [List.length_append, hname, hmid, hmode, hsize]
      have hlen : fmag.length = 2 := rfl
      omega
    · exact fun h => h rfl

theorem readRaws_nil : readRaws n off [] = some [] := by
  cases n <;> rfl

theorem readRaws_cons (hbs : bs ≠ []) (hr : readRaw off bs = some (r, rest)) :
    readRaws (n + 1) off bs =
      (readRaws n (off + 60 + r.data.length + r.data.length % 2)
        (rest.drop (r.data.length % 2))).map fun rs => r :: rs := by
  rw [readRaws, if_neg hbs, hr]
  rfl

end

/-! ### The tables -/

section

variable {table pre post name : List UInt8}

theorem longName_at (hname : slash ∉ name) :
    longName (pre ++ (name ++ slash :: newline :: post)) pre.length = some name := by
  unfold longName
  have htake : (name ++ slash :: newline :: post).takeWhile (· != slash) = name := by
    rw [List.takeWhile_append_of_pos]
    · rw [List.takeWhile_cons, if_neg (by decide), List.append_nil]
    · intro c hc
      rw [bne_iff_ne]
      rintro rfl
      exact hname hc
  rw [List.drop_left, htake]
  dsimp only
  rw [List.drop_left]
  rfl

theorem memberName_short (hname : slash ∉ name) (hne : name ≠ []) :
    memberName table (name ++ [slash]) = some name := by
  unfold memberName
  rw [if_neg, List.getLast?_concat, if_pos rfl, List.dropLast_concat]
  cases name with
  | nil => exact absurd rfl hne
  | cons c cs =>
    intro h
    exact hname (Option.some.inj h ▸ List.mem_cons_self ..)

theorem memberName_long {ds : List UInt8} {i : ℕ} (hds : number 10 ds = some i) :
    memberName table (slash :: ds) = longName table i := by
  unfold memberName
  rw [List.head?_cons, if_pos rfl, List.tail_cons, hds, Option.bind_some]

theorem readStrings_names {names : List (List UInt8)} {rest : List UInt8}
    (hnul : ∀ s ∈ names, 0 ∉ s) :
    readStrings names.length (names.flatMap (fun s => s ++ [0]) ++ rest) = some names := by
  induction names with
  | nil => rfl
  | cons s names ih =>
    have htake : (s ++ (0 :: (names.flatMap (fun s => s ++ [0]) ++ rest))).takeWhile (· != 0) =
        s := by
      rw [List.takeWhile_append_of_pos]
      · rw [List.takeWhile_cons, if_neg (by decide), List.append_nil]
      · intro c hc
        rw [bne_iff_ne]
        rintro rfl
        exact hnul s (List.mem_cons_self ..) hc
    have happend : (s :: names).flatMap (fun s => s ++ [0]) ++ rest =
        s ++ (0 :: (names.flatMap (fun s => s ++ [0]) ++ rest)) := by
      simp
    rw [happend, List.length_cons, readStrings, htake, if_pos, ← List.drop_drop, List.drop_left]
    · change (readStrings names.length (names.flatMap (fun s => s ++ [0]) ++ rest)).map _ = _
      rw [ih fun s hs => hnul s (List.mem_cons_of_mem _ hs)]
      rfl
    · rw [List.length_append, List.length_cons]
      omega

theorem readSymbols_table {names : List (List UInt8)} {offsets : List ℕ} {rest : List UInt8}
    (hlen : offsets.length = names.length) (hcount : names.length < 2 ^ 32)
    (hoffsets : ∀ o ∈ offsets, o < 2 ^ 32) (hnul : ∀ s ∈ names, 0 ∉ s) :
    readSymbols (Order.big.encode 4 names.length ++ (Order.big.encodeAll 4 offsets ++
      (names.flatMap (fun s => s ++ [0]) ++ rest))) = some (names.zip offsets) := by
  have hfour : ∀ t : List UInt8, (Order.big.encode 4 names.length ++ t).take 4 =
      Order.big.encode 4 names.length := fun t => List.take_left' (Bytes.Order.length_encode _ _ _)
  have hdrop : ∀ t : List UInt8, (Order.big.encode 4 names.length ++ t).drop 4 = t :=
    fun t => List.drop_left' (Bytes.Order.length_encode _ _ _)
  have hall : (Order.big.encodeAll 4 offsets).length = 4 * names.length := by
    rw [Bytes.Order.length_encodeAll, hlen]
  have hdecode : Order.big.decode (Order.big.encode 4 names.length) = names.length := by
    rw [Bytes.Order.decode_encode]
    exact Nat.mod_eq_of_lt hcount
  unfold readSymbols
  dsimp only
  rw [hfour, hdecode, if_neg, hdrop, ← List.drop_drop, hdrop, List.take_left' hall,
    List.drop_left' hall, readStrings_names hnul, Option.map_some]
  · congr 2
    apply List.ext_getElem
    · rw [List.length_map, List.length_range, hlen]
    · intro i hi hi'
      rw [List.getElem_map, List.getElem_range, Bytes.Order.take_drop_encodeAll _ hi',
        Bytes.Order.decode_encode]
      exact Nat.mod_eq_of_lt (hoffsets _ (List.getElem_mem hi'))
  · rw [List.length_append, List.length_append, Bytes.Order.length_encode, hall]
    omega

end

end GnuAr
