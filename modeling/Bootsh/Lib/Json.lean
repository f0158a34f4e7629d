import Mathlib.Tactic.Common

/-!
Texts in JSON that are made of strings, arrays and objects. A text is the list of its bytes, which
are the encoding in UTF-8 of what it says.
-/
namespace Json

inductive Value where
  | str (s : List Char)
  | arr (vs : List Value)
  | obj (members : List (List Char × Value))

/-! ### UTF-8 -/

/-- The length of the character that begins with a byte. -/
def width (a : ℕ) : ℕ :=
  if a < 0x80 then 1
  else if 0xc2 ≤ a ∧ a ≤ 0xdf then 2
  else if 0xe0 ≤ a ∧ a ≤ 0xef then 3
  else if 0xf0 ≤ a ∧ a ≤ 0xf4 then 4
  else 0

def isTail (b : Char) : Bool := decide (0x80 ≤ b.toNat) && decide (b.toNat ≤ 0xbf)

/-- The second byte of a character that begins with `a`. -/
def isSecond (a : ℕ) (b : Char) : Bool :=
  if a = 0xe0 then decide (0xa0 ≤ b.toNat)
  else if a = 0xed then decide (b.toNat ≤ 0x9f)
  else if a = 0xf0 then decide (0x90 ≤ b.toNat)
  else if a = 0xf4 then decide (b.toNat ≤ 0x8f)
  else true

/-- The bytes `a` and `t` are one character. -/
def isUtf8 (a : Char) (t : List Char) : Bool :=
  decide (t.length + 1 = width a.toNat) && t.all isTail && t.head?.all (isSecond a.toNat)

/-- The encoding of a character. -/
def encode (n : ℕ) : List Char :=
  if n < 0x80 then [Char.ofNat n]
  else if n < 0x800 then [Char.ofNat (0xc0 + n / 64), Char.ofNat (0x80 + n % 64)]
  else if n < 0x10000 then
    [Char.ofNat (0xe0 + n / 4096), Char.ofNat (0x80 + n / 64 % 64), Char.ofNat (0x80 + n % 64)]
  else [Char.ofNat (0xf0 + n / 262144), Char.ofNat (0x80 + n / 4096 % 64),
    Char.ofNat (0x80 + n / 64 % 64), Char.ofNat (0x80 + n % 64)]

/-! ### Strings -/

def isControl (c : Char) : Bool := decide (c.toNat < 0x20)

/-- The escapes of one letter. -/
def escapes : List (Char × Char) :=
  [('"', '"'), ('\\', '\\'), ('/', '/'), ('b', '\x08'), ('f', '\x0c'), ('n', '\n'), ('r', '\r'),
    ('t', '\t')]

def hexDigit (c : Char) : Option ℕ :=
  if '0' ≤ c ∧ c ≤ '9' then some (c.toNat - '0'.toNat)
  else if 'a' ≤ c ∧ c ≤ 'f' then some (c.toNat - 'a'.toNat + 10)
  else if 'A' ≤ c ∧ c ≤ 'F' then some (c.toNat - 'A'.toNat + 10)
  else none

def hex4 : List Char → Option (ℕ × List Char)
  | a :: b :: c :: d :: s => do
    let a ← hexDigit a
    let b ← hexDigit b
    let c ← hexDigit c
    let d ← hexDigit d
    return (((a * 16 + b) * 16 + c) * 16 + d, s)
  | _ => none

/-- The character behind `\u`, which two of them are needed for when it is a great one. -/
def unicode (s : List Char) : Option (List Char × List Char) := do
  let (n, s) ← hex4 s
  if 0xd800 ≤ n ∧ n < 0xdc00 then
    match s with
    | '\\' :: 'u' :: s => do
      let (m, s) ← hex4 s
      if 0xdc00 ≤ m ∧ m < 0xe000 then
        return (encode (0x10000 + (n - 0xd800) * 0x400 + (m - 0xdc00)), s)
      else none
    | _ => none
  else if 0xdc00 ≤ n ∧ n < 0xe000 then none
  else return (encode n, s)

/-- The text up to the closing quote, and the rest. -/
def chars : ℕ → List Char → Option (List Char × List Char)
  | 0, _ => none
  | _ + 1, [] => none
  | fuel + 1, c :: s =>
    if c = '"' then some ([], s)
    else if c = '\\' then
      match s with
      | [] => none
      | d :: s =>
        match escapes.lookup d with
        | some e => (chars fuel s).map fun (t, r) => (e :: t, r)
        | none =>
          if d = 'u' then
            (unicode s).bind fun (u, s) => (chars fuel s).map fun (t, r) => (u ++ t, r)
          else none
    else
      let u := s.take (width c.toNat - 1)
      if isUtf8 c u ∧ isControl c = false then
        (chars fuel (s.drop (width c.toNat - 1))).map fun (t, r) => (c :: u ++ t, r)
      else none

/-! ### Values -/

def isWs (c : Char) : Bool := c == ' ' || c == '\t' || c == '\n' || c == '\r'

def ws (s : List Char) : List Char := s.dropWhile isWs

section

variable {α : Type} (item : List Char → Option (α × List Char)) (close : Char)

/-- One item at least, with commas between them, up to the closing bracket. -/
def sequence : ℕ → List Char → Option (List α × List Char)
  | 0, _ => none
  | fuel + 1, s => do
    let (a, s) ← item (ws s)
    match ws s with
    | [] => none
    | c :: s =>
      if c = ',' then (sequence fuel s).map fun (as, s) => (a :: as, s)
      else if c = close then some ([a], s)
      else none

/-- The items up to the closing bracket. -/
def items (s : List Char) : Option (List α × List Char) :=
  if (ws s).head? = some close then some ([], (ws s).tail)
  else sequence item close (s.length + 1) s

end

def member (value : List Char → Option (Value × List Char)) (s : List Char) :
    Option ((List Char × Value) × List Char) :=
  match s with
  | '"' :: s => do
    let (key, s) ← chars (s.length + 1) s
    match ws s with
    | ':' :: s => do
      let (v, s) ← value (ws s)
      return ((key, v), s)
    | _ => none
  | _ => none

def value : ℕ → List Char → Option (Value × List Char)
  | 0, _ => none
  | fuel + 1, s =>
    match s with
    | '"' :: s => (chars (s.length + 1) s).map fun (t, r) => (.str t, r)
    | '[' :: s => (items (value fuel) ']' s).map fun (vs, r) => (.arr vs, r)
    | '\x7b' :: s => (items (member (value fuel)) '\x7d' s).map fun (ms, r) => (.obj ms, r)
    | _ => none

/-- What a text says, with nothing but blanks behind it. -/
def decode (s : List Char) : Option Value :=
  (value (s.length + 1) (ws s)).bind fun (v, r) => if ws r = [] then some v else none

/-! ### Texts that are quoted with two escapes only -/

/-- A text in UTF-8 without control characters. -/
inductive Legal : List Char → Prop
  | nil : Legal []
  | cons {a : Char} {u t : List Char} : isUtf8 a u → isControl a = false → Legal t →
      Legal (a :: u ++ t)

/-- The text with a backslash before quotes and backslashes. -/
def escaped : List Char → List Char
  | [] => []
  | c :: t => if c = '"' ∨ c = '\\' then '\\' :: c :: escaped t else c :: escaped t

theorem escaped_append (s t : List Char) : escaped (s ++ t) = escaped s ++ escaped t := by
  induction s with
  | nil => rfl
  | cons c s ih =>
    rw [List.cons_append, escaped, escaped, ih]
    split <;> rfl

theorem isTail_plain {c : Char} (h : isTail c) : ¬ (c = '"' ∨ c = '\\') := by
  rintro (rfl | rfl) <;> cases h

theorem escaped_tails {u : List Char} (h : u.all isTail) : escaped u = u := by
  induction u with
  | nil => rfl
  | cons c u ih =>
    rw [List.all_cons, Bool.and_eq_true] at h
    rw [escaped, if_neg (isTail_plain h.1), ih h.2]

/-- Bytes within a character that stand before the closing quote are bytes of the text. -/
theorem tails_of_take {n : ℕ} {t r : List Char} (hlen : ((escaped t ++ '"' :: r).take n).length = n)
    (h : ((escaped t ++ '"' :: r).take n).all isTail) :
    ∃ t', t = (escaped t ++ '"' :: r).take n ++ t' := by
  induction n generalizing t with
  | zero => exact ⟨t, rfl⟩
  | succ n ih =>
    cases t with
    | nil => simp [escaped, isTail] at h
    | cons c t =>
      rw [escaped] at h hlen ⊢
      split at h
      · simp [isTail] at h
      · rename_i hplain
        rw [if_neg hplain] at hlen ⊢
        simp only [List.cons_append, List.take_succ_cons, List.all_cons, Bool.and_eq_true,
          List.length_cons, Nat.add_right_cancel_iff] at h hlen ⊢
        obtain ⟨t', ht'⟩ := ih hlen h.2
        exact ⟨t', by rw [← ht']⟩

theorem isUtf8_length {a : Char} {u : List Char} (h : isUtf8 a u) :
    u.length = width a.toNat - 1 := by
  simp only [isUtf8, Bool.and_eq_true, decide_eq_true_eq] at h
  omega

theorem isUtf8_tails {a : Char} {u : List Char} (h : isUtf8 a u) : u.all isTail := by
  simp only [isUtf8, Bool.and_eq_true] at h
  exact h.1.2

theorem chars_special {fuel : ℕ} {c : Char} {s : List Char} (h : c = '"' ∨ c = '\\') :
    chars (fuel + 1) ('\\' :: c :: s) = (chars fuel s).map fun (t, r) => (c :: t, r) := by
  rcases h with rfl | rfl <;> rfl

theorem chars_plain {fuel : ℕ} {c : Char} {s : List Char} (h : ¬ (c = '"' ∨ c = '\\')) :
    chars (fuel + 1) (c :: s) =
      if isUtf8 c (s.take (width c.toNat - 1)) ∧ isControl c = false then
        (chars fuel (s.drop (width c.toNat - 1))).map fun (t, r) =>
          (c :: s.take (width c.toNat - 1) ++ t, r)
      else none := by
  rw [not_or] at h
  rw [chars.eq_def]
  dsimp only
  rw [if_neg h.1, if_neg h.2]

theorem legal_special {c : Char} {t : List Char} (h : c = '"' ∨ c = '\\') (ht : Legal t) :
    Legal (c :: t) := by
  have hone : isUtf8 c [] ∧ isControl c = false := by rcases h with rfl | rfl <;> exact ⟨rfl, rfl⟩
  exact .cons hone.1 hone.2 ht

theorem legal_ascii {s : List Char}
    (h : s.all fun c => decide (0x20 ≤ c.toNat) && decide (c.toNat < 0x80)) : Legal s := by
  induction s with
  | nil => exact .nil
  | cons c s ih =>
    simp only [List.all_cons, Bool.and_eq_true, decide_eq_true_eq] at h
    have hwidth : width c.toNat = 1 := if_pos h.1.2
    have hutf8 : isUtf8 c [] := by simp [isUtf8, hwidth]
    exact .cons hutf8 (by simp [isControl, h.1.1]) (ih h.2)

/-- Only legal texts are read back. -/
theorem chars_sound {fuel : ℕ} {t r : List Char} {res : List Char × List Char}
    (h : chars fuel (escaped t ++ '"' :: r) = some res) : Legal t ∧ res = (t, r) := by
  induction fuel generalizing t res with
  | zero => cases h
  | succ fuel ih =>
    cases t with
    | nil =>
      cases h
      exact ⟨.nil, rfl⟩
    | cons c t =>
      rw [escaped] at h
      split at h
      case isTrue hspecial =>
        rw [List.cons_append, List.cons_append, chars_special hspecial] at h
        obtain ⟨res', hres', rfl⟩ := Option.map_eq_some_iff.mp h
        obtain ⟨hclean, rfl⟩ := ih hres'
        exact ⟨legal_special hspecial hclean, rfl⟩
      case isFalse hplain =>
        rw [List.cons_append, chars_plain hplain] at h
        split at h
        case isFalse => cases h
        case isTrue hc =>
          obtain ⟨res', hres', rfl⟩ := Option.map_eq_some_iff.mp h
          obtain ⟨t', ht'⟩ := tails_of_take (isUtf8_length hc.1) (isUtf8_tails hc.1)
          generalize (escaped t ++ '"' :: r).take (width c.toNat - 1) = u at hc ht' ⊢
          subst ht'
          rw [escaped_append, escaped_tails (isUtf8_tails hc.1), List.append_assoc,
            List.drop_left' (isUtf8_length hc.1)] at hres'
          obtain ⟨hclean, rfl⟩ := ih hres'
          exact ⟨.cons hc.1 hc.2 hclean, rfl⟩

/-- Legal texts are read back. -/
theorem chars_complete {fuel : ℕ} {t : List Char} (h : Legal t) (r : List Char)
    (hfuel : (escaped t).length < fuel) :
    chars fuel (escaped t ++ '"' :: r) = some (t, r) := by
  induction h generalizing fuel with
  | nil =>
    obtain ⟨fuel, rfl⟩ := Nat.exists_eq_succ_of_ne_zero (Nat.ne_zero_of_lt hfuel)
    rfl
  | @cons a u t hutf8 hcontrol _ ih =>
    obtain ⟨fuel, rfl⟩ := Nat.exists_eq_succ_of_ne_zero (Nat.ne_zero_of_lt hfuel)
    by_cases hspecial : a = '"' ∨ a = '\\'
    · have hu : u = [] := by
        have hlen := isUtf8_length hutf8
        rcases hspecial with rfl | rfl <;> exact List.length_eq_zero_iff.mp hlen
      subst hu
      rw [List.cons_append, List.nil_append, escaped, if_pos hspecial] at hfuel ⊢
      simp only [List.length_cons] at hfuel
      rw [List.cons_append, List.cons_append, chars_special hspecial, ih (by omega)]
      rfl
    · rw [List.cons_append, escaped, if_neg hspecial, escaped_append,
        escaped_tails (isUtf8_tails hutf8)] at hfuel ⊢
      simp only [List.length_cons, List.length_append] at hfuel
      rw [List.cons_append, List.append_assoc, chars_plain hspecial,
        List.take_left' (isUtf8_length hutf8), List.drop_left' (isUtf8_length hutf8),
        if_pos ⟨hutf8, hcontrol⟩, ih (by omega)]
      rfl

open Classical in
/-- What is read back of a text. -/
noncomputable def readBack (t : List Char) : Option (List Char) := if Legal t then some t else none

theorem chars_escaped {fuel : ℕ} (t r : List Char) (hfuel : (escaped t).length < fuel) :
    chars fuel (escaped t ++ '"' :: r) = (readBack t).map fun t => (t, r) := by
  unfold readBack
  split
  case isTrue h => exact chars_complete h r hfuel
  case isFalse h =>
    cases hc : chars fuel (escaped t ++ '"' :: r) with
    | none => rfl
    | some res => exact absurd (chars_sound hc).1 h

/-! ### Texts that are laid out with blanks -/

/-- A text is read up to its end, whatever follows it, and gives `res`. -/
def Reads {α : Type} (read : List Char → Option (α × List Char)) (text : List Char)
    (res : Option α) : Prop := ∀ r, read (text ++ r) = res.map fun a => (a, r)

/-- A text of which the first byte is neither a blank nor a closing bracket. -/
def Solid (close : Char) (text : List Char) : Prop :=
  ∃ c s, text = c :: s ∧ isWs c = false ∧ c ≠ close

theorem ws_append {b : List Char} (h : b.all isWs) (s : List Char) : ws (b ++ s) = ws s :=
  List.dropWhile_append_of_pos (List.all_eq_true.mp h)

theorem ws_solid {close : Char} {text : List Char} (h : Solid close text) (s : List Char) :
    ws (text ++ s) = text ++ s := by
  obtain ⟨c, t, rfl, hc, -⟩ := h
  simp [ws, hc]

/-- The texts with blanks before each of them and commas between them. -/
def laidOut (b : List Char) : List (List Char) → List Char
  | [] => []
  | [x] => b ++ x
  | x :: y :: l => b ++ x ++ ',' :: laidOut b (y :: l)

section

variable {α β : Type} {item : List Char → Option (α × List Char)} {close : Char}
  {text : β → List Char} {res : β → Option α} {b b' : List Char} {l : List β}

theorem sequence_laidOut (hclose : isWs close = false ∧ close ≠ ',') (hb : b.all isWs)
    (hb' : b'.all isWs) (h : ∀ x ∈ l, Solid close (text x) ∧ Reads item (text x) (res x))
    (hne : l ≠ []) (r : List Char) {fuel : ℕ} (hfuel : l.length ≤ fuel) :
    sequence item close fuel (laidOut b (l.map text) ++ (b' ++ close :: r)) =
      (l.mapM res).map fun as => (as, r) := by
  induction l generalizing fuel with
  | nil => exact absurd rfl hne
  | cons x l ih =>
    obtain ⟨fuel, rfl⟩ := Nat.exists_eq_succ_of_ne_zero (Nat.ne_zero_of_lt hfuel)
    obtain ⟨hsolid, hread⟩ := h x List.mem_cons_self
    rw [List.mapM_cons, List.map_cons]
    cases l with
    | nil =>
      have hend : ws (b' ++ close :: r) = close :: r := by
        rw [ws_append hb']
        simp [ws, hclose.1]
      rw [List.map_nil, laidOut, sequence, List.append_assoc, ws_append hb, ws_solid hsolid, hread]
      cases res x <;> simp [hend, hclose.2]
    | cons y l =>
      have hcomma : ∀ s, ws (',' :: s) = ',' :: s := fun s => rfl
      rw [List.map_cons, laidOut, sequence, List.append_assoc, List.append_assoc, ws_append hb,
        List.cons_append, ws_solid hsolid, hread]
      have hrest := ih (fun z hz => h z (List.mem_cons_of_mem _ hz)) (List.cons_ne_nil _ _)
        (Nat.le_of_succ_le_succ hfuel)
      rw [List.map_cons] at hrest
      cases res x with
      | none => rfl
      | some a =>
        simp only [Option.map_some, Option.bind_eq_bind, Option.bind_some, hcomma, if_pos, hrest]
        cases (y :: l).mapM res <;> rfl

theorem intercalate_laidOut (b : List Char) (l : List (List Char)) :
    List.intercalate [','] (l.map (b ++ ·)) = laidOut b l := by
  induction l with
  | nil => rfl
  | cons x l ih =>
    cases l with
    | nil => simp [laidOut]
    | cons y l =>
      rw [List.map_cons, List.map_cons, List.intercalate_cons_cons, ← List.map_cons, ih, laidOut]
      simp

theorem laidOut_length (l : List (List Char)) (h : ∀ x ∈ l, x ≠ []) :
    l.length ≤ (laidOut b l).length := by
  induction l with
  | nil => exact Nat.zero_le _
  | cons x l ih =>
    have hx := List.length_pos_iff.mpr (h x List.mem_cons_self)
    cases l with
    | nil =>
      rw [laidOut, List.length_append, List.length_singleton]
      omega
    | cons y l =>
      have hrest := ih fun z hz => h z (List.mem_cons_of_mem _ hz)
      simp only [laidOut, List.length_append, List.length_cons] at hrest ⊢
      omega

theorem items_laidOut (hclose : isWs close = false ∧ close ≠ ',') (hb : b.all isWs)
    (hb' : b'.all isWs) (h : ∀ x ∈ l, Solid close (text x) ∧ Reads item (text x) (res x)) :
    Reads (items item close) (laidOut b (l.map text) ++ (b' ++ [close])) (l.mapM res) := by
  intro r
  rw [List.append_assoc, List.append_assoc, List.singleton_append, items]
  have hlen := @laidOut_length b (l.map text)
  cases l with
  | nil =>
    have hend : ws (b' ++ close :: r) = close :: r := by
      rw [ws_append hb']
      simp [ws, hclose.1]
    rw [List.map_nil, laidOut, List.nil_append, hend]
    simp
  | cons x l =>
    obtain ⟨c, t, htext, hc, hne⟩ := (h x List.mem_cons_self).1
    have hstart : ∃ s, laidOut b ((x :: l).map text) = b ++ c :: s := by
      cases l with
      | nil => exact ⟨t, by rw [List.map_singleton, laidOut, htext]⟩
      | cons y l =>
        rw [List.map_cons, List.map_cons, laidOut, htext, List.append_assoc]
        exact ⟨_, rfl⟩
    obtain ⟨s, hs⟩ := hstart
    have hhead : (ws (laidOut b ((x :: l).map text) ++ (b' ++ close :: r))).head? ≠ some close := by
      rw [hs, List.append_assoc, ws_append hb]
      simpa [ws, hc] using hne
    rw [if_neg hhead]
    refine sequence_laidOut hclose hb hb' h (List.cons_ne_nil _ _) r ?_
    rw [List.length_append, ← List.length_map (f := text)]
    refine Nat.le_succ_of_le (Nat.le_add_right_of_le (hlen fun z hz => ?_))
    obtain ⟨y, hy, rfl⟩ := List.mem_map.mp hz
    obtain ⟨c, t, htext, -⟩ := (h y hy).1
    simp [htext]

end

section

variable {fuel : ℕ} {β : Type} {text : β → List Char} {b b' : List Char} {l : List β}

theorem reads_str (t : List Char) :
    Reads (value (fuel + 1)) ('"' :: escaped t ++ ['"']) ((readBack t).map .str) := by
  intro r
  rw [List.append_assoc, List.cons_append, List.singleton_append, value, chars_escaped]
  · rw [Option.map_map, Option.map_map]
    rfl
  · rw [List.length_append]
    omega

theorem reads_member {key vtext : List Char} {res : Option Value} (hkey : Legal key)
    (hb : b.all isWs) (hsolid : Solid close vtext) (h : Reads (value fuel) vtext res) :
    Reads (member (value fuel)) ('"' :: escaped key ++ '"' :: ':' :: (b ++ vtext))
      (res.map fun v => (key, v)) := by
  intro r
  have hread : chars (escaped key ++ '"' :: ':' :: (b ++ (vtext ++ r))).length.succ
      (escaped key ++ '"' :: ':' :: (b ++ (vtext ++ r))) =
      some (key, ':' :: (b ++ (vtext ++ r))) := by
    refine chars_complete hkey _ ?_
    rw [List.length_append]
    omega
  have hcolon : ∀ s, ws (':' :: s) = ':' :: s := fun s => rfl
  simp only [List.cons_append, List.append_assoc, member]
  rw [hread]
  simp only [Option.bind_eq_bind, Option.bind_some, hcolon, ws_append hb, ws_solid hsolid, h r]
  cases res <;> rfl

theorem reads_arr {res : β → Option Value} (hb : b.all isWs) (hb' : b'.all isWs)
    (h : ∀ x ∈ l, Solid ']' (text x) ∧ Reads (value fuel) (text x) (res x)) :
    Reads (value (fuel + 1)) ('[' :: (laidOut b (l.map text) ++ (b' ++ [']'])))
      ((l.mapM res).map .arr) := by
  intro r
  rw [List.cons_append, value, items_laidOut ⟨rfl, by decide⟩ hb hb' h]
  cases l.mapM res <;> rfl

theorem reads_obj {res : β → Option (List Char × Value)} (hb : b.all isWs) (hb' : b'.all isWs)
    (h : ∀ x ∈ l, Solid '\x7d' (text x) ∧ Reads (member (value fuel)) (text x) (res x)) :
    Reads (value (fuel + 1)) ('\x7b' :: (laidOut b (l.map text) ++ (b' ++ ['\x7d'])))
      ((l.mapM res).map .obj) := by
  intro r
  rw [List.cons_append, value, items_laidOut ⟨rfl, by decide⟩ hb hb' h]
  cases l.mapM res <;> rfl

def memberText (m : List Char × List Char) : List Char :=
  '"' :: escaped m.1 ++ '"' :: ':' :: ([' '] ++ ('"' :: escaped m.2 ++ ['"']))

/-- An object with texts as its members. -/
def object (b b' : List Char) (ms : List (List Char × List Char)) : List Char :=
  '\x7b' :: (laidOut b (ms.map memberText) ++ (b' ++ ['\x7d']))

theorem mapM_ite {α β : Type} {P : α → Prop} [DecidablePred P] (f : α → β) (l : List α) :
    (l.mapM fun a => if P a then some (f a) else none) =
      if ∀ a ∈ l, P a then some (l.map f) else none := by
  induction l with
  | nil => rfl
  | cons a l ih =>
    rw [List.mapM_cons, ih]
    by_cases ha : P a
    · by_cases hl : ∀ a ∈ l, P a
      · rw [if_pos ha, if_pos hl, if_pos (List.forall_mem_cons.mpr ⟨ha, hl⟩)]
        rfl
      · rw [if_pos ha, if_neg hl, if_neg fun h => hl (List.forall_mem_cons.mp h).2]
        rfl
    · rw [if_neg ha, if_neg fun h => ha (List.forall_mem_cons.mp h).1]
      rfl

open Classical in
/-- An object is read back if and only if all of its texts are legal. -/
theorem reads_object {ms : List (List Char × List Char)} (hb : b.all isWs) (hb' : b'.all isWs)
    (hkeys : ∀ m ∈ ms, Legal m.1) :
    Reads (value (fuel + 2)) (object b b' ms)
      (if ∀ m ∈ ms, Legal m.2 then some (.obj (ms.map fun m => (m.1, .str m.2))) else none) := by
  have hmember : ∀ m ∈ ms, Solid '\x7d' (memberText m) ∧
      Reads (member (value (fuel + 1))) (memberText m)
        (if Legal m.2 then some (m.1, .str m.2) else none) := by
    intro m hm
    refine ⟨⟨'"', _, rfl, rfl, by decide⟩, ?_⟩
    have hsolid : Solid '\x7d' ('"' :: escaped m.2 ++ ['"']) := ⟨'"', _, rfl, rfl, by decide⟩
    have hread := reads_member (b := [' ']) (hkeys m hm) rfl hsolid (@reads_str fuel m.2)
    have hres : ((readBack m.2).map Value.str).map (fun v => (m.1, v)) =
        if Legal m.2 then some (m.1, .str m.2) else none := by
      unfold readBack
      split <;> rfl
    rw [← hres]
    exact hread
  have hobj := reads_obj hb hb' hmember
  rw [mapM_ite] at hobj
  intro r
  rw [object, hobj r]
  split <;> rfl

/-- A text that is read, with blanks behind it. -/
theorem decode_of_reads {close : Char} {t : List Char} {res : Option Value}
    (hsolid : Solid close t) (hb : b.all isWs) (h : Reads (value ((t ++ b).length + 1)) t res) :
    decode (t ++ b) = res := by
  have hend : ws b = [] := by
    have := ws_append hb []
    rwa [List.append_nil] at this
  rw [decode, ws_solid hsolid, h]
  cases res with
  | none => rfl
  | some v => simp [hend]

end

end Json
