import Bootsh.Numeral

/-! The builtin `ulimit`, from `miscbltin.c`. -/
namespace Bootsh.Ulimit

/-- `rlim_t` -/
abbrev RLim := BitVec 64

def RLIM_INFINITY : RLim := -1

/-- The resources of `getrlimit`. -/
inductive Resource where
  | cpu | fsize | data | stack | core | rss | memlock | nproc | nofile | as | locks | rtprio
  deriving DecidableEq, Repr

/-- `struct limits` -/
structure Limits where
  name : String
  cmd : Resource
  factor : ℕ
  option : Char
  deriving DecidableEq, Repr

def limits : List Limits :=
  [⟨"time(seconds)", .cpu, 1, 't'⟩, ⟨"file(blocks)", .fsize, 512, 'f'⟩,
    ⟨"data(kbytes)", .data, 1024, 'd'⟩, ⟨"stack(kbytes)", .stack, 1024, 's'⟩,
    ⟨"coredump(blocks)", .core, 512, 'c'⟩, ⟨"memory(kbytes)", .rss, 1024, 'm'⟩,
    ⟨"locked memory(kbytes)", .memlock, 1024, 'l'⟩, ⟨"process", .nproc, 1, 'p'⟩,
    ⟨"nofiles", .nofile, 1, 'n'⟩, ⟨"vmemory(kbytes)", .as, 1024, 'v'⟩,
    ⟨"locks", .locks, 1, 'w'⟩, ⟨"rtprio", .rtprio, 1, 'r'⟩]

/-- The entries of the table. -/
abbrev Entry := {l : Limits // l ∈ limits}

/-- `struct rlimit` -/
structure RLimit where
  cur : RLim
  max : RLim
  deriving DecidableEq, Repr

/-- The limits of the process. -/
abbrev Process := Resource → RLimit

/-- `setrlimit` fails with the text of `strerror`, or it installs the limits. -/
structure Kernel where
  refuses : Process → Resource → RLimit → Option Text

def Kernel.setrlimit (k : Kernel) (st : Process) (r : Resource) (limit : RLimit) :
    Except Text Process :=
  match k.refuses st r limit with
  | some msg => .error msg
  | none => .ok (Function.update st r limit)

/-! ### Options -/

/-- `how` with its two bits, one of which is set, `all` and `what`. -/
structure Options where
  soft : Bool
  hard : Bool
  how : soft = true ∨ hard = true
  all : Bool
  what : Entry

def Options.init : Options :=
  ⟨true, true, .inl rfl, false, ⟨⟨"file(blocks)", .fsize, 512, 'f'⟩, by decide⟩⟩

/-- The entry of an option letter. -/
def entry (c : Char) : Option Entry := limits.attach.find? fun l => decide (l.1.option = c)

def optLetter (o : Options) (c : Char) : Except Text Options :=
  if c = 'H' then .ok { o with soft := false, hard := true, how := .inr rfl }
  else if c = 'S' then .ok { o with soft := true, hard := false, how := .inl rfl }
  else if c = 'a' then .ok { o with all := true }
  else match entry c with
    | some l => .ok { o with what := l }
    | none => .error ("Illegal option -".toList ++ [c])

/-- The letters of one option argument, as `nextopt` hands them out. -/
def optLetters : Options → Text → Except Text Options
  | o, [] => .ok o
  | o, c :: p => do
    let o ← optLetter o c
    optLetters o p

/-- The loop over `nextopt`, and the arguments behind the options. -/
def options : Options → List Text → Except Text (Options × List Text)
  | o, ('-' :: c :: p) :: args =>
    if c = '-' ∧ p = [] then .ok (o, args)
    else do
      let o ← optLetters o (c :: p)
      options o args
  | o, args => .ok (o, args)

/-! ### The command -/

/-- What `printlim` writes of the limit. -/
def limText (o : Options) (limit : RLimit) (l : Limits) : Text :=
  let val := if o.soft then limit.cur else limit.max
  if val = RLIM_INFINITY then "unlimited\n".toList
  else fmtImax (val / BitVec.ofNat 64 l.factor) ++ ['\n']

/-- `"%-20s "` -/
def padded (s : String) : Text := s.toList ++ List.replicate (20 - s.length) ' ' ++ [' ']

/-- The loop over the digits of the operand. -/
def accumulate (val : RLim) (digits : Text) : RLim :=
  digits.foldl (fun val c => val * 10 + BitVec.ofNat 64 (digitVal c)) val

/-- The new limit that the operand `p` asks for. -/
def newLimit (l : Limits) (p : Text) : Except Text RLim :=
  if p = "unlimited".toList then .ok RLIM_INFINITY
  else
    let val := accumulate 0 (p.takeWhile isDigit)
    if p.dropWhile isDigit ≠ [] then .error "bad number".toList
    else .ok (val * BitVec.ofNat 64 l.factor)

/-- `ulimitcmd` with its arguments: what it prints, and the limits after it. -/
def ulimitcmd (k : Kernel) (args : List Text) (st : Process) : Except Text (Text × Process) := do
  let (o, args) ← options .init args
  match args with
  | [] =>
    if o.all then
      return (limits.flatMap fun l => padded l.name ++ limText o (st l.cmd) l, st)
    else return (limText o (st o.what.1.cmd) o.what.1, st)
  | p :: args =>
    if o.all ∨ args ≠ [] then .error "too many arguments".toList
    else
      let val ← newLimit o.what.1 p
      let limit := st o.what.1.cmd
      let limit := if o.hard then { limit with max := val } else limit
      let limit := if o.soft then { limit with cur := val } else limit
      match k.setrlimit st o.what.1.cmd limit with
      | .error msg => .error ("error setting limit (".toList ++ msg ++ [')'])
      | .ok st => return ([], st)

/-! ### What an operand asks for -/

inductive Request where
  | unlimited
  | number (n : ℕ)
  deriving DecidableEq, Repr

/-- What an operand denotes. -/
def request (p : Text) : Option Request :=
  if p = "unlimited".toList then some .unlimited
  else if p ≠ [] ∧ p.all isDigit then some (.number (magnitude 10 p))
  else none

/-- `v` is the limit that was asked for. -/
def Request.IsValue (r : Request) (l : Limits) (v : RLim) : Prop :=
  match r with
  | .unlimited => v = RLIM_INFINITY
  | .number n => v.toNat = n * l.factor

def Request.text : Request → Text
  | .unlimited => "unlimited".toList
  | .number n => Nat.toDigits 10 n

/-- A resource's limit is replaced in the fields that the options name. -/
def Installed (o : Options) (st st' : Process) (v : RLim) : Prop :=
  st' = Function.update st o.what.1.cmd
    ⟨if o.soft then v else (st o.what.1.cmd).cur, if o.hard then v else (st o.what.1.cmd).max⟩

/-- Where `ulimit` with an operand does not fail, it installs exactly the limit that was asked
for, and without the operand it then prints it. -/
def Exact (k : Kernel) (st : Process) (args : List Text) : Prop :=
  ∀ o p, options .init args = .ok (o, [p]) → ∀ out st', ulimitcmd k args st = .ok (out, st') →
    ∃ r v, request p = some r ∧ r.IsValue o.what.1 v ∧ Installed o st st' v ∧
      ulimitcmd k args.dropLast st' = .ok (r.text ++ ['\n'], st')

/-- The operand is `unlimited`, it is refused, or it is a number such that neither the limit nor
what is printed of it wraps around. -/
def Fits (l : Limits) (p : Text) : Prop :=
  p = "unlimited".toList ∨ p.all isDigit = false ∨
    p ≠ [] ∧ magnitude 10 p * l.factor < 2 ^ 64 - 1 ∧ magnitude 10 p < 2 ^ 63

/-! ### Numbers -/

variable {p : Text} {args : List Text} {o : Options} {l : Limits} {v : RLim}

theorem accumulate_eq (n : ℕ) (s : Text) :
    accumulate (BitVec.ofNat 64 n) s =
      BitVec.ofNat 64 (s.foldl (fun n c => n * 10 + digitVal c) n) := by
  induction s generalizing n with
  | nil => rfl
  | cons c s ih =>
    have hstep : BitVec.ofNat 64 n * 10 + BitVec.ofNat 64 (digitVal c) =
        BitVec.ofNat 64 (n * 10 + digitVal c) := by
      rw [BitVec.ofNat_add, BitVec.ofNat_mul]
      rfl
    rw [accumulate, List.foldl_cons, hstep]
    exact ih _

/-- The limit is the number times the factor, modulo `2 ^ 64`. -/
theorem newLimit_digits (hne : p ≠ "unlimited".toList) (hp : p.all isDigit) :
    newLimit l p = .ok (BitVec.ofNat 64 (magnitude 10 p * l.factor)) := by
  have htake : p.takeWhile isDigit = p := List.takeWhile_eq_self_iff.mpr (List.all_eq_true.mp hp)
  have hdrop : p.dropWhile isDigit = [] := List.dropWhile_eq_nil_iff.mpr (List.all_eq_true.mp hp)
  have hval := accumulate_eq 0 p
  rw [newLimit, if_neg hne, htake, hdrop, if_neg (by simp), BitVec.ofNat_mul]
  exact congrArg (fun v => Except.ok (v * BitVec.ofNat 64 l.factor)) hval

theorem newLimit_bad (hne : p ≠ "unlimited".toList) (hp : p.all isDigit = false) :
    newLimit l p = .error "bad number".toList := by
  have hdrop : p.dropWhile isDigit ≠ [] := by
    intro h
    have hall := List.all_eq_true.mpr (List.dropWhile_eq_nil_iff.mp h)
    rw [hp] at hall
    cases hall
  rw [newLimit, if_neg hne, if_pos hdrop]

theorem factor_pos : ∀ l ∈ limits, 0 < l.factor ∧ l.factor < 2 ^ 64 := by decide

/-- A limit that does not wrap around is printed as it was asked for. -/
theorem limText_number {n : ℕ} {limit : RLimit} (hl : l ∈ limits)
    (hv : (if o.soft then limit.cur else limit.max) = v) (hn : v.toNat = n * l.factor)
    (hlimit : n * l.factor < 2 ^ 64 - 1) (hprint : n < 2 ^ 63) :
    limText o limit l = Nat.toDigits 10 n ++ ['\n'] := by
  obtain ⟨hpos, hfactor⟩ := factor_pos l hl
  have hinf : v ≠ RLIM_INFINITY := by
    rintro rfl
    rw [show RLIM_INFINITY.toNat = 2 ^ 64 - 1 from rfl] at hn
    omega
  have hdiv : (v / BitVec.ofNat 64 l.factor).toNat = n := by
    rw [BitVec.toNat_udiv, BitVec.toNat_ofNat, Nat.mod_eq_of_lt hfactor, hn,
      Nat.mul_div_cancel n hpos]
  have hint : (v / BitVec.ofNat 64 l.factor).toInt = n := by
    rw [BitVec.toInt_eq_toNat_of_lt (by omega), hdiv]
  rw [limText, hv, if_neg hinf, fmtImax, hint, if_neg (by omega), Int.natAbs_natCast]

theorem limText_unlimited {limit : RLimit}
    (hv : (if o.soft then limit.cur else limit.max) = RLIM_INFINITY) :
    limText o limit l = "unlimited\n".toList := by
  rw [limText, hv]
  rfl

/-! ### The command -/

theorem options_dropLast {o' : Options} (h : options o' args = .ok (o, [p])) :
    options o' args.dropLast = .ok (o, []) := by
  fun_induction options o' args with
  | case1 o' c q args hend =>
    cases h
    obtain ⟨rfl, rfl⟩ := hend
    rfl
  | case2 o' c q args hend ih =>
    match hletters : optLetters o' (c :: q) with
    | .error e =>
      rw [hletters] at h
      cases h
    | .ok o'' =>
      rw [hletters] at h
      have hrest := ih o'' h
      cases args with
      | nil => cases h
      | cons a args =>
        rw [List.dropLast_cons_cons, options, if_neg hend, hletters]
        exact hrest
  | case3 o' args hother =>
    cases h
    rfl

/-- The command with an operand. -/
theorem ulimitcmd_set (h : options .init args = .ok (o, [p])) (k : Kernel) (st : Process) :
    ulimitcmd k args st =
      if o.all then .error "too many arguments".toList
      else match newLimit o.what.1 p with
        | .error msg => .error msg
        | .ok v =>
          let limit : RLimit := ⟨if o.soft then v else (st o.what.1.cmd).cur,
            if o.hard then v else (st o.what.1.cmd).max⟩
          match k.setrlimit st o.what.1.cmd limit with
          | .error msg => .error ("error setting limit (".toList ++ msg ++ [')'])
          | .ok st => .ok ([], st) := by
  unfold ulimitcmd
  rw [h]
  change (if o.all = true ∨ ([] : List Text) ≠ [] then _ else _) = _
  by_cases hall : o.all = true
  · rw [if_pos (.inl hall), if_pos hall]
  · rw [if_neg (by simp [hall]), if_neg hall]
    match newLimit o.what.1 p with
    | .error msg => rfl
    | .ok v =>
      dsimp only
      rcases o with ⟨soft, hard, how, all, what⟩
      cases soft <;> cases hard <;> rfl

theorem ulimitcmd_print (h : options .init args = .ok (o, [])) (hall : o.all = false)
    (k : Kernel) (st : Process) :
    ulimitcmd k args st = .ok (limText o (st o.what.1.cmd) o.what.1, st) := by
  unfold ulimitcmd
  rw [h]
  change (if o.all = true then _ else _) = _
  rw [hall]
  rfl

/-- What the options show of a limit that was installed with them. -/
theorem installed_shows {st st' : Process} (h : Installed o st st' v) :
    (if o.soft then (st' o.what.1.cmd).cur else (st' o.what.1.cmd).max) = v := by
  rw [h, Function.update_self]
  cases hsoft : o.soft with
  | true => simp
  | false =>
    have hhard : o.hard = true := o.how.resolve_left (by simp [hsoft])
    simp [hhard]

/-- A command that does not fail installs the operand's limit. -/
theorem newLimit_of_ok {k : Kernel} {st st' : Process} {out : Text}
    (h : options .init args = .ok (o, [p])) (hok : ulimitcmd k args st = .ok (out, st')) :
    o.all = false ∧ ∃ v, newLimit o.what.1 p = .ok v ∧ Installed o st st' v := by
  rw [ulimitcmd_set h] at hok
  split at hok
  case isTrue => cases hok
  case isFalse hall =>
    refine ⟨by simpa using hall, ?_⟩
    match hval : newLimit o.what.1 p with
    | .error msg =>
      rw [hval] at hok
      cases hok
    | .ok v =>
      refine ⟨v, rfl, ?_⟩
      rw [hval] at hok
      dsimp only [Kernel.setrlimit] at hok
      split at hok
      case h_1 => cases hok
      case h_2 hset =>
        cases hok
        split at hset
        case h_1 => cases hset
        case h_2 =>
          cases hset
          rfl

theorem exact_of_fits (k : Kernel) (st : Process)
    (hfits : ∀ o p, options .init args = .ok (o, [p]) → o.all = false → Fits o.what.1 p) :
    Exact k st args := by
  intro o p h out st' hok
  obtain ⟨hall, v, hval, hinst⟩ := newLimit_of_ok h hok
  have hshows := installed_shows hinst
  have hprint := ulimitcmd_print (options_dropLast h) hall k st'
  by_cases hunlimited : p = "unlimited".toList
  · rw [newLimit, if_pos hunlimited] at hval
    cases hval
    refine ⟨.unlimited, _, by rw [request, if_pos hunlimited], rfl, hinst, ?_⟩
    rw [hprint, limText_unlimited hshows]
    rfl
  · rcases hfits o p h hall with hp | hp | ⟨hne, hlimit, hn⟩
    · exact absurd hp hunlimited
    · rw [newLimit_bad hunlimited hp] at hval
      cases hval
    · by_cases hdigits : p.all isDigit
      · rw [newLimit_digits hunlimited hdigits] at hval
        cases hval
        have hvalue : (BitVec.ofNat 64 (magnitude 10 p * o.what.1.factor)).toNat =
            magnitude 10 p * o.what.1.factor := by
          rw [BitVec.toNat_ofNat, Nat.mod_eq_of_lt (by omega)]
        refine ⟨.number (magnitude 10 p), _, ?_, hvalue, hinst, ?_⟩
        · rw [request, if_neg hunlimited, if_pos ⟨hne, hdigits⟩]
        · rw [hprint, limText_number o.what.2 hshows hvalue hlimit hn]
          rfl
      · rw [newLimit_bad hunlimited (by simpa using hdigits)] at hval
        cases hval

theorem not_mem_toDigits {c : Char} {n : ℕ} (hc : isBaseDigit 10 c = false) :
    c ∉ Nat.toDigits 10 n := by
  intro h
  rw [isBaseDigit_of_mem_toDigits (by decide) (by decide) h] at hc
  cases hc

/-- A kernel that refuses no limit. -/
def permissive : Kernel := ⟨fun _ _ _ => none⟩

/-- The limits are installed exactly, or the command fails, if and only if the operand is refused
or not empty and its limit does not wrap around or meet the mark of no limit. -/
theorem ulimit_exact_iff (args : List Text) :
    (∀ k st, Exact k st args) ↔
      ∀ o p, options .init args = .ok (o, [p]) → o.all = false → Fits o.what.1 p := by
  refine ⟨?_, fun hfits k st => exact_of_fits k st hfits⟩
  intro hexact o p h hall
  by_cases hunlimited : p = "unlimited".toList
  · exact .inl hunlimited
  by_cases hdigits : p.all isDigit
  swap
  · exact .inr (.inl (by simpa using hdigits))
  refine .inr (.inr ?_)
  have hok : ∃ st', ulimitcmd permissive args (fun _ => ⟨0, 0⟩) = .ok ([], st') := by
    rw [ulimitcmd_set h, if_neg (by simp [hall]), newLimit_digits hunlimited hdigits]
    exact ⟨_, rfl⟩
  obtain ⟨st', hok⟩ := hok
  obtain ⟨r, v, hr, hvalue, hinst, hprint⟩ := hexact permissive _ o p h _ _ hok
  rw [request, if_neg hunlimited] at hr
  split at hr
  case isFalse => cases hr
  case isTrue hp =>
    cases hr
    refine ⟨hp.1, ?_⟩
    have hshows := installed_shows hinst
    rw [ulimitcmd_print (options_dropLast h) hall] at hprint
    have htext : limText o (st' o.what.1.cmd) o.what.1 =
        Nat.toDigits 10 (magnitude 10 p) ++ ['\n'] := congrArg Prod.fst (Except.ok.inj hprint)
    change v.toNat = magnitude 10 p * o.what.1.factor at hvalue
    have hbound := v.isLt
    rw [hvalue] at hbound
    have hlimit : magnitude 10 p * o.what.1.factor < 2 ^ 64 - 1 := by
      by_contra hge
      have hinf : v = RLIM_INFINITY := by
        apply BitVec.eq_of_toNat_eq
        rw [hvalue, show RLIM_INFINITY.toNat = 2 ^ 64 - 1 from rfl]
        omega
      rw [limText_unlimited (hshows.trans hinf)] at htext
      have hdigits : Nat.toDigits 10 (magnitude 10 p) = "unlimited".toList :=
        List.append_cancel_right htext.symm
      exact not_mem_toDigits (c := 'u') rfl (by rw [hdigits]; decide)
    refine ⟨hlimit, ?_⟩
    by_contra hge
    have hone : o.what.1.factor = 1 := by
      have hpos := (factor_pos _ o.what.2).1
      by_contra hne
      have htwo : 2 ≤ o.what.1.factor := by omega
      have := Nat.mul_le_mul_left (magnitude 10 p) htwo
      omega
    rw [hone, Nat.mul_one] at hvalue hbound hlimit
    have hinf : v ≠ RLIM_INFINITY := by
      rintro rfl
      rw [show RLIM_INFINITY.toNat = 2 ^ 64 - 1 from rfl] at hvalue
      omega
    have hneg : v.toInt < 0 := by
      rw [BitVec.toInt_eq_toNat_cond, hvalue, if_neg (by omega)]
      omega
    have hdiv : v / BitVec.ofNat 64 1 = v := by simp
    rw [limText, hshows, if_neg hinf, hone, hdiv, fmtImax, if_pos hneg] at htext
    have hdigits : '-' :: Nat.toDigits 10 v.toInt.natAbs = Nat.toDigits 10 (magnitude 10 p) :=
      List.append_cancel_right htext
    exact not_mem_toDigits (c := '-') rfl (by rw [← hdigits]; exact List.mem_cons_self)

/-- `ulimit -n 18446744073709551617` sets the limit 1, and `ulimit ''` the limit 0. -/
theorem ulimit_not_exact :
    ¬ (∀ k st args, Exact k st args) ∧
    (ulimitcmd permissive ["-n".toList, "18446744073709551617".toList] (fun _ => ⟨0, 0⟩)).map
      (fun r => r.2 .nofile) = .ok ⟨1, 1⟩ ∧
    (ulimitcmd permissive [[]] (fun _ => ⟨5, 5⟩)).map (fun r => r.2 .fsize) = .ok ⟨0, 0⟩ := by
  refine ⟨?_, by rfl, by rfl⟩
  intro hexact
  have hok : ∃ st', ulimitcmd permissive [[]] (fun _ => ⟨5, 5⟩) = .ok ([], st') := ⟨_, rfl⟩
  obtain ⟨st', hok⟩ := hok
  obtain ⟨r, v, hr, -⟩ := hexact permissive _ [[]] .init [] rfl _ _ hok
  cases hr

end Bootsh.Ulimit
