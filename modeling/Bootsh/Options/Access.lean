import Bootsh.Options.Posix

/-!
The accesses of `getopts` to its argument list. `optind` and `optoff` may be of another list, or
of the same one before a `shift`.
-/
namespace Bootsh.Options

/-- An access outside of the list and its terminating null pointer. -/
structure Outside where
  index : ℤ
  deriving DecidableEq, Repr

/-- `optfirst[i]` -/
def argv (optfirst : List Text) (i : ℤ) : Except Outside (Option Text) :=
  if 0 ≤ i ∧ i ≤ optfirst.length then .ok optfirst[i.toNat]? else .error ⟨i⟩

section
variable (optstr : Text) (optfirst : List Text)

/-- From the assignment of `*p++` to `c` on; `*optnext` is looked at for an option with an
argument. -/
def readOpt (optnext : ℤ) (c : Char) (p : Text) : Except Outside Scan :=
  match findOpt c (if optstr.head? = some ':' then optstr.tail else optstr) with
  | some (':' :: _) => (argv optfirst optnext).map fun _ => scanOpt optstr optfirst optnext.toNat c p
  | _ => .ok (scanOpt optstr optfirst optnext.toNat c p)

/-- What is left of the word before `optnext`. -/
def readWord (ind off : ℤ) : Except Outside Text :=
  if ind ≤ 1 ∨ off < 0 then .ok []
  else (argv optfirst (ind - 2)).bind fun
    | none => .error ⟨ind - 2⟩
    | some word => .ok (if word.length < off then [] else word.drop off.toNat)

def readNext (ind off : ℤ) : Except Outside Scan :=
  (readWord optfirst ind off).bind fun
    | c :: p => readOpt optstr optfirst (ind - 1) c p
    | [] => (argv optfirst (ind - 1)).bind fun
      | some ['-', '-'] => .ok ⟨ind.toNat, none, '?', true, none⟩
      | some ('-' :: c :: p) => readOpt optstr optfirst ind c p
      | _ => .ok ⟨(ind - 1).toNat, none, '?', true, none⟩

/-- `getopts`, with `*(optnext - 1)` at the end. -/
def readGetopts (ind off : ℤ) : Except Outside Scan :=
  (readNext optstr optfirst ind off).bind fun o =>
    match o.p with
    | none => .ok o
    | some _ => (argv optfirst (o.optnext - 1)).bind fun
      | none => .error ⟨o.optnext - 1⟩
      | some _ => .ok o

end

section
variable {optstr : Text} {optfirst : List Text} {ind : ℕ}

theorem argv_inside {i : ℤ} (h0 : 0 ≤ i) (h : i ≤ optfirst.length) :
    argv optfirst i = .ok optfirst[i.toNat]? := if_pos ⟨h0, h⟩

theorem readOpt_inside {optnext : ℕ} (h : optnext ≤ optfirst.length) (c : Char) (p : Text) :
    readOpt optstr optfirst optnext c p = .ok (scanOpt optstr optfirst optnext c p) := by
  unfold readOpt
  split
  · rw [argv_inside (by omega) (by omega)]
    rfl
  · rfl

theorem readWord_inside (off : ℤ) (hle : ind ≤ optfirst.length + 1) :
    readWord optfirst ind off = .ok (currentWord optfirst ind off) := by
  unfold readWord currentWord
  by_cases hfirst : (ind : ℤ) ≤ 1 ∨ off < 0
  · rw [if_pos hfirst, if_pos (by omega)]
  · have hlt : ind - 2 < optfirst.length := by omega
    rw [if_neg hfirst, argv_inside (by omega) (by omega), show ((ind : ℤ) - 2).toNat = ind - 2 by omega,
      List.getD_eq_getElem?_getD, List.getElem?_eq_getElem hlt]
    dsimp only [Except.bind, Option.getD_some]
    by_cases hlong : ((optfirst[ind - 2]).length : ℤ) < off
    · rw [if_pos hlong, if_pos (.inr (.inr hlong))]
    · rw [if_neg hlong, if_neg (by omega)]

theorem readNext_inside (off : ℤ) (hpos : 1 ≤ ind) (hle : ind ≤ optfirst.length + 1) :
    readNext optstr optfirst ind off = .ok (nextOpt optstr optfirst ind off) := by
  unfold readNext nextOpt
  rw [readWord_inside off hle]
  dsimp only [Except.bind]
  have hbefore : (ind : ℤ) - 1 = (ind - 1 : ℕ) := by omega
  cases currentWord optfirst ind off with
  | cons c p =>
    dsimp only
    rw [hbefore]
    exact readOpt_inside (by omega) c p
  | nil =>
    dsimp only
    rw [hbefore, argv_inside (by omega) (by omega), Int.toNat_natCast]
    dsimp only
    have hnext : ∀ word, optfirst[ind - 1]? = some word → ind ≤ optfirst.length := by
      intro word hword
      have := (List.getElem?_eq_some_iff.mp hword).1
      omega
    generalize optfirst[ind - 1]? = arg at hnext
    rcases option_word arg with rfl | ⟨c, p, rfl, hnot⟩ | ⟨hnot, hno⟩
    · rfl
    · simp only
      exact readOpt_inside (hnext _ rfl) _ _
    · simp only

/-- The word that is not finished is the one before `optnext`. -/
theorem nextOpt_word {off : ℤ} {p : Text} (hpos : 1 ≤ ind)
    (h : (nextOpt optstr optfirst ind off).p = some p) :
    ∃ k word, (nextOpt optstr optfirst ind off).optnext = k + 1 ∧ optfirst[k]? = some word := by
  unfold nextOpt at h ⊢
  cases hcur : currentWord optfirst ind off with
  | cons c p₁ =>
    simp only [hcur] at h ⊢
    obtain ⟨word, hlt, hword, -, -⟩ := currentWord_cons hcur
    exact ⟨ind - 2, word, by rw [(scanOpt_p h).2]; omega, hword⟩
  | nil =>
    simp only [hcur] at h ⊢
    split at h
    case h_1 => cases h
    case h_3 => cases h
    case h_2 c p₁ hne hword => exact ⟨ind - 1, _, by rw [(scanOpt_p h).2]; omega, hword⟩

/-- With `optind` within the list and the pointer after it no access is outside. -/
theorem readGetopts_inside (off : ℤ) (hpos : 1 ≤ ind) (hle : ind ≤ optfirst.length + 1) :
    readGetopts optstr optfirst ind off = .ok (nextOpt optstr optfirst ind off) := by
  unfold readGetopts
  rw [readNext_inside off hpos hle]
  dsimp only [Except.bind]
  cases hp : (nextOpt optstr optfirst ind off).p with
  | none => rfl
  | some p =>
    dsimp only
    obtain ⟨k, word, hnext, hword⟩ := nextOpt_word hpos hp
    have hk := (List.getElem?_eq_some_iff.mp hword).1
    rw [argv_inside (by omega) (by omega),
      show ((nextOpt optstr optfirst ind off).optnext - 1 : ℤ).toNat = k by omega, hword]

end

/-! ### Every call -/

/-- A call of the builtin stays inside of its arguments. -/
def GetoptsInside (optstr : Text) (args : List Text) (st : State) : Prop :=
  let optbase := st.optbase args
  let sp := (fitOptind (if args = [] then st.shellparam.nparam + 1 else args.length + 1) st).shellparam
  ∃ o, readGetopts optstr optbase sp.optind sp.optoff = .ok o

mutual

/-- Every call of `getopts` in a command stays inside, whatever the commands before it have
done. -/
def Inside : Cmd → State → Prop
  | .getopts optstr _ args, st => GetoptsInside optstr args st
  | .call assigns args body, st => ∀ st₁,
    st.pushlocalvars.varOps (assigns.map .prefixAssign) = (none, st₁) →
      InsideList body (st₁.withParam (setparam args))
  | .caught body, st => InsideList body st.pushlocalvars
  | _, _ => True

def InsideList : List Cmd → State → Prop
  | [], _ => True
  | c :: cs, st => Inside c st ∧ ((exec c st).1 = .next → InsideList cs (exec c st).2)

end

theorem getopts_inside (optstr : Text) (args : List Text) {st : State}
    (h : st.shellparam.Valid) : GetoptsInside optstr args st := by
  have hlimit : (if args = [] then st.shellparam.nparam + 1 else args.length + 1) =
      (st.optbase args).length + 1 := by
    unfold State.optbase
    split
    · rw [h.nparam]
    · rfl
  unfold GetoptsInside
  dsimp only
  rw [hlimit]
  obtain ⟨ind, hfit, hpos, hle, -, -⟩ :=
    fitOptind_spec ((st.optbase args).length + 1) (by omega) h
  rw [hfit]
  exact ⟨_, readGetopts_inside _ hpos hle⟩

/-! ### The position stays valid -/

theorem optindOf_pos {value : Text} {n : ℕ} (h : optindOf value = .ok n) : 1 ≤ n := by
  unfold optindOf at h
  cases hn : number value with
  | error msg =>
    rw [hn] at h
    cases h
  | ok k =>
    rw [hn] at h
    cases h
    split
    · exact le_rfl
    · omega

theorem getoptsreset_valid {value : Text} {sp sp' : Shparam} (h : sp.Valid)
    (hok : getoptsreset value sp = .ok sp') : sp'.Valid := by
  unfold getoptsreset at hok
  cases hn : optindOf value with
  | error msg =>
    rw [hn] at hok
    cases hok
  | ok n =>
    rw [hn] at hok
    cases hok
    have hpos := optindOf_pos hn
    exact ⟨h.nparam, .inr (by show (1 : ℤ) ≤ n; omega)⟩

theorem callHooks_valid {calls : List (VarFunc × Text)} {sp sp' : Shparam} (h : sp.Valid)
    (hok : callHooks calls sp = .ok sp') : sp'.Valid := by
  induction calls generalizing sp' with
  | nil =>
    cases hok
    exact h
  | cons c calls ih =>
    obtain ⟨func, value⟩ := c
    rw [callHooks] at hok
    cases hcalls : callHooks calls sp with
    | error msg =>
      rw [hcalls] at hok
      cases hok
    | ok sp₁ =>
      rw [hcalls] at hok
      cases func with
      | getoptsreset => exact getoptsreset_valid (ih hcalls) hok
      | changepath | changemail =>
        cases hok
        exact ih hcalls

theorem setparam_valid (args : List Text) : (setparam args).Valid := ⟨rfl, .inr le_rfl⟩

section
variable {st st' : State}

theorem settle_valid {vars : Vars} {hooks : vars.Hooks} (h : st.shellparam.Valid)
    (hok : st.settle vars hooks = .ok st') : st'.shellparam.Valid :=
  callHooks_valid h (settle_ok hok).2

theorem varOp_valid (op : VarOp) (h : st.shellparam.Valid) : (st.varOp op).2.shellparam.Valid := by
  unfold State.varOp
  split
  case h_1 => exact h
  case h_2 hok => exact settle_valid h hok

theorem varOps_valid (ops : List VarOp) (h : st.shellparam.Valid) :
    (st.varOps ops).2.shellparam.Valid := by
  induction ops generalizing st with
  | nil => exact h
  | cons op ops ih =>
    have hop := varOp_valid op h
    rw [State.varOps]
    split
    case h_1 heq =>
      rw [heq] at hop
      exact hop
    case h_2 heq =>
      rw [heq] at hop
      exact ih hop

theorem shiftcmd_valid (n : ℕ) (h : st.shellparam.Valid) :
    (st.shiftcmd n).2.shellparam.Valid := by
  unfold State.shiftcmd
  dsimp only
  split
  · exact h
  · refine ⟨?_, .inr le_rfl⟩
    show st.shellparam.nparam - n = (st.shellparam.p.drop n).length
    rw [List.length_drop, h.nparam]

theorem fitOptind_valid (limit : ℕ) (h : st.shellparam.Valid) :
    (fitOptind limit st).shellparam.Valid := by
  unfold fitOptind
  split
  · exact ⟨h.nparam, .inr le_rfl⟩
  · exact h

theorem getopts_valid (optstr optvar : Text) (optfirst : List Text) (h : st.shellparam.Valid) :
    (getopts optstr optvar optfirst st).2.shellparam.Valid := by
  unfold getopts
  dsimp only
  generalize nextOpt optstr optfirst st.shellparam.optind.toNat st.shellparam.optoff = o
  have hops := @varOps_valid (st.withParam { st.shellparam with optind := -1 }) (optVars optvar o)
    ⟨h.nparam, .inl rfl⟩
  split
  case h_1 heq =>
    rw [heq] at hops
    exact hops
  case h_2 heq =>
    rw [heq] at hops
    exact ⟨hops.nparam, .inr (by show (1 : ℤ) ≤ o.optnext + 1; omega)⟩

theorem getoptscmd_valid (optstr optvar : Text) (args : List Text) (h : st.shellparam.Valid) :
    (getoptscmd optstr optvar args st).2.shellparam.Valid := by
  unfold getoptscmd
  split
  · exact getopts_valid _ _ _ (fitOptind_valid _ h)
  · exact getopts_valid _ _ _ (fitOptind_valid _ h)

theorem poplocalvarList_valid (l : List Localvar) (hl : SavedFixed l) (h : st.shellparam.Valid) :
    (State.poplocalvarList l hl st).2.shellparam.Valid := by
  induction l generalizing st with
  | nil => exact h
  | cons lvp next ih =>
    rw [poplocalvarList_cons]
    split
    case h_1 => exact h
    case h_2 st₁ hok =>
      apply ih hl.tail
      unfold State.poplocalvar at hok
      split at hok
      case h_1 => cases hok
      case h_2 => exact settle_valid h hok

theorem poplocalvars_valid (h : st.shellparam.Valid) : st.poplocalvars.2.shellparam.Valid := by
  unfold State.poplocalvars
  split
  case h_1 => exact h
  case h_2 ll next hstack =>
    exact poplocalvarList_valid ll (st.hooks.saved (hstack ▸ List.mem_cons_self)) h

theorem popScopes_valid (n : ℕ) (h : st.shellparam.Valid) :
    (st.popScopes n).2.shellparam.Valid := by
  induction n generalizing st with
  | zero => exact h
  | succ n ih =>
    have hpop := @poplocalvars_valid st h
    rw [State.popScopes]
    split
    case h_1 heq =>
      rw [heq] at hpop
      exact hpop
    case h_2 heq =>
      rw [heq] at hpop
      exact ih hpop

theorem unwound_valid (stop : ℕ) {r : End × State} (h : r.2.shellparam.Valid) :
    (unwound stop r).2.shellparam.Valid := by
  have hpop := popScopes_valid (r.2.depth - stop) h
  unfold unwound State.unwindlocalvars
  split
  case h_1 heq =>
    rw [heq] at hpop
    exact hpop
  case h_2 heq =>
    rw [heq] at hpop
    exact hpop

/-- The parameters after the call are those after the assignments. -/
theorem callBody_valid (body : State → End × State) (assigns args : List Text)
    (h : st.shellparam.Valid) : (callBody body assigns args st).2.shellparam.Valid := by
  have hops := @varOps_valid st.pushlocalvars (assigns.map .prefixAssign) h
  unfold callBody
  split
  case h_1 heq =>
    rw [heq] at hops
    exact hops
  case h_2 heq =>
    rw [heq] at hops
    exact hops

theorem raises_valid {r : Option Text × State} (h : r.2.shellparam.Valid) :
    (raises r).2.shellparam.Valid := h

mutual

theorem exec_valid (c : Cmd) (st : State) (h : st.shellparam.Valid) :
    (exec c st).2.shellparam.Valid := by
  cases c with
  | set argv => exact setparam_valid argv
  | shift n => exact shiftcmd_valid n h
  | getopts optstr optvar args => exact getoptscmd_valid optstr optvar args h
  | var op hop => exact varOp_valid op h
  | call assigns args body =>
    have hbody := callBody_valid (execList body) assigns args h
    rw [exec]
    split
    · exact hbody
    · exact unwound_valid _ hbody
  | caught body =>
    rw [exec]
    exact unwound_valid _ (execList_valid body st.pushlocalvars h)
  | error => exact h
  | return_ => exact h

theorem execList_valid (cs : List Cmd) (st : State) (h : st.shellparam.Valid) :
    (execList cs st).2.shellparam.Valid := by
  cases cs with
  | nil => exact h
  | cons c cs =>
    have hc := exec_valid c st h
    rw [execList]
    split
    · exact execList_valid cs _ hc
    · exact hc

end

mutual

theorem exec_inside (c : Cmd) (st : State) (h : st.shellparam.Valid) : Inside c st := by
  cases c with
  | getopts optstr optvar args => exact getopts_inside optstr args h
  | call assigns args body =>
    intro st₁ _
    exact execList_inside body _ (setparam_valid args)
  | caught body => exact execList_inside body st.pushlocalvars h
  | set argv => trivial
  | shift n => trivial
  | var op hop => trivial
  | error => trivial
  | return_ => trivial

theorem execList_inside (cs : List Cmd) (st : State) (h : st.shellparam.Valid) :
    InsideList cs st := by
  cases cs with
  | nil => trivial
  | cons c cs => exact ⟨exec_inside c st h, fun _ => execList_inside cs _ (exec_valid c st h)⟩

end

end

/-! ### The whole -/

/-- Sequences of calls give what the reference gives, and in every run of commands no call
accesses an argument that is not there. -/
theorem getopts_exact (optstr optvar : Text) (args : List Text) (hgood : isGoodName optvar)
    (harg : optvar ≠ optargName) (hind : optvar ≠ optindName) :
    (∀ st : State, st.Ready optvar → ∀ turns,
      (Run.run (State.turn optstr optvar args) st turns).1 =
        (Run.run (Reference.turn keptOptarg optstr (st.optbase args))
          ⟨st.position args, st.values optvar⟩ turns).1) ∧
    ∀ st : State, st.shellparam.Valid → ∀ cmds, InsideList cmds st :=
  ⟨fun _ h turns => turns_reference hgood harg hind h turns,
    fun st h cmds => execList_inside cmds st h⟩

/-- `set -- -ab x -cd -- -a`, `getopts :ab:c o` three times, `OPTIND=1`, `getopts :ab:c o`; and
`getopts c o`, `shift 4`, `getopts c o` -/
theorem getopts_exact_restarted :
    (Run.run (State.turn ":ab:c".toList "o".toList [])
        (start ["-ab".toList, "x".toList, "-cd".toList, "--".toList, "-a".toList])
        [.call, .call, .call, .restart, .call]).1 =
      (Run.run (Reference.turn keptOptarg ":ab:c".toList
          ["-ab".toList, "x".toList, "-cd".toList, "--".toList, "-a".toList])
        ⟨⟨0, []⟩, (start ["-ab".toList, "x".toList, "-cd".toList, "--".toList,
          "-a".toList]).values "o".toList⟩ [.call, .call, .call, .restart, .call]).1 ∧
    InsideList [.getopts "c".toList "o".toList [], .shift 4, .getopts "c".toList "o".toList []]
      (start ["-cd".toList, "x".toList, "-cd".toList, "--".toList, "-a".toList]) :=
  ⟨(getopts_exact ":ab:c".toList "o".toList [] (by decide) (by decide) (by decide)).1
      (start ["-ab".toList, "x".toList, "-cd".toList, "--".toList, "-a".toList])
      ⟨⟨by decide +kernel, .inr (by decide +kernel)⟩, by decide +kernel, by decide +kernel,
        by decide +kernel⟩ [.call, .call, .call, .restart, .call],
    (getopts_exact ":ab:c".toList "o".toList [] (by decide) (by decide) (by decide)).2
      (start ["-cd".toList, "x".toList, "-cd".toList, "--".toList, "-a".toList])
      (setparam_valid _)
      [.getopts "c".toList "o".toList [], .shift 4, .getopts "c".toList "o".toList []]⟩

/-- `OPTARG` is empty after `-a`, and still so at the end, where the standard has it unset. -/
theorem getopts_not_standard :
    (start ["-a".toList]).Ready "o".toList ∧
      (Run.run (State.turn "a".toList "o".toList []) (start ["-a".toList]) [.call, .call]).1 ≠
        (Run.run (Reference.turn standardOptarg "a".toList ["-a".toList])
          ⟨(start ["-a".toList]).position [], (start ["-a".toList]).values "o".toList⟩
          [.call, .call]).1 ∧
      (Run.run (State.turn "a".toList "o".toList []) (start ["-a".toList]) [.call, .call]).1.map
        (fun out => out.2.optarg) = [some [], some []] := by
  refine ⟨⟨⟨by decide +kernel, .inr (by decide +kernel)⟩, by decide +kernel, by decide +kernel,
    by decide +kernel⟩, by decide +kernel, by decide +kernel⟩

end Bootsh.Options
