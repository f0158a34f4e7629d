import Bootsh.Lib.Fuel
import Bootsh.Lib.Json
import Bootsh.Lib.Occurrence
import Bootsh.Samu.EdgeVar
import Bootsh.Samu.Tool

/-!
The tool `compdb`, which prints the commands of the edges as JSON.
-/
namespace Bootsh.Samu.Manifest

open Json Occurrence

/-- A text up to its end as a string of C, with newlines turned to spaces for `join`. -/
def printjson (join : Bool) : Text → Text
  | [] => []
  | c :: s =>
    if c = '\x00' then []
    else if c = '"' ∨ c = '\\' then '\\' :: c :: printjson join s
    else (if c = '\n' ∧ join then ' ' else c) :: printjson join s

/-- What `strstr` finds of the file in the command, and the '@' before it, from where to where. -/
def rspspan (cmd file : Text) : Option (ℕ × ℕ) :=
  match search (cstr file) (cstr cmd) with
  | none => none
  | some off =>
    if off = 0 ∨ cmd[off - 1]? ≠ some '@' then none else some (off - 1, off + file.length)

section

variable (dir : Text) (expandrsp : Bool)

def rspfile (w : World) (e : ℕ) : Except Stop (Option Text × World) :=
  if expandrsp then w.getvar (w.edge e) "rspfile".toList true else .ok (none, w)

/-- The command, under `-x` with the content of the response file in place of the reference. -/
def jsoncommand (w : World) (e : ℕ) : Except Stop (Text × World) := do
  let (cmd, w) ← w.getvar (w.edge e) "command".toList true
  let (file, w) ← rspfile expandrsp w e
  match cmd with
  | none => .error .outside
  | some cmd =>
    match file.bind (rspspan cmd) with
    | none => .ok (printjson false cmd, w)
    | some (start, stop) => do
      let (content, w) ← w.getvar (w.edge e) "rspfile_content".toList true
      match content with
      | none => .error .outside
      | some content =>
        if cmd.length < stop then .error .outside
        else .ok (printjson false (cmd.take start) ++ printjson true content ++
          printjson false (cmd.drop stop), w)

def jsonentry (w : World) (e : ℕ) : Except Stop (Text × World) := do
  let (command, w) ← jsoncommand expandrsp w e
  match (w.edge e).ins, (w.edge e).outs with
  | i :: _, o :: _ =>
    return ("\n  \x7b\n    \"directory\": \"".toList ++ printjson false dir ++
      "\",\n    \"command\": \"".toList ++ command ++
      "\",\n    \"file\": \"".toList ++ printjson false (w.path i) ++
      "\",\n    \"output\": \"".toList ++ printjson false (w.path o) ++
      "\"\n  \x7d".toList, w)
  | _, _ => .error .outside

def jsonentries (w : World) : List ℕ → Except Stop (List Text)
  | [] => .ok []
  | e :: es => do
    let (text, w) ← jsonentry dir expandrsp w e
    let texts ← jsonentries w es
    return text :: texts

/-- The edges with inputs and with one of the rules. -/
def World.selected (w : World) (args : List Text) : List ℕ :=
  w.alledges.filter fun e => !(w.edge e).ins.isEmpty && args.contains (w.rulename e)

def compdb (w : World) (args : List Text) : Except Stop Text := do
  let texts ← jsonentries dir expandrsp w (w.selected args)
  return '[' :: List.intercalate [','] texts ++ "\n]\n".toList

end

/-! ### What is to be printed -/

def joinlines (s : Text) : Text := s.map fun c => if c = '\n' then ' ' else c

section

variable (w : World) (e : ℕ)

def World.rulebindings : Bindings := (w.rules.getD (w.edge e).rule ⟨[], []⟩).bindings

/-- What a variable means for an edge. -/
def World.Says (var : String) (val : Option Text) : Prop :=
  Denotes w (w.edge e) true (w.rulebindings e) var.toList val

/-- The first reference to a response file in a command, between `before` and `after`. -/
structure Refers (cmd file before after : Text) : Prop where
  named : cstr file ≠ []
  eq : cstr cmd = before ++ '@' :: cstr file ++ after
  first : ∀ b, Occurs ('@' :: cstr file) (cstr cmd) b → before.length ≤ b.length

/-- The command of an edge, under `-x` with the content of its response file, joined with spaces,
in place of the reference to it. -/
inductive Command (expandrsp : Bool) : Text → Prop
  | plain {cmd : Text} : w.Says e "command" (some cmd) →
      (expandrsp = true → ∃ rspfile, w.Says e "rspfile" rspfile ∧
        ∀ file, rspfile = some file → ∀ before after, ¬ Refers cmd file before after) →
      Command expandrsp (cstr cmd)
  | expanded {cmd file content before after : Text} : expandrsp = true →
      w.Says e "command" (some cmd) → w.Says e "rspfile" (some file) →
      w.Says e "rspfile_content" (some content) → Refers cmd file before after →
      Command expandrsp (before ++ joinlines content ++ after)

/-- What an entry says. -/
def Describes (dir : Text) (expandrsp : Bool) (v : Json.Value) : Prop :=
  ∃ command i o ins outs, Command w e expandrsp command ∧
    (w.edge e).ins = i :: ins ∧ (w.edge e).outs = o :: outs ∧
    v = .obj [("directory".toList, .str dir), ("command".toList, .str command),
      ("file".toList, .str (w.pathof i)), ("output".toList, .str (w.pathof o))]

end

/-! ### When it is printed -/

/-- What is printed behind the reference is what follows it: there is no other place before it
where the name of the file stands, or else nothing is changed by the content, and the name is as
long as the variable. -/
def Spliced (cmd file content before after : Text) : Prop :=
  (∃ b, Occurs (cstr file) (cstr cmd) b ∧ b.length ≤ before.length) ∧
    joinlines content = '@' :: cstr file ∨
  (∀ b, Occurs (cstr file) (cstr cmd) b → before.length < b.length) ∧
    before.length + 1 + file.length ≤ cmd.length ∧
    cstr (cmd.drop (before.length + 1 + file.length)) = after

/-- There is a command, in UTF-8 and without control characters, and with nothing wrong at a
reference in it. -/
structure CommandPrintable (w : World) (e : ℕ) (expandrsp : Bool) : Prop where
  command : ∃ command, Command w e expandrsp command ∧ Legal command
  spliced : expandrsp = true → ∀ cmd file content before after, w.Says e "command" (some cmd) →
    w.Says e "rspfile" (some file) → w.Says e "rspfile_content" (some content) →
    Refers cmd file before after → Spliced cmd file content before after

/-- The texts of an entry are in UTF-8 and without control characters, and there are such texts. -/
structure Printable (w : World) (dir : Text) (expandrsp : Bool) (e : ℕ) : Prop where
  dir : Legal dir
  file : ∃ i ins, (w.edge e).ins = i :: ins ∧ Legal (w.pathof i)
  output : ∃ o outs, (w.edge e).outs = o :: outs ∧ Legal (w.pathof o)
  command : CommandPrintable w e expandrsp

/-! ### The texts -/

/-- A text of C ends at the end or at the first NUL. -/
theorem cstr_cases (s : Text) : cstr s = s ∨ ∃ t, s = cstr s ++ '\x00' :: t := by
  induction s with
  | nil => exact .inl rfl
  | cons c s ih =>
    by_cases hc : c = '\x00'
    · subst hc
      exact .inr ⟨s, by simp [cstr]⟩
    · have hcons : cstr (c :: s) = c :: cstr s := by simp [cstr, hc]
      rw [hcons]
      rcases ih with ih | ⟨t, ht⟩
      · exact .inl (by rw [ih])
      · exact .inr ⟨t, congrArg _ ht⟩

theorem legal_nul {s : Text} (h : Legal s) : '\x00' ∉ s := by
  induction h with
  | nil => simp
  | @cons a u t hutf8 hcontrol _ ih =>
    rintro hmem
    rcases List.mem_append.mp hmem with hmem | hmem
    · rcases List.mem_cons.mp hmem with rfl | hmem
      · cases hcontrol
      · have := List.all_eq_true.mp (isUtf8_tails hutf8) _ hmem
        cases this
    · exact ih hmem

theorem cstr_of_notMem {s : Text} (h : '\x00' ∉ s) : cstr s = s := by
  rcases cstr_cases s with hs | ⟨t, ht⟩
  · exact hs
  · rw [ht] at h
    simp at h

theorem printjson_false (s : Text) : printjson false s = escaped (cstr s) := by
  induction s with
  | nil => rfl
  | cons c s ih =>
    rw [printjson, ih]
    by_cases hc : c = '\x00'
    · simp [hc, cstr, escaped]
    · have hcons : cstr (c :: s) = c :: cstr s := by simp [cstr, hc]
      rw [if_neg hc, hcons, escaped]
      simp

theorem printjson_true (s : Text) : printjson true s = escaped (cstr (joinlines s)) := by
  induction s with
  | nil => rfl
  | cons c s ih =>
    have hjoin : joinlines (c :: s) = (if c = '\n' then ' ' else c) :: joinlines s := rfl
    rw [printjson, ih, hjoin]
    by_cases hc : c = '\x00'
    · simp [hc, cstr, escaped]
    · by_cases hline : c = '\n'
      · subst hline
        rfl
      · have hcons : ∀ t, cstr (c :: t) = c :: cstr t := by
          intro t
          simp [cstr, hc]
        rw [if_neg hc, if_neg hline, hcons, escaped]
        simp [hline]

/-! ### The lookups -/

def Rule.blank (r : Rule) : Rule := { r with bindings := r.bindings.blank }

/-- Two graphs that differ in cached values only. -/
structure World.Same (w w' : World) : Prop where
  rest : w' = { w with rules := w'.rules }
  rules : w'.rules.map Rule.blank = w.rules.map Rule.blank

theorem World.Same.refl (w : World) : w.Same w := ⟨rfl, rfl⟩

theorem edgevar_rules (w : World) (rules : List Rule) (e : Edge) (escape : Bool) (fuel : ℕ)
    (b : Bindings) (v : Text) :
    ({ w with rules } : World).edgevar e escape fuel b v = w.edgevar e escape fuel b v := by
  induction fuel generalizing b v with
  | zero => rfl
  | succ fuel ih =>
    have hfun : ({ w with rules } : World).edgevar e escape fuel = w.edgevar e escape fuel := by
      funext b v
      exact ih b v
    rw [World.edgevar, World.edgevar, hfun]
    rfl

theorem blank_rulebindings (rules : List Rule) (r : ℕ) :
    (rules.getD r ⟨[], []⟩).bindings.blank =
      ((rules.map Rule.blank).getD r ⟨[], []⟩).bindings := by
  rw [List.getD_eq_getElem?_getD, List.getD_eq_getElem?_getD, List.getElem?_map]
  cases rules[r]? <;> rfl

theorem World.Same.edge {w w' : World} (h : w.Same w') (e : ℕ) : w'.edge e = w.edge e := by
  rw [h.rest]
  rfl

theorem World.Same.rulebindings {w w' : World} (h : w.Same w') (e : ℕ) :
    (w'.rulebindings e).blank = (w.rulebindings e).blank := by
  unfold World.rulebindings
  rw [blank_rulebindings, blank_rulebindings, h.rules, h.edge]

/-- The bindings of one rule take others that are the same but for cached values. -/
theorem World.Same.modify {w w' : World} (h : w.Same w') {r : ℕ} {b : Bindings}
    (hb : b.blank = (w'.rules.getD r ⟨[], []⟩).bindings.blank) :
    w.Same { w' with rules := w'.rules.modify r fun rule => { rule with bindings := b } } := by
  refine ⟨by rw [h.rest], ?_⟩
  rw [← h.rules]
  refine List.ext_getElem? fun i => ?_
  rw [List.getElem?_map, List.getElem?_map, List.getElem?_modify]
  rw [List.getD_eq_getElem?_getD] at hb
  cases hi : w'.rules[i]? with
  | none => simp
  | some rule =>
    by_cases hr : r = i
    · subst hr
      rw [hi, Option.getD_some] at hb
      simp [Rule.blank, hb]
    · simp [hr]

section

variable {w w' w'' : World} {e : ℕ} {var : String} {val : Option Text}

/-- What `getvar` gives does not depend on the cached values. -/
theorem getvar_answers (h : w.Same w') :
    Answers w (w.edge e) true (w.rulebindings e) var.toList
      (w'.edgevar (w.edge e) true ((w'.rulebindings e).length + 1) (w'.rulebindings e)
        var.toList) := by
  rw [h.rest, edgevar_rules, ← h.rest]
  exact (edgevar_answers (Nat.lt_succ_of_le (Bindings.unmarked_le _))).congr (h.rulebindings e)

theorem getvar_ok (h : w.Same w')
    (hok : w'.getvar (w'.edge e) var.toList true = .ok (val, w'')) :
    w.Same w'' ∧ w.Says e var val := by
  have hanswers := @getvar_answers w w' e var h
  obtain ⟨⟨val', b⟩, hcall, hres⟩ := Fallible.bind_eq_ok.mp hok
  cases hres
  change w'.edgevar (w'.edge e) true ((w'.rulebindings e).length + 1) (w'.rulebindings e)
    var.toList = .ok (val, b) at hcall
  rw [h.edge] at hcall
  rw [hcall] at hanswers
  refine ⟨h.modify ?_, hanswers.2⟩
  exact hanswers.1.trans (h.rulebindings e).symm

theorem getvar_of_says (h : w.Same w') (hmeans : w.Says e var val) :
    ∃ w'', w'.getvar (w'.edge e) var.toList true = .ok (val, w'') := by
  have hanswers := @getvar_answers w w' e var h
  cases hcall : w'.edgevar (w.edge e) true ((w'.rulebindings e).length + 1) (w'.rulebindings e)
    var.toList with
  | error err =>
    rw [hcall] at hanswers
    exact absurd hanswers hmeans.not_error
  | ok res =>
    rw [hcall] at hanswers
    obtain ⟨val', b⟩ := res
    cases hmeans.unique hanswers.2
    refine ⟨_, Fallible.bind_eq_ok.mpr ⟨(val, b), ?_, rfl⟩⟩
    have hbind : (w'.rules.getD (w'.edge e).rule ⟨[], []⟩).bindings = w'.rulebindings e := rfl
    rw [hbind, h.edge]
    exact hcall

end

/-! ### The reference to the response file -/

section

variable {cmd file before after before' after' : Text}

theorem Refers.occurs (h : Refers cmd file before after) :
    Occurs ('@' :: cstr file) (cstr cmd) before := ⟨after, h.eq⟩

theorem Refers.occurs_name (h : Refers cmd file before after) :
    Occurs (cstr file) (cstr cmd) (before ++ ['@']) := ⟨after, by simp [h.eq]⟩

theorem Refers.unique (h : Refers cmd file before after) (h' : Refers cmd file before' after') :
    before = before' ∧ after = after' := by
  have hlen : before.length = before'.length :=
    le_antisymm (h.first _ h'.occurs) (h'.first _ h.occurs)
  obtain rfl := occurs_eq h.occurs h'.occurs hlen
  exact ⟨rfl, List.append_cancel_left (h.eq.symm.trans h'.eq)⟩

theorem getElem?_of_cstr {n : ℕ} {c : Char} (h : (cstr cmd)[n]? = some c) : cmd[n]? = some c := by
  rcases cstr_cases cmd with heq | ⟨t, ht⟩
  · rwa [heq] at h
  · rw [ht, List.getElem?_append_left (List.getElem?_eq_some_iff.mp h).1]
    exact h

theorem take_of_cstr {b a : Text} (h : cstr cmd = b ++ a) : cmd.take b.length = b := by
  rcases cstr_cases cmd with heq | ⟨t, ht⟩
  · rw [← heq, h, List.take_left]
  · rw [ht, h, List.append_assoc, List.take_left]

/-- Where the code finds no reference, the name of the file stands before the first one. -/
theorem rspspan_none (hnone : rspspan cmd file = none) (h : Refers cmd file before after) :
    ∃ b, Occurs (cstr file) (cstr cmd) b ∧ b.length ≤ before.length := by
  unfold rspspan at hnone
  cases hsearch : search (cstr file) (cstr cmd) with
  | none => exact absurd h.occurs_name (search_eq_none.mp hsearch _)
  | some off =>
    rw [hsearch] at hnone
    obtain ⟨b, hlen, hb, hfirst⟩ := search_eq_some.mp hsearch
    refine ⟨b, hb, Nat.le_of_not_lt fun hlt => ?_⟩
    have hoff := hfirst _ h.occurs_name
    rw [List.length_append, List.length_singleton] at hoff
    obtain rfl : off = before.length + 1 := by omega
    have hat : cmd[before.length]? = some '@' := getElem?_of_cstr (by simp [h.eq])
    simp [hat] at hnone

theorem rspspan_some {start stop : ℕ} (hsome : rspspan cmd file = some (start, stop)) :
    ∃ before after, Refers cmd file before after ∧ cmd.take start = before ∧
      stop = before.length + 1 + file.length ∧
      ∀ b, Occurs (cstr file) (cstr cmd) b → before.length < b.length := by
  unfold rspspan at hsome
  cases hsearch : search (cstr file) (cstr cmd) with
  | none =>
    rw [hsearch] at hsome
    cases hsome
  | some off =>
    obtain ⟨b, hlen, ⟨after, hb⟩, hfirst⟩ := search_eq_some.mp hsearch
    simp only [hsearch, ite_eq_iff, reduceCtorEq, and_false, false_or, not_or, not_not] at hsome
    obtain ⟨⟨hoff, hat⟩, hsome⟩ := hsome
    cases hsome
    have hne : b ≠ [] := by
      rintro rfl
      exact hoff hlen.symm
    obtain ⟨before, c, rfl⟩ := (List.eq_nil_or_concat' b).resolve_left hne
    rw [List.length_append, List.length_singleton] at hlen
    obtain rfl : off = before.length + 1 := hlen.symm
    have hc : c = '@' := by
      have hmem : cmd[before.length]? = some c := getElem?_of_cstr (by simp [hb])
      rw [Nat.add_sub_cancel, hmem] at hat
      exact Option.some.inj hat
    subst hc
    have heq : cstr cmd = before ++ '@' :: cstr file ++ after := by simp [hb]
    refine ⟨before, after, ⟨fun hnil => ?_, heq, fun b' hb' => ?_⟩, ?_, rfl, fun b' hb' => ?_⟩
    · have := hfirst [] (occurs_nil.mpr (hnil ▸ List.nil_prefix))
      simp at this
    · obtain ⟨a, ha⟩ := hb'
      have := hfirst (b' ++ ['@']) ⟨a, by simp [ha]⟩
      simp at this
      omega
    · rw [Nat.add_sub_cancel]
      exact take_of_cstr (heq.trans (List.append_assoc _ _ _))
    · have := hfirst b' hb'
      omega

end

/-! ### One command -/

section

variable {w w' w'' : World} {e : ℕ} {expandrsp : Bool} {t : Text}

theorem Command.unique {c c' : Text} (h : Command w e expandrsp c) (h' : Command w e expandrsp c') :
    c = c' := by
  cases h with
  | plain hcmd hno =>
    cases h' with
    | plain hcmd' _ => cases hcmd.unique hcmd'; rfl
    | expanded hx hcmd' hfile _ href =>
      obtain ⟨r, hr, hno⟩ := hno hx
      cases hcmd.unique hcmd'
      exact absurd href (hno _ (hr.unique hfile) _ _)
  | expanded hx hcmd hfile hcontent href =>
    cases h' with
    | plain hcmd' hno =>
      obtain ⟨r, hr, hno⟩ := hno hx
      cases hcmd.unique hcmd'
      exact absurd href (hno _ (hr.unique hfile) _ _)
    | expanded _ hcmd' hfile' hcontent' href' =>
      cases hcmd.unique hcmd'
      cases hfile.unique hfile'
      cases hcontent.unique hcontent'
      obtain ⟨rfl, rfl⟩ := href.unique href'
      rfl

/-- A command that is printed as it stands. -/
theorem plain_iff {cmd : Text} {rspfile : Option Text} (hcmd : w.Says e "command" (some cmd))
    (hfile : expandrsp = true → w.Says e "rspfile" rspfile)
    (hnone : expandrsp = true → rspfile.bind (rspspan cmd) = none) :
    Legal (cstr cmd) ∧ Command w e expandrsp (cstr cmd) ↔ CommandPrintable w e expandrsp := by
  by_cases href : expandrsp = true ∧ ∃ file before after, rspfile = some file ∧
      Refers cmd file before after
  · obtain ⟨hx, file, before, after, rfl, href⟩ := href
    obtain ⟨b, hb, hle⟩ := rspspan_none (hnone hx) href
    constructor
    · rintro ⟨hclean, hcommand⟩
      refine ⟨⟨_, hcommand, hclean⟩, ?_⟩
      intro _ cmd' file' content before' after' hcmd' hfile' hcontent href'
      cases hcmd.unique hcmd'
      cases (hfile hx).unique hfile'
      obtain ⟨rfl, rfl⟩ := href.unique href'
      have heq := hcommand.unique (.expanded hx hcmd hfile' hcontent href)
      rw [href.eq] at heq
      refine .inl ⟨⟨b, hb, hle⟩, ?_⟩
      exact (List.append_cancel_left (List.append_cancel_right heq)).symm
    · rintro ⟨⟨command, hcommand, hclean⟩, hspliced⟩
      suffices hcommand' : command = cstr cmd by
        subst hcommand'
        exact ⟨hclean, hcommand⟩
      cases hcommand with
      | plain hcmd' _ => cases hcmd.unique hcmd'; rfl
      | expanded _ hcmd' hfile' hcontent href' =>
        cases hcmd.unique hcmd'
        cases (hfile hx).unique hfile'
        obtain ⟨rfl, rfl⟩ := href.unique href'
        rcases hspliced hx _ _ _ _ _ hcmd hfile' hcontent href with ⟨-, heq⟩ | ⟨hlate, -⟩
        · rw [heq, href.eq]
        · exact absurd hle (Nat.not_le_of_lt (hlate b hb))
  · have hplain : Command w e expandrsp (cstr cmd) := by
      refine .plain hcmd fun hx => ⟨rspfile, hfile hx, ?_⟩
      rintro file rfl before after href'
      exact href ⟨hx, file, before, after, rfl, href'⟩
    constructor
    · rintro ⟨hclean, hcommand⟩
      refine ⟨⟨_, hcommand, hclean⟩, ?_⟩
      intro hx cmd' file' content before' after' hcmd' hfile' _ href'
      cases hcmd.unique hcmd'
      exact absurd ⟨hx, file', before', after', (hfile hx).unique hfile', href'⟩ href
    · rintro ⟨⟨command, hcommand, hclean⟩, -⟩
      rw [hplain.unique hcommand]
      exact ⟨hclean, hcommand⟩

/-- A command in which the reference is replaced. -/
theorem expanded_iff {cmd file content before after : Text} (hx : expandrsp = true)
    (hcmd : w.Says e "command" (some cmd)) (hfile : w.Says e "rspfile" (some file))
    (hcontent : w.Says e "rspfile_content" (some content)) (href : Refers cmd file before after)
    (hlate : ∀ b, Occurs (cstr file) (cstr cmd) b → before.length < b.length)
    (hlen : before.length + 1 + file.length ≤ cmd.length) {c : Text}
    (hc : c = before ++ cstr (joinlines content) ++
      cstr (cmd.drop (before.length + 1 + file.length))) :
    Legal c ∧ Command w e expandrsp c ↔ CommandPrintable w e expandrsp := by
  have hwish := Command.expanded hx hcmd hfile hcontent href
  have hjoin : Legal (before ++ joinlines content ++ after) →
      cstr (joinlines content) = joinlines content := by
    intro hclean
    refine cstr_of_notMem fun hnul => legal_nul hclean ?_
    exact List.mem_append_left _ (List.mem_append_right _ hnul)
  constructor
  · rintro ⟨hclean, hcommand⟩
    refine ⟨⟨_, hcommand, hclean⟩, ?_⟩
    intro _ cmd' file' content' before' after' hcmd' hfile' hcontent' href'
    cases hcmd.unique hcmd'
    cases hfile.unique hfile'
    cases hcontent.unique hcontent'
    obtain ⟨rfl, rfl⟩ := href.unique href'
    have heq := hcommand.unique hwish
    rw [heq] at hclean
    rw [hc, hjoin hclean] at heq
    exact .inr ⟨hlate, hlen, List.append_cancel_left heq⟩
  · rintro ⟨⟨command, hcommand, hclean⟩, hspliced⟩
    rw [hcommand.unique hwish] at hclean
    suffices heq : c = before ++ joinlines content ++ after by
      rw [heq]
      exact ⟨hclean, hwish⟩
    rcases hspliced hx _ _ _ _ _ hcmd hfile hcontent href with ⟨⟨b, hb, hle⟩, -⟩ | ⟨-, -, hafter⟩
    · exact absurd hle (Nat.not_le_of_lt (hlate b hb))
    · rw [hc, hjoin hclean, hafter]

theorem escaped_splice {cmd content before : Text} {start stop : ℕ} (h : cmd.take start = before)
    (hnul : cstr before = before) :
    printjson false (cmd.take start) ++ printjson true content ++ printjson false (cmd.drop stop) =
      escaped (before ++ cstr (joinlines content) ++ cstr (cmd.drop stop)) := by
  rw [printjson_false, printjson_true, printjson_false, h, hnul, escaped_append, escaped_append]

theorem Refers.before_nul {cmd file before after : Text} (h : Refers cmd file before after) :
    cstr before = before := by
  refine cstr_of_notMem fun hmem => ?_
  have hcmd : '\x00' ∈ cstr cmd := by
    rw [h.eq]
    exact List.mem_append_left _ (List.mem_append_left _ hmem)
  exact absurd (List.mem_takeWhile_imp hcmd) (by simp)

/-- The lookup of the response file, which is made under `-x` only. -/
theorem rspfile_ok {file : Option Text} (h : w.Same w')
    (hok : rspfile expandrsp w' e = .ok (file, w'')) :
    w.Same w'' ∧ (expandrsp = true → w.Says e "rspfile" file) ∧
      (expandrsp = false → file = none) := by
  cases expandrsp with
  | false =>
    cases hok
    exact ⟨h, by simp, fun _ => rfl⟩
  | true =>
    obtain ⟨hsame, hmeans⟩ := getvar_ok h hok
    exact ⟨hsame, fun _ => hmeans, by simp⟩

/-- What is printed for the command says it if and only if it can be printed. -/
theorem jsoncommand_ok (h : w.Same w') (hok : jsoncommand expandrsp w' e = .ok (t, w'')) :
    w.Same w'' ∧ ∃ c, t = escaped c ∧
      (Legal c ∧ Command w e expandrsp c ↔ CommandPrintable w e expandrsp) := by
  obtain ⟨⟨cmd, w₁⟩, h₁, hok⟩ := Fallible.bind_eq_ok.mp hok
  obtain ⟨hsame₁, hcmd⟩ := getvar_ok h h₁
  obtain ⟨⟨file, w₂⟩, h₂, hok⟩ := Fallible.bind_eq_ok.mp hok
  obtain ⟨hsame₂, hfile, hnofile⟩ := rspfile_ok hsame₁ h₂
  cases cmd with
  | none => cases hok
  | some cmd =>
    dsimp only at hok
    cases hspan : file.bind (rspspan cmd) with
    | none =>
      rw [hspan] at hok
      cases hok
      exact ⟨hsame₂, cstr cmd, printjson_false cmd, plain_iff hcmd hfile fun _ => hspan⟩
    | some span =>
      obtain ⟨start, stop⟩ := span
      obtain ⟨file, rfl, hrsp⟩ := Option.bind_eq_some_iff.mp hspan
      have hx : expandrsp = true := by
        by_contra hx
        cases hnofile (Bool.not_eq_true _ ▸ hx)
      obtain ⟨before, after, href, htake, hstop, hlate⟩ := rspspan_some hrsp
      rw [hspan] at hok
      obtain ⟨⟨content, w₃⟩, h₃, hok⟩ := Fallible.bind_eq_ok.mp hok
      obtain ⟨hsame₃, hcontent⟩ := getvar_ok hsame₂ h₃
      cases content with
      | none => cases hok
      | some content =>
        dsimp only at hok
        split at hok
        case isTrue => cases hok
        case isFalse hlen =>
          cases hok
          refine ⟨hsame₃, _, escaped_splice htake href.before_nul, ?_⟩
          subst hstop
          exact expanded_iff hx hcmd (hfile hx) hcontent href hlate (Nat.le_of_not_lt hlen) rfl

theorem jsoncommand_of_printable (h : w.Same w') (hp : CommandPrintable w e expandrsp) :
    ∃ t w'', jsoncommand expandrsp w' e = .ok (t, w'') := by
  obtain ⟨⟨command, hcommand, -⟩, hspliced⟩ := hp
  obtain ⟨cmd, hcmd⟩ : ∃ cmd, w.Says e "command" (some cmd) := by
    cases hcommand with
    | plain hcmd _ => exact ⟨_, hcmd⟩
    | expanded _ hcmd _ _ _ => exact ⟨_, hcmd⟩
  obtain ⟨w₁, h₁⟩ := getvar_of_says h hcmd
  have hsame₁ := (getvar_ok h h₁).1
  obtain ⟨file, w₂, h₂⟩ : ∃ file w₂, rspfile expandrsp w₁ e = .ok (file, w₂) := by
    cases expandrsp with
    | false => exact ⟨none, w₁, rfl⟩
    | true =>
      obtain ⟨file, hfile⟩ : ∃ file, w.Says e "rspfile" file := by
        cases hcommand with
        | plain _ hno =>
          obtain ⟨file, hfile, -⟩ := hno rfl
          exact ⟨file, hfile⟩
        | expanded _ _ hfile _ _ => exact ⟨_, hfile⟩
      obtain ⟨w₂, h₂⟩ := getvar_of_says hsame₁ hfile
      exact ⟨file, w₂, h₂⟩
  obtain ⟨hsame₂, hfile, hnofile⟩ := rspfile_ok hsame₁ h₂
  cases hspan : file.bind (rspspan cmd) with
  | none =>
    refine ⟨printjson false cmd, w₂, Fallible.bind_eq_ok.mpr ⟨_, h₁, ?_⟩⟩
    refine Fallible.bind_eq_ok.mpr ⟨_, h₂, ?_⟩
    dsimp only
    rw [hspan]
  | some span =>
    obtain ⟨start, stop⟩ := span
    obtain ⟨file, rfl, hrsp⟩ := Option.bind_eq_some_iff.mp hspan
    have hx : expandrsp = true := by
      by_contra hx
      cases hnofile (Bool.not_eq_true _ ▸ hx)
    obtain ⟨before, after, href, htake, hstop, hlate⟩ := rspspan_some hrsp
    obtain ⟨content, hcontent⟩ : ∃ content, w.Says e "rspfile_content" (some content) := by
      cases hcommand with
      | plain hcmd' hno =>
        obtain ⟨r, hr, hno⟩ := hno hx
        cases hcmd.unique hcmd'
        exact absurd href (hno file (hr.unique (hfile hx)) _ _)
      | expanded _ _ _ hcontent _ => exact ⟨_, hcontent⟩
    obtain ⟨w₃, h₃⟩ := getvar_of_says hsame₂ hcontent
    have hlen : ¬ cmd.length < stop := by
      rcases hspliced hx _ _ _ _ _ hcmd (hfile hx) hcontent href with
        ⟨⟨b, hb, hle⟩, -⟩ | ⟨-, hlen, -⟩
      · exact absurd hle (Nat.not_le_of_lt (hlate b hb))
      · omega
    refine ⟨printjson false (cmd.take start) ++ printjson true content ++
      printjson false (cmd.drop stop), w₃, Fallible.bind_eq_ok.mpr ⟨_, h₁, ?_⟩⟩
    refine Fallible.bind_eq_ok.mpr ⟨_, h₂, ?_⟩
    dsimp only
    rw [hspan]
    refine Fallible.bind_eq_ok.mpr ⟨_, h₃, ?_⟩
    dsimp only
    rw [if_neg hlen]

end

/-! ### The entries -/

section

variable {w w' w'' : World} {e : ℕ} {dir : Text} {expandrsp : Bool} {t : Text}

def fields (dir command file output : Text) : List (Text × Text) :=
  [("directory".toList, dir), ("command".toList, command), ("file".toList, file),
    ("output".toList, output)]

def entryText (fields : List (Text × Text)) : Text :=
  object "\n    ".toList "\n  ".toList fields

theorem entryText_fields (dir command file output : Text) :
    "\n  \x7b\n    \"directory\": \"".toList ++ escaped dir ++
      "\",\n    \"command\": \"".toList ++ escaped command ++
      "\",\n    \"file\": \"".toList ++ escaped file ++
      "\",\n    \"output\": \"".toList ++ escaped output ++ "\"\n  \x7d".toList =
    "\n  ".toList ++ entryText (fields dir command file output) := by
  simp only [entryText, fields, object, laidOut, memberText, List.map_cons, List.map_nil,
    List.append_assoc, List.cons_append]
  rfl

/-- The texts of an entry as they are printed, and when the command is one of them. -/
def Fields (w : World) (dir : Text) (expandrsp : Bool) (e : ℕ) (l : List (Text × Text)) : Prop :=
  ∃ c i o ins outs, (w.edge e).ins = i :: ins ∧ (w.edge e).outs = o :: outs ∧
    l = fields (cstr dir) c (w.pathof i) (w.pathof o) ∧
    (Legal c ∧ Command w e expandrsp c ↔ CommandPrintable w e expandrsp)

def Entry (w : World) (dir : Text) (expandrsp : Bool) (e : ℕ) (t : Text) : Prop :=
  ∃ l, Fields w dir expandrsp e l ∧ t = "\n  ".toList ++ entryText l

theorem jsonentry_ok (h : w.Same w') (hok : jsonentry dir expandrsp w' e = .ok (t, w'')) :
    w.Same w'' ∧ Entry w dir expandrsp e t := by
  obtain ⟨⟨command, w₁⟩, h₁, hok⟩ := Fallible.bind_eq_ok.mp hok
  obtain ⟨hsame, c, rfl, hc⟩ := jsoncommand_ok h h₁
  dsimp only at hok
  rw [hsame.edge] at hok
  split at hok
  case h_1 i ins o outs hins houts =>
    cases hok
    have hpath : ∀ n, w''.path n = w.path n := fun n => by rw [hsame.rest]; rfl
    refine ⟨hsame, _, ⟨c, i, o, ins, outs, hins, houts, rfl, hc⟩, ?_⟩
    rw [printjson_false, printjson_false, printjson_false, hpath, hpath]
    exact entryText_fields _ _ _ _
  case h_2 => cases hok

theorem jsonentry_of_printable (h : w.Same w') (hp : Printable w dir expandrsp e) :
    ∃ t w'', jsonentry dir expandrsp w' e = .ok (t, w'') := by
  obtain ⟨t, w₁, h₁⟩ := jsoncommand_of_printable h hp.command
  obtain ⟨i, ins, hins, -⟩ := hp.file
  obtain ⟨o, outs, houts, -⟩ := hp.output
  have hedge := (jsoncommand_ok h h₁).1.edge e
  rw [jsonentry, h₁]
  simp only [bind, Except.bind]
  rw [hedge, hins, houts]
  exact ⟨_, _, rfl⟩

theorem jsonentries_ok {es : List ℕ} {ts : List Text} (h : w.Same w')
    (hok : jsonentries dir expandrsp w' es = .ok ts) :
    List.Forall₂ (Entry w dir expandrsp) es ts := by
  induction es generalizing w' ts with
  | nil =>
    cases hok
    exact .nil
  | cons e es ih =>
    obtain ⟨⟨t, w₁⟩, h₁, hok⟩ := Fallible.bind_eq_ok.mp hok
    obtain ⟨hsame, hentry⟩ := jsonentry_ok h h₁
    obtain ⟨ts', hts', hok⟩ := Fallible.bind_eq_ok.mp hok
    cases hok
    exact .cons hentry (ih hsame hts')

theorem jsonentries_of_printable {es : List ℕ} (h : w.Same w')
    (hp : ∀ e ∈ es, Printable w dir expandrsp e) :
    ∃ ts, jsonentries dir expandrsp w' es = .ok ts := by
  induction es generalizing w' with
  | nil => exact ⟨[], rfl⟩
  | cons e es ih =>
    obtain ⟨t, w₁, h₁⟩ := jsonentry_of_printable h (hp e List.mem_cons_self)
    obtain ⟨ts, hts⟩ := ih (jsonentry_ok h h₁).1 fun e' he' => hp e' (List.mem_cons_of_mem _ he')
    exact ⟨t :: ts, Fallible.bind_eq_ok.mpr ⟨_, h₁, Fallible.bind_eq_ok.mpr ⟨ts, hts, rfl⟩⟩⟩

/-- What is printed is an array of the entries. -/
theorem compdb_array (ls : List (List (Text × Text))) :
    '[' :: List.intercalate [','] (ls.map fun l => "\n  ".toList ++ entryText l) ++ "\n]\n".toList =
      '[' :: (laidOut "\n  ".toList (ls.map entryText) ++ ("\n".toList ++ [']'])) ++ ['\n'] := by
  have hmap : (ls.map fun l => "\n  ".toList ++ entryText l) =
      (ls.map entryText).map ("\n  ".toList ++ ·) := (List.map_map ..).symm
  rw [hmap, intercalate_laidOut, List.cons_append, List.cons_append, List.append_assoc]
  rfl

open Classical in
/-- The array is read back if and only if all of the texts in it are legal. -/
theorem decode_array {ls : List (List (Text × Text))} (h : ∀ l ∈ ls, ∀ m ∈ l, Legal m.1) :
    decode ('[' :: List.intercalate [','] (ls.map fun l => "\n  ".toList ++ entryText l) ++
        "\n]\n".toList) =
      if ∀ l ∈ ls, ∀ m ∈ l, Legal m.2 then
        some (.arr (ls.map fun l => .obj (l.map fun m => (m.1, .str m.2)))) else none := by
  rw [compdb_array]
  generalize htext : '[' :: (laidOut "\n  ".toList (ls.map entryText) ++ ("\n".toList ++ [']'])) = t
  obtain ⟨fuel, hfuel⟩ : ∃ fuel, (t ++ ['\n']).length + 1 = fuel + 3 := by
    refine ⟨(t ++ ['\n']).length - 2, ?_⟩
    have hlen := congrArg List.length htext
    simp only [List.length_cons, List.length_append] at hlen ⊢
    have : "\n".toList.length = 1 := rfl
    simp only [List.length_nil]
    omega
  have hread : Json.Reads (value (fuel + 3))
      ('[' :: (laidOut "\n  ".toList (ls.map entryText) ++ ("\n".toList ++ [']'])))
      ((ls.mapM fun l => if ∀ m ∈ l, Legal m.2 then
        some (.obj (l.map fun m => (m.1, .str m.2))) else none).map .arr) :=
    reads_arr (by decide) (by decide) fun l hl => ⟨⟨'\x7b', _, rfl, rfl, by decide⟩,
      reads_object (by decide) (by decide) (h l hl)⟩
  rw [htext, mapM_ite] at hread
  have hsolid : Solid '\x7d' t := htext ▸ ⟨'[', _, rfl, rfl, by decide⟩
  rw [decode_of_reads hsolid (by decide) (hfuel ▸ hread)]
  split <;> rfl

/-- The keys of the fields. -/
theorem fields_keys {dir command file output : Text} :
    ∀ m ∈ fields dir command file output, Legal m.1 := by
  intro m hm
  simp only [fields, List.mem_cons, List.not_mem_nil, or_false] at hm
  rcases hm with rfl | rfl | rfl | rfl <;> exact legal_ascii rfl

theorem fields_legal {dir command file output : Text} :
    (∀ m ∈ fields dir command file output, Legal m.2) ↔
      Legal dir ∧ Legal command ∧ Legal file ∧ Legal output := by
  simp [fields]

/-- What is read back of an entry. -/
def entryValue (l : List (Text × Text)) : Json.Value := .obj (l.map fun m => (m.1, .str m.2))

theorem describes_iff {l : List (Text × Text)} (hl : Fields w dir expandrsp e l) :
    (∀ m ∈ l, Legal m.2) ∧ Describes w e dir expandrsp (entryValue l) ↔
      Printable w dir expandrsp e := by
  obtain ⟨c, i, o, ins, outs, hins, houts, rfl, hc⟩ := hl
  rw [fields_legal]
  constructor
  · rintro ⟨⟨hdir, hclean, hfile, houtput⟩, command, i', o', ins', outs', hcommand, -, -, heq⟩
    simp only [entryValue, fields, List.map_cons, List.map_nil, Json.Value.obj.injEq,
      List.cons.injEq, Prod.mk.injEq, Json.Value.str.injEq, true_and, and_true] at heq
    obtain ⟨hdir', rfl, -, -⟩ := heq
    exact ⟨hdir' ▸ hdir, ⟨i, ins, hins, hfile⟩, ⟨o, outs, houts, houtput⟩, hc.mp ⟨hclean, hcommand⟩⟩
  · rintro ⟨hdir, ⟨i', ins', hins', hfile⟩, ⟨o', outs', houts', houtput⟩, hcommand⟩
    obtain ⟨rfl, rfl⟩ := List.cons.inj (hins.symm.trans hins')
    obtain ⟨rfl, rfl⟩ := List.cons.inj (houts.symm.trans houts')
    obtain ⟨hclean, hcommand⟩ := hc.mpr hcommand
    rw [cstr_of_notMem (legal_nul hdir)]
    exact ⟨⟨hdir, hclean, hfile, houtput⟩, c, i, o, ins, outs, hcommand, hins, houts, rfl⟩

theorem entries_fields {es : List ℕ} {ts : List Text}
    (h : List.Forall₂ (Entry w dir expandrsp) es ts) :
    ∃ ls, List.Forall₂ (Fields w dir expandrsp) es ls ∧
      ts = ls.map fun l => "\n  ".toList ++ entryText l := by
  induction h with
  | nil => exact ⟨[], .nil, rfl⟩
  | cons ht _ ih =>
    obtain ⟨l, hl, rfl⟩ := ht
    obtain ⟨ls, hls, rfl⟩ := ih
    exact ⟨l :: ls, .cons hl hls, rfl⟩

theorem fields_keys_legal {es : List ℕ} {ls : List (List (Text × Text))}
    (h : List.Forall₂ (Fields w dir expandrsp) es ls) : ∀ l ∈ ls, ∀ m ∈ l, Legal m.1 := by
  intro l hl
  obtain ⟨e, -, c, i, o, ins, outs, -, -, rfl, -⟩ := Fuel.forall₂_mem_right h hl
  exact fields_keys

end

/-- `rule cc` with a command in which a tab stands, and `build o: cc i` -/
def tabWorld : World :=
  ⟨[⟨[], []⟩, ⟨[], []⟩],
    [⟨"phony".toList, []⟩, ⟨"cc".toList, [("command".toList, .str [⟨none, some "a\tb".toList⟩])]⟩],
    [], [⟨['o'], some 0, []⟩, ⟨['i'], none, [0]⟩], [⟨1, none, [1, 0], [0], [1], 1, 1, 1⟩], []⟩

end Bootsh.Samu.Manifest
