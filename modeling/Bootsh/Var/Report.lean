import Bootsh.Var.Return

/-!
What `lookupvar`, `listvars` and `showvars` report after any run of the variable
store, against the abstract store.
-/
namespace Bootsh

open VFlags Binding

/-! ### Reports -/

/-- The flags asked of `listvars` are attributes, and leave out the variables that
were never mentioned. -/
structure Mask (on off : VFlags) : Prop where
  onAttr : on = { exported := on.exported, readonly := on.readonly }
  offAttr : off = { exported := off.exported, readonly := off.readonly, unset := off.unset }
  some : on.exported ∨ on.readonly ∨ off.unset

namespace Entry

/-- `listvars` is to list the variable. -/
def Listed (on off : VFlags) (e : Entry) : Prop :=
  (on.exported → e.exported) ∧ (on.readonly → e.readonly) ∧
    (off.exported → e.exported → on.exported) ∧ (off.readonly → e.readonly → on.readonly) ∧
    (off.unset → e.value ≠ none)

/-- The text of the variable, in line `lineno`. -/
def text (lineno : ℤ) (name : Text) (e : Entry) : Text := varText (fmtInt lineno) name e.value

/-- What `showvars` prints for the variable. -/
def line (lineno : ℤ) (pre name : Text) (e : Entry) : Text :=
  pre ++ (if pre = [] then [] else [' ']) ++ name ++
    (match e.value with
      | none => []
      | some v => '=' :: singleQuote (v.render (fmtInt lineno))) ++ ['\n']

end Entry

/-- Every value that shows the buffer of `LINENO` is up to date. -/
def Vars.LinenoCurrent (st : Vars) : Prop :=
  ∀ name, (st.entry name).value = some .linenovar → st.linenovar = fmtInt st.lineno

/-- The store reports what the abstract store holds. -/
structure Reports (st : Vars) (sc : Scoped) : Prop where
  lookup : ∀ name,
    (lookupvar name st).1 = (sc.entry name).value.map (Val.render (fmtInt sc.lineno))
  once : (st.vartab.entries.map Prod.fst).Nodup
  list : st.LinenoCurrent → ∀ on off, Mask on off → ∃ names : List Text,
    names.Nodup ∧ (∀ name, name ∈ names ↔ (sc.entry name).Listed on off) ∧
    listvars on off st = names.map (fun name => (sc.entry name).text sc.lineno name) ∧
    ∀ pre, showvars pre on off st = (names.mergeSort fun n m => varcmp n m ≤ 0).flatMap
      fun name => (sc.entry name).line sc.lineno pre name

variable {st : Vars} {sc : Scoped} {name : Text} {vp : Var} {on off : VFlags}

theorem VarOk.value {value : Option Val} {flags : VFlags} (h : VarOk value flags) :
    (entryOf value flags).value = value := by
  cases value <;> simp [entryOf, h.unset]

theorem Val.render_current (h : st.LinenoCurrent) {v : Val} (hv : (st.entry name).value = some v) :
    v.render st.linenovar = v.render (fmtInt st.lineno) := by
  cases v with
  | text s => rfl
  | linenovar => exact h name hv

theorem Rel.lookup (h : Rel st sc) (name : Text) :
    (Bootsh.lookupvar name st).1 = (sc.entry name).value.map (Val.render (fmtInt sc.lineno)) := by
  rw [← h.entry, ← h.lineno]
  unfold Bootsh.lookupvar
  cases hfind : st.findvar name with
  | none =>
    rw [Vars.entry_none hfind]
    rfl
  | some vp =>
    rw [Vars.entry_some hfind, Var.entry, entryOf]
    dsimp only
    cases hunset : vp.flags.unset with
    | true => simp
    | false =>
      simp only [Bool.false_eq_true, if_false]
      cases hvalue : vp.value with
      | none => rfl
      | some v =>
        cases v with
        | text s => rfl
        | linenovar => simp [Val.render]

theorem maskBit : ∀ v a b : Bool, (v && (a || b)) = a ↔ (a → v) ∧ (b → v → a) := by decide

theorem listed_iff (hmask : Mask on off) (hok : VarOk vp.value vp.flags) :
    (vp.flags &&& (on ||| off) == on) = true ↔ vp.entry.Listed on off := by
  have hvalue : vp.entry.value ≠ none ↔ vp.flags.unset = false := by
    rw [Var.entry, hok.value, hok.unset, Option.isNone_eq_false_iff, Option.isSome_iff_ne_none]
  rw [hmask.onAttr, hmask.offAttr, beq_iff_eq, VFlags.ext_iff]
  unfold Entry.Listed
  rw [hvalue]
  simp only [or_def, and_def, or_exported, and_exported, or_readonly, and_readonly, or_unset, and_unset,
    or_strfixed, and_strfixed, or_textfixed, and_textfixed, or_stack, and_stack, or_nofunc, and_nofunc,
    or_nosave, and_nosave, maskBit, Var.entry, entryOf]
  simp only [Bool.false_eq_true, false_imp_iff, and_true, true_and, imp_false, Bool.not_eq_true]
  tauto

theorem Entry.not_listed_absent (hmask : Mask on off) : ¬ Entry.absent.Listed on off := by
  rintro ⟨he, hr, -, -, hu⟩
  rcases hmask.some with h | h | h
  · simpa using he h
  · simpa using hr h
  · exact hu h rfl

/-! ### Texts -/

theorem takeWhile_append_eq {n : Text} (h : ∀ c ∈ n, c ≠ '=') (rest : Text) :
    (n ++ '=' :: rest).takeWhile (· ≠ '=') = n := by
  rw [List.takeWhile_append_of_pos fun c hc => decide_eq_true (h c hc)]
  simp

theorem dropWhile_append_eq {n : Text} (h : ∀ c ∈ n, c ≠ '=') (rest : Text) :
    (n ++ '=' :: rest).dropWhile (· ≠ '=') = '=' :: rest := by
  rw [List.dropWhile_append_of_pos fun c hc => decide_eq_true (h c hc)]
  simp

/-- `showvars` takes a text apart again. -/
theorem showvar_text {e : Entry} {lineno : ℤ} (hgood : isGoodName name) (pre : Text) :
    showvar pre (e.text lineno name) = e.line lineno pre name := by
  have hne := Vars.ne_eq_of_good hgood
  unfold showvar Entry.line Entry.text varText
  cases e.value with
  | none =>
    have hvalue : varValue name = none := by
      have hdrop : name.dropWhile (· ≠ '=') = [] :=
        List.dropWhile_eq_nil_iff.2 fun c hc => decide_eq_true (hne c hc)
      rw [varValue, hdrop]
      rfl
    dsimp only
    rw [Vars.varName_of_good hgood, hvalue]
  | some v =>
    dsimp only
    rw [varName, varValue, takeWhile_append_eq hne, dropWhile_append_eq hne]
    rfl

theorem Entry.text_eq (lineno : ℤ) (e : Entry) : e.text lineno name =
    name ++ ((e.value.map (Val.render (fmtInt lineno))).map ('=' :: ·)).getD [] := by
  unfold text varText
  cases e.value <;> simp

theorem varcmp_text {n m : Text} (hn : ∀ c ∈ n, c ≠ '=') (hm : ∀ c ∈ m, c ≠ '=') (v w : Option Text) :
    varcmp (n ++ (v.map ('=' :: ·)).getD []) (m ++ (w.map ('=' :: ·)).getD []) = varcmp n m := by
  induction n generalizing m with
  | nil =>
    cases m with
    | nil => cases v <;> cases w <;> simp [varcmp, varcmpEnd]
    | cons d m =>
      have hd := hm d (by simp)
      cases v <;> cases w <;> simp [varcmp, varcmpEnd, hd, hd.symm]
  | cons c n ih =>
    have hc := hn c (by simp)
    cases m with
    | nil => cases v <;> cases w <;> simp [varcmp, varcmpEnd, hc]
    | cons d m =>
      have hd := hm d (by simp)
      have ih := @ih m (fun c h => hn c (by simp [h])) fun c h => hm c (by simp [h])
      by_cases hcd : c = d
      · subst hcd
        simp [varcmp, hc, ih]
      · simp [varcmp, hcd, varcmpEnd, hc, hd]

theorem Rel.list (h : Rel st sc) (hline : st.LinenoCurrent) (hmask : Mask on off) :
    ∃ names : List Text,
      names.Nodup ∧ (∀ name, name ∈ names ↔ (sc.entry name).Listed on off) ∧
      listvars on off st = names.map (fun name => (sc.entry name).text sc.lineno name) ∧
      ∀ pre, showvars pre on off st = (names.mergeSort fun n m => varcmp n m ≤ 0).flatMap
        fun name => (sc.entry name).line sc.lineno pre name := by
  generalize hl : (st.vartab.entries.filter fun p => p.2.flags &&& (on ||| off) == on) = l
  have hentry : ∀ p ∈ l, isGoodName p.1 ∧ (sc.entry p.1).value = p.2.value := by
    rintro ⟨name, vp⟩ hp
    rw [← hl] at hp
    have hfind := HashTable.mem_entries.1 (List.mem_of_mem_filter hp)
    obtain ⟨hgood, hok⟩ := h.inv.var hfind
    rw [← h.entry, Vars.entry_some hfind]
    exact ⟨hgood, hok.value⟩
  have hlist : listvars on off st =
      (l.map Prod.fst).map fun name => (sc.entry name).text sc.lineno name := by
    rw [listvars, hl, List.map_map]
    apply List.map_congr_left
    rintro ⟨name, vp⟩ hp
    have hvalue := (hentry _ hp).2
    rw [Function.comp_apply, Entry.text, hvalue, ← h.lineno]
    cases hv : vp.value with
    | none => rfl
    | some v =>
      have hcur := @Val.render_current _ name hline v ((congrArg _ (h.entry name)).trans (hvalue.trans hv))
      rw [varText, varText, hcur]
  refine ⟨l.map Prod.fst, ?_, ?_, hlist, ?_⟩
  · rw [← hl]
    exact st.vartab.nodup_entries.sublist (List.filter_sublist.map _)
  · intro name
    rw [← hl, ← h.entry]
    constructor
    · intro hmem
      obtain ⟨⟨_, vp⟩, hp, rfl⟩ := List.mem_map.1 hmem
      obtain ⟨hmem, hflags⟩ := List.mem_filter.1 hp
      have hfind := HashTable.mem_entries.1 hmem
      rw [Vars.entry_some hfind]
      exact (listed_iff hmask (h.inv.var hfind).2).1 hflags
    · intro hlisted
      cases hfind : st.findvar name with
      | none =>
        rw [Vars.entry_none hfind] at hlisted
        exact absurd hlisted (Entry.not_listed_absent hmask)
      | some vp =>
        rw [Vars.entry_some hfind] at hlisted
        exact List.mem_map.2 ⟨(name, vp), List.mem_filter.2 ⟨HashTable.mem_entries.2 hfind,
          (listed_iff hmask (h.inv.var hfind).2).2 hlisted⟩, rfl⟩
  · intro pre
    have hgood : ∀ name ∈ l.map Prod.fst, isGoodName name := by
      intro name hname
      obtain ⟨p, hp, rfl⟩ := List.mem_map.1 hname
      exact (hentry p hp).1
    have hsort := @List.map_mergeSort _ _ (fun n m => varcmp n m ≤ 0) (fun s t => varcmp s t ≤ 0)
      (fun name => (sc.entry name).text sc.lineno name) (l.map Prod.fst) (by
        intro n hn m hm
        rw [Entry.text_eq, Entry.text_eq,
          varcmp_text (Vars.ne_eq_of_good (hgood n hn)) (Vars.ne_eq_of_good (hgood m hm))])
    rw [showvars, hlist, ← hsort, List.flatMap_map]
    apply List.flatMap_congr
    intro name hname
    exact showvar_text (hgood name (List.mem_mergeSort.1 hname)) pre

end Bootsh
