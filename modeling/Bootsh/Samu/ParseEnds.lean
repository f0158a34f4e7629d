import Mathlib.Data.Fintype.Card
import Mathlib.Data.Fintype.EquivFin
import Mathlib.Logic.Relation
import Bootsh.Lib.Fallible
import Bootsh.Samu.Parse
import Bootsh.Samu.ScanString

/-!
The runs of `parse` end, unless a comment has no newline behind it.
-/
namespace Bootsh.Samu.Manifest

open Fallible (Yields)

/-! ### What is left of the text -/

theorem name_yields (s : Text) : Yields (fun r => r.2.length < s.length) (name s) := by
  unfold name
  split
  · exact .error
  case isFalse hne =>
    refine Yields.bind (P := fun r => r.2.length ≤ (s.dropWhile isvar).length)
      (fun r hr => space_length hr) fun r hr => .ok (hr.trans_lt ?_)
    have hlen := congrArg List.length (s.takeWhile_append_dropWhile (p := isvar))
    rw [List.length_append] at hlen
    have := List.length_pos_iff.mpr hne
    omega

theorem scanstring_yields (path : Bool) (s : Text) :
    Yields (fun r => r.2.length ≤ s.length) (scanstring path s) :=
  fun _ hr => (scanstring_length hr).1

theorem scanpaths_yields (s : Text) : Yields (fun r => r.2.length ≤ s.length) (scanpaths s) := by
  induction s using scanpaths.induct with
  | case1 s e hs =>
    rw [scanpaths]
    split <;> simp_all [Yields]
  | case2 s t hs =>
    rw [scanpaths]
    split
    · exact .error
    · rename_i heq
      rw [hs] at heq
      cases heq
      exact .ok (scanstring_length hs).1
    · rename_i heq
      rw [hs] at heq
      cases heq
  | case3 s p str t hs ih =>
    rw [scanpaths]
    split
    · exact .error
    · rename_i heq
      rw [hs] at heq
      cases heq
    · rename_i heq
      rw [hs] at heq
      cases heq
      intro r hr
      cases hp : scanpaths t with
      | error e =>
        rw [hp] at hr
        cases hr
      | ok o =>
        rw [hp] at hr
        cases hr
        exact (ih o hp).trans (scanstring_length hs).1

theorem scanchar_yields (c : Char) (s : Text) :
    Yields (fun t => t.length ≤ s.length) (scanchar c s) := by
  unfold scanchar
  split
  · refine Yields.bind (P := fun r => r.2.length ≤ s.tail.length)
      (fun r hr => space_length hr) fun r hr => .ok (hr.trans ?_)
    rw [List.length_tail]
    omega
  · exact .error

theorem scanpipe_yields (n : ℕ) (s : Text) :
    Yields (fun r => r.2.length ≤ s.length) (scanpipe n s) := by
  have hspace : ∀ (k : ℕ) (t : Text), t.length ≤ s.length →
      Yields (fun r => r.2.length ≤ s.length)
        (space t >>= fun r => .ok (k, r.2) : Except String (ℕ × Text)) := by
    intro k t ht
    exact Yields.bind (P := fun r => r.2.length ≤ t.length)
      (fun r hr => space_length hr) fun r hr => .ok (hr.trans ht)
  unfold scanpipe
  split
  · split
    · exact .error
    · exact hspace 2 _ (by simp only [List.length_cons]; omega)
  · split
    · exact .error
    · exact hspace 1 _ (by simp)
  · exact .ok le_rfl

theorem newline_yields (s : Text) :
    Yields (fun o => ∀ t, o = some t → t.length < s.length) (newline s) := by
  rintro o ho t rfl
  exact newline_length ho

theorem scannewline_yields (s : Text) :
    Yields (fun t => t.length ≤ s.length) (scannewline s) := by
  refine (newline_yields s).bind fun o ho => ?_
  cases o with
  | none => exact .error
  | some t => exact .ok (ho t rfl).le

theorem optpaths_yields (found : Bool) (s : Text) :
    Yields (fun r => r.2.length ≤ s.length) (optpaths found s) := by
  unfold optpaths
  split
  · exact scanpaths_yields s
  · exact .ok le_rfl

theorem implicitpaths_yields (p : ℕ) (s : Text) :
    Yields (fun r => r.2.2.length ≤ s.length) (implicitpaths p s) := by
  unfold implicitpaths
  split
  · exact (scanpaths_yields s).bind fun _ h => (scanpipe_yields 2 _).bind fun _ h' =>
      .ok (h'.trans h)
  · exact .ok le_rfl

theorem parselet_yields (s : Text) : Yields (fun r => r.2.length ≤ s.length) (parselet s) :=
  (scanchar_yields '=' s).bind fun _ h₁ => (scanstring_yields false _).bind fun _ h₂ =>
    (scannewline_yields _).bind fun _ h₃ => .ok (h₃.trans (h₂.trans h₁))

/-! ### Statements -/

section

variable {ι : Type} {files : Files ι} {f : Frame ι} {w : World} {s : Text} {n : ℕ}

/-- What a statement leads to when `n` bytes are left where it begins. -/
def Behind (files : Files ι) (f : Frame ι) (n : ℕ) : Turn ι → Prop
  | .on g _ => g.file = f.file ∧ g.comment = f.comment ∧ g.rest.length ≤ n
  | .back _ => False
  | .into g h _ => g.file = f.file ∧ g.comment = f.comment ∧ g.rest.length ≤ n ∧
      ∃ path, files.fopen path = some h.file

theorem parserule_yields (hs : s.length ≤ n) :
    Yields (Behind files f n) (parserule f w s) :=
  (name_yields s).mapError.bind fun _ h₁ => (scannewline_yields _).mapError.bind fun _ h₂ =>
    .ok ⟨rfl, rfl, h₂.trans (h₁.le.trans hs)⟩

theorem rulelet_yields {r : Rule} {c p q : Bool} :
    Yields (fun t => ∃ k < s.length, Behind files f k t) (rulelet f w s r c p q) :=
  (name_yields s).mapError.bind fun _ h₁ => (parselet_yields _).mapError.bind fun _ h₂ =>
    .ok ⟨_, h₁, rfl, rfl, h₂⟩

theorem edgelet_yields {e : ℕ} :
    Yields (fun t => ∃ k < s.length, Behind files f k t) (edgelet f w s e) :=
  (name_yields s).mapError.bind fun _ h₁ => (parselet_yields _).mapError.bind fun _ h₂ =>
    .ok ⟨_, h₁, rfl, rfl, h₂⟩

theorem poollet_yields {p : ℕ} :
    Yields (fun t => ∃ k < s.length, Behind files f k t) (poollet f w s p) := by
  refine (name_yields s).mapError.bind fun r₁ h₁ => (parselet_yields _).mapError.bind fun r₂ h₂ => ?_
  dsimp only
  split
  · split
    · exact .ok ⟨_, h₁, rfl, rfl, h₂⟩
    · exact .error
  · exact .error

theorem parseinclude_yields {newscope : Bool} (hs : s.length ≤ n) :
    Yields (Behind files f n) (parseinclude f w s files newscope) := by
  refine (scanstring_yields true s).mapError.bind fun r₁ h₁ => ?_
  dsimp only
  split
  · exact .error
  refine (scannewline_yields _).mapError.bind fun r₂ h₂ => ?_
  split
  · exact .error
  · rename_i file hfile
    exact .ok ⟨rfl, rfl, h₂.trans (h₁.trans hs), _, hfile⟩

theorem parsedefault_yields (hs : s.length ≤ n) :
    Yields (Behind files f n) (parsedefault f w s) :=
  (scanpaths_yields s).mapError.bind fun _ h₁ =>
    Yields.bind (P := fun _ => True) (fun _ _ => trivial) fun _ _ =>
      (scannewline_yields _).mapError.bind fun _ h₂ => .ok ⟨rfl, rfl, h₂.trans (h₁.trans hs)⟩

theorem parsepool_yields (hs : s.length ≤ n) :
    Yields (Behind files f n) (parsepool f w s) :=
  (name_yields s).mapError.bind fun _ h₁ =>
    Yields.bind (P := fun _ => True) (fun _ _ => trivial) fun _ _ =>
      (scannewline_yields _).mapError.bind fun _ h₂ => .ok ⟨rfl, rfl, h₂.trans (h₁.le.trans hs)⟩

theorem parsevariable_yields {var : Text} (hs : s.length ≤ n) :
    Yields (Behind files f n) (parsevariable f w s var) := by
  refine (parselet_yields s).mapError.bind fun r₁ h₁ => ?_
  exact Yields.bind (P := fun _ => True) (fun _ _ => trivial) fun _ _ =>
    .ok ⟨rfl, rfl, h₁.trans hs⟩

theorem parseedge_yields (hs : s.length ≤ n) :
    Yields (Behind files f n) (parseedge f w s) := by
  refine (scanpaths_yields s).mapError.bind fun r₁ h₁ => ?_
  refine (scanpipe_yields 1 r₁.2).mapError.bind fun r₂ h₂ => ?_
  dsimp only at h₂ ⊢
  refine (optpaths_yields _ r₂.2).mapError.bind fun r₃ h₃ => ?_
  split
  · exact .error
  refine (scanchar_yields ':' r₃.2).mapError.bind fun r₄ h₄ => ?_
  refine (name_yields r₄).mapError.bind fun r₅ h₅ => ?_
  split
  · exact .error
  refine (scanpaths_yields r₅.2).mapError.bind fun r₆ h₆ => ?_
  refine (scanpipe_yields 3 r₆.2).mapError.bind fun r₇ h₇ => ?_
  refine (implicitpaths_yields r₇.1 r₇.2).mapError.bind fun r₈ h₈ => ?_
  refine (optpaths_yields _ r₈.2.2).mapError.bind fun r₉ h₉ => ?_
  refine (scannewline_yields r₉.2).mapError.bind fun r₁₀ h₁₀ => .ok ⟨rfl, rfl, ?_⟩
  dsimp only
  omega

theorem statement_yields {keyword : Text} (hs : s.length ≤ n) :
    Yields (Behind files f n) (statement f w s files keyword) := by
  unfold statement
  split
  · exact parseedge_yields hs
  split
  · exact parsedefault_yields hs
  split
  · exact parseinclude_yields hs
  split
  · exact parsepool_yields hs
  split
  · exact parserule_yields hs
  split
  · exact parseinclude_yields hs
  · exact parsevariable_yields hs

/-! ### Turns -/

/-- How much is left to do in a file: first what is left of its text, and then whether a turn can
go on where it is. -/
def Frame.weight (f : Frame ι) : ℕ :=
  3 * f.rest.length + if f.comment then 0 else match f.mode with
    | .keyword => 1
    | _ => 2

/-- A turn that comes closer to the end of the file. -/
def Advances (files : Files ι) (f : Frame ι) : Turn ι → Prop
  | .on g _ => g.file = f.file ∧ g.weight < f.weight
  | .back _ => f.rest = []
  | .into g h _ => g.file = f.file ∧ g.weight < f.weight ∧ ∃ path, files.fopen path = some h.file

theorem Frame.weight_le (f : Frame ι) : f.weight ≤ 3 * f.rest.length + 2 := by
  unfold weight
  split
  · omega
  · split <;> omega

theorem Frame.le_weight (f : Frame ι) : 3 * f.rest.length ≤ f.weight := by
  unfold weight
  omega

theorem Behind.advances {t : Turn ι} (h : Behind files f n t) (hn : n < f.rest.length) :
    Advances files f t := by
  have hf := f.le_weight
  cases t with
  | on g w =>
    have hg := g.weight_le
    obtain ⟨hfile, -, hlen⟩ := h
    exact ⟨hfile, by omega⟩
  | back w => exact h.elim
  | into g h' w =>
    have hg := g.weight_le
    obtain ⟨hfile, -, hlen, hopen⟩ := h
    exact ⟨hfile, by omega, hopen⟩

/-- The end of a block. -/
def Closes (f : Frame ι) (s : Text) (t : Turn ι) : Prop :=
  ∃ w, t = .on { f with rest := s, mode := .keyword } w

theorem ruleend_yields {r : Rule} {c p q : Bool} :
    Yields (Closes f s) (ruleend f w s r c p q) := by
  unfold ruleend
  split
  · exact .error
  split
  · exact .error
  split
  · exact .error
  · exact .ok ⟨_, rfl⟩

theorem edgeend_yields {dupbuildwarn : Bool} {e : ℕ} {outs ins : List EvalString} :
    Yields (Closes f s) (edgeend f w s dupbuildwarn e outs ins) := by
  refine Yields.bind (P := fun _ => True) (fun _ _ => trivial) fun w₁ _ => ?_
  refine Yields.bind (P := fun _ => True) (fun _ _ => trivial) fun w₂ _ => ?_
  refine Yields.bind (P := fun _ => True) (fun _ _ => trivial) fun r _ => ?_
  dsimp only
  split
  · exact .ok ⟨_, rfl⟩
  · exact Yields.bind (P := fun _ => True) (fun _ _ => trivial) fun _ _ => .ok ⟨_, rfl⟩

theorem poolend_yields {p : ℕ} : Yields (Closes f s) (poolend f w s p) := by
  unfold poolend
  dsimp only
  split
  · exact .error
  · exact .ok ⟨_, rfl⟩

theorem space_yields (s : Text) : Yields (fun r => r.2.length ≤ s.length) (space s) :=
  fun _ hr => space_length hr

theorem keywordturn_yields (hmode : f.mode = .keyword) (hcomment : f.comment = false) :
    Yields (Advances files f) (keywordturn files f w) := by
  have hweight : f.weight = 3 * f.rest.length + 1 := by simp [Frame.weight, hmode, hcomment]
  -- a comment begins with `t`, which is what is left
  have hbegins : ∀ t : Text, t.length ≤ f.rest.length →
      Advances files f (.on { f with rest := t, comment := true } w) := by
    intro t ht
    refine ⟨rfl, ?_⟩
    rw [hweight]
    simp only [Frame.weight, if_true]
    omega
  -- `t` stands behind a newline
  have hnewline : ∀ t : Text, t.length < f.rest.length →
      Advances files f (.on { f with rest := t } w) := by
    intro t ht
    refine ⟨rfl, ?_⟩
    rw [hweight]
    simp only [Frame.weight, hmode, hcomment, Bool.false_eq_true, if_false]
    omega
  unfold keywordturn
  split
  · rename_i hrest
    exact .ok hrest
  · rename_i s hrest
    refine (space_yields _).mapError.bind fun r₁ h₁ => ?_
    rw [← hrest] at h₁
    dsimp only
    split
    · exact .ok (hbegins _ h₁)
    · refine (newline_yields _).mapError.bind fun r₂ h₂ => ?_
      split
      · exact .ok (hnewline _ ((h₂ _ rfl).trans_le h₁))
      · exact .error
  · rename_i s hrest
    exact .ok (hbegins _ (by rw [hrest]))
  · refine (newline_yields _).mapError.bind fun r₁ h₁ => ?_
    split
    · exact .ok (hnewline _ (h₁ _ rfl))
    · refine (name_yields _).mapError.bind fun r₂ h₂ => ?_
      exact (statement_yields le_rfl).mono fun t ht => ht.advances h₂

theorem indentturn_yields {line last : Text → Except Stop (Turn ι)}
    (hmode : f.mode ≠ .keyword) (hcomment : f.comment = false)
    (hline : ∀ s, Yields (fun t => ∃ k < s.length, Behind files f k t) (line s))
    (hlast : ∀ s, Yields (Closes f s) (last s)) :
    Yields (Advances files f) (indentturn f w line last) := by
  have hweight : f.weight = 3 * f.rest.length + 2 := by
    simp only [Frame.weight, hcomment]
    split
    · contradiction
    · rfl
  have hcloses : ∀ (s : Text) (t : Turn ι), s.length ≤ f.rest.length → Closes f s t →
      Advances files f t := by
    rintro s t hs ⟨w', rfl⟩
    refine ⟨rfl, ?_⟩
    rw [hweight]
    simp only [Frame.weight, hcomment, Bool.false_eq_true, if_false]
    omega
  refine (space_yields _).mapError.bind fun r₁ h₁ => ?_
  dsimp only
  split
  · refine .ok ⟨rfl, ?_⟩
    rw [hweight]
    simp only [Frame.weight, if_true]
    omega
  · split
    · refine (newline_yields _).mapError.bind fun r₂ h₂ => ?_
      split
      · exact (hlast _).mono fun t ht => hcloses _ t ((h₂ _ rfl).le.trans h₁) ht
      · refine (hline _).mono fun t ht => ?_
        obtain ⟨k, hk, hbehind⟩ := ht
        exact hbehind.advances (hk.trans_le h₁)
    · exact (hlast _).mono fun t ht => hcloses _ t h₁ ht

theorem turn_yields {dupbuildwarn : Bool} (hcomment : f.comment = false) :
    Yields (Advances files f) (turn files dupbuildwarn f w) := by
  unfold turn
  split
  · rename_i hmode
    exact keywordturn_yields hmode hcomment
  · rename_i hmode
    exact indentturn_yields (by simp [hmode]) hcomment (fun _ => rulelet_yields)
      fun _ => ruleend_yields
  · rename_i hmode
    exact indentturn_yields (by simp [hmode]) hcomment (fun _ => edgelet_yields)
      fun _ => edgeend_yields
  · rename_i hmode
    exact indentturn_yields (by simp [hmode]) hcomment (fun _ => poollet_yields)
      fun _ => poolend_yields

end

/-! ### Runs -/

section

variable {ι : Type} (files : Files ι) (dupbuildwarn : Bool)

def Steps (cfg cfg' : Config ι) : Prop := step files dupbuildwarn cfg = .run cfg'

/-- The states that a run goes through. -/
def Reaches : Config ι → Config ι → Prop := Relation.ReflTransGen (Steps files dupbuildwarn)

/-- `parse` has returned, or an error has been reported. -/
def Ended : Status ι → Prop
  | .run _ => False
  | .done _ | .stop _ => True

def Halts (cfg : Config ι) : Prop :=
  ∃ cfg', Reaches files dupbuildwarn cfg cfg' ∧ Ended (step files dupbuildwarn cfg')

/-- One file includes another in a run. -/
def Includes (cfg : Config ι) (a b : ι) : Prop :=
  ∃ g f fs w, Reaches files dupbuildwarn cfg ⟨g :: f :: fs, w⟩ ∧ f.file = a ∧ g.file = b

/-- The scanner is in a comment, and no end of a line comes any more. -/
def OpenComment (cfg : Config ι) : Prop :=
  ∃ f fs, cfg.stack = f :: fs ∧ f.comment = true ∧ '\r' ∉ f.rest.tail ∧ '\n' ∉ f.rest.tail

variable {files dupbuildwarn} {cfg cfg' : Config ι}

/-- The loop of `comment` goes on for ever at the end of the file. -/
theorem OpenComment.step (files : Files ι) (dupbuildwarn : Bool) (h : OpenComment cfg) :
    ∃ cfg', Manifest.step files dupbuildwarn cfg = .run cfg' ∧ OpenComment cfg' := by
  obtain ⟨f, fs, hstack, hcomment, hcr, hlf⟩ := h
  have hnone : newline f.rest.tail = .ok none := by
    refine newline_none.mpr ?_
    rintro (hhead | hhead)
    · exact hcr (List.mem_of_mem_head? hhead)
    · exact hlf (List.mem_of_mem_head? hhead)
  refine ⟨⟨{ f with rest := f.rest.tail } :: fs, cfg.world⟩, ?_, _, fs, rfl, hcomment, ?_, ?_⟩
  · unfold Manifest.step commentturn
    rw [hstack]
    simp only [hcomment, if_true, hnone, scan, Except.mapError, bind, Except.bind, pure, Except.pure]
  · exact fun hmem => hcr (List.mem_of_mem_tail hmem)
  · exact fun hmem => hlf (List.mem_of_mem_tail hmem)

theorem OpenComment.reaches (h : OpenComment cfg) (hreach : Reaches files dupbuildwarn cfg cfg') :
    OpenComment cfg' := by
  induction hreach with
  | refl => exact h
  | tail _ hstep ih =>
    obtain ⟨cfg₁, hrun, hopen⟩ := ih.step files dupbuildwarn
    rw [hstep] at hrun
    cases hrun
    exact hopen

theorem steps_unique : Relator.RightUnique (Steps files dupbuildwarn) := by
  intro a b c hb hc
  exact Status.run.inj (hb.symm.trans hc)

theorem OpenComment.not_halts (h : OpenComment cfg') (hreach : Reaches files dupbuildwarn cfg cfg') :
    ¬ Halts files dupbuildwarn cfg := by
  rintro ⟨last, hlast, hends⟩
  have hopen : OpenComment last := by
    rcases Relation.ReflTransGen.total_of_right_unique steps_unique hreach hlast with hle | hle
    · exact h.reaches hle
    · rcases Relation.ReflTransGen.cases_head hle with rfl | ⟨next, hnext, -⟩
      · exact h
      · unfold Steps at hnext
        rw [hnext] at hends
        exact hends.elim
  obtain ⟨next, hnext, -⟩ := hopen.step files dupbuildwarn
  rw [hnext] at hends
  exact hends

/-- What a turn does with the frame on top, if it is not in an open comment. -/
theorem step_cases (files : Files ι) (dupbuildwarn : Bool) {f : Frame ι} {fs : List (Frame ι)}
    {w : World} (hopen : ¬ OpenComment ⟨f :: fs, w⟩) :
    Ended (step files dupbuildwarn ⟨f :: fs, w⟩) ∨
    (∃ w', Steps files dupbuildwarn ⟨f :: fs, w⟩ ⟨fs, w'⟩) ∨
    (∃ g w', Steps files dupbuildwarn ⟨f :: fs, w⟩ ⟨g :: fs, w'⟩ ∧ g.file = f.file ∧
      g.weight < f.weight) ∨
    ∃ g h w', Steps files dupbuildwarn ⟨f :: fs, w⟩ ⟨h :: g :: fs, w'⟩ ∧ g.file = f.file ∧
      g.weight < f.weight ∧ ∃ path, files.fopen path = some h.file := by
  have hturn : Yields (Advances files f)
      (if f.comment then commentturn f w else turn files dupbuildwarn f w) := by
    split
    case isFalse hcomment => exact turn_yields (by simpa using hcomment)
    case isTrue hcomment =>
      have hne : ∃ c, f.rest.tail = c :: f.rest.tail.tail := by
        cases htail : f.rest.tail with
        | nil => exact absurd ⟨f, fs, rfl, hcomment, by simp [htail], by simp [htail]⟩ hopen
        | cons c t => exact ⟨c, rfl⟩
      obtain ⟨c, hc⟩ := hne
      have hlen : f.rest.tail.length + 1 = f.rest.length := by
        cases hrest : f.rest with
        | nil => simp [hrest] at hc
        | cons d t => simp
      have hweight : f.weight = 3 * f.rest.length := by simp [Frame.weight, hcomment]
      refine (newline_yields _).mapError.bind fun r hr => ?_
      split
      · rename_i s
        have hs := hr s rfl
        refine .ok ⟨rfl, ?_⟩
        have := Frame.weight_le { f with rest := s, comment := false }
        dsimp only at this
        omega
      · refine .ok ⟨rfl, ?_⟩
        rw [hweight]
        simp only [Frame.weight, hcomment, if_true]
        omega
  unfold Steps step
  dsimp only
  cases hresult : if f.comment then commentturn f w else turn files dupbuildwarn f w with
  | error e => exact .inl trivial
  | ok t =>
    have ht := hturn t hresult
    cases t with
    | back w' => exact .inr (.inl ⟨w', rfl⟩)
    | on g w' => exact .inr (.inr (.inl ⟨g, w', rfl, ht.1, ht.2⟩))
    | into g h w' => exact .inr (.inr (.inr ⟨g, h, w', rfl, ht.1, ht.2.1, ht.2.2⟩))

/-- A frame is done with at some time, if files do not include themselves. -/
theorem frame_done {cfg₀ : Config ι}
    (hwf : WellFounded fun b a => Includes files dupbuildwarn cfg₀ a b)
    (hno : ∀ cfg, Reaches files dupbuildwarn cfg₀ cfg → ¬ OpenComment cfg) (f : Frame ι)
    (fs : List (Frame ι)) (w : World) (hreach : Reaches files dupbuildwarn cfg₀ ⟨f :: fs, w⟩) :
    Halts files dupbuildwarn ⟨f :: fs, w⟩ ∨
      ∃ w', Reaches files dupbuildwarn ⟨f :: fs, w⟩ ⟨fs, w'⟩ := by
  generalize ha : f.file = a
  -- on the files that are included, and then on what is left to do in the file
  induction a using hwf.induction generalizing f fs w with
  | _ a ihfile =>
    generalize hn : f.weight = n
    induction n using Nat.strong_induction_on generalizing f w with
    | _ n ih =>
      rcases step_cases files dupbuildwarn (hno _ hreach) with
        hends | ⟨w', hstep⟩ | ⟨g, w', hstep, hfile, hlt⟩ | ⟨g, h, w', hstep, hfile, hlt, -⟩
      · exact .inl ⟨_, .refl, hends⟩
      · exact .inr ⟨w', .single hstep⟩
      · rcases ih g.weight (hn ▸ hlt) g w' (hreach.tail hstep) (hfile.trans ha) rfl with
          ⟨last, hlast, hends⟩ | ⟨w'', hback⟩
        · exact .inl ⟨last, .head hstep hlast, hends⟩
        · exact .inr ⟨w'', .head hstep hback⟩
      · have hinto := hreach.tail hstep
        have hincludes : Includes files dupbuildwarn cfg₀ a h.file :=
          ⟨h, g, fs, w', hinto, hfile.trans ha, rfl⟩
        rcases ihfile h.file hincludes h (g :: fs) w' hinto rfl with
          ⟨last, hlast, hends⟩ | ⟨w'', hback⟩
        · exact .inl ⟨last, .head hstep hlast, hends⟩
        rcases ih g.weight (hn ▸ hlt) g w'' (hinto.trans hback) (hfile.trans ha) rfl with
          ⟨last, hlast, hends⟩ | ⟨w₃, hback'⟩
        · exact .inl ⟨last, .head hstep (hback.trans hlast), hends⟩
        · exact .inr ⟨w₃, .head hstep (hback.trans hback')⟩

theorem halts_of_closed {cfg₀ : Config ι}
    (hwf : WellFounded fun b a => Includes files dupbuildwarn cfg₀ a b)
    (hno : ∀ cfg, Reaches files dupbuildwarn cfg₀ cfg → ¬ OpenComment cfg) (fs : List (Frame ι))
    (w : World) (hreach : Reaches files dupbuildwarn cfg₀ ⟨fs, w⟩) :
    Halts files dupbuildwarn ⟨fs, w⟩ := by
  induction fs generalizing w with
  | nil => exact ⟨_, .refl, trivial⟩
  | cons f fs ih =>
    rcases frame_done hwf hno f fs w hreach with hhalts | ⟨w', hback⟩
    · exact hhalts
    · obtain ⟨last, hlast, hends⟩ := ih w' (hreach.trans hback)
      exact ⟨last, hback.trans hlast, hends⟩

/-- The parser returns or reports an error, whatever is in the files that include each other
without a cycle, if and only if it never comes to a comment that no newline ends. -/
theorem parse_halts_iff [Finite ι] (file : ι) (env : EnvRef) (w : World)
    (hacyclic : ∀ a, ¬ Relation.TransGen
      (Includes files dupbuildwarn (start files file env w)) a a) :
    Halts files dupbuildwarn (start files file env w) ↔
      ∀ cfg, Reaches files dupbuildwarn (start files file env w) cfg → ¬ OpenComment cfg := by
  constructor
  · intro hhalts cfg hreach hopen
    exact hopen.not_halts hreach hhalts
  · intro hno
    have hwf : WellFounded (Relation.TransGen fun b a =>
        Includes files dupbuildwarn (start files file env w) a b) := by
      have : Std.Irrefl (Relation.TransGen fun b a =>
          Includes files dupbuildwarn (start files file env w) a b) :=
        ⟨fun a hcycle => hacyclic a (Relation.transGen_swap.mp hcycle)⟩
      exact Finite.wellFounded_of_trans_of_irrefl _
    exact halts_of_closed (Subrelation.wf (fun h => .single h) hwf) hno _ _ .refl

theorem steps_one_file (hnone : ∀ path, files.fopen path = none)
    (hone : cfg.stack.length ≤ 1) (h : Steps files dupbuildwarn cfg cfg') :
    cfg'.stack.length ≤ 1 := by
  obtain ⟨stack, w⟩ := cfg
  cases stack with
  | nil => cases h
  | cons f fs =>
    by_cases hopen : OpenComment ⟨f :: fs, w⟩
    · obtain ⟨g, gs, hstack, hcomment, -⟩ := hopen
      cases hstack
      unfold Steps step commentturn at h
      simp only [hcomment, if_true] at h
      cases hn : newline f.rest.tail with
      | error e =>
        rw [hn] at h
        cases h
      | ok o => cases o <;> (rw [hn] at h; cases h; exact hone)
    have hnext : ∀ {cfg₁ : Config ι}, Steps files dupbuildwarn ⟨f :: fs, w⟩ cfg₁ → cfg' = cfg₁ :=
      fun h₁ => steps_unique h h₁
    rcases step_cases files dupbuildwarn hopen with
      hends | ⟨w', hstep⟩ | ⟨g, w', hstep, -⟩ | ⟨g, h', w', -, -, -, path, hpath⟩
    · unfold Steps at h
      rw [h] at hends
      exact hends.elim
    · rw [hnext hstep]
      exact (Nat.le_succ _).trans hone
    · rw [hnext hstep]
      exact hone
    · rw [hnone] at hpath
      cases hpath

/-- Where no file can be opened, none is included. -/
theorem no_includes (hnone : ∀ path, files.fopen path = none) (file : ι) (env : EnvRef) (w : World)
    (a : ι) : ¬ Relation.TransGen (Includes files dupbuildwarn (start files file env w)) a a := by
  intro hcycle
  obtain ⟨b, ⟨g, f, fs, w', hreach, -⟩, -⟩ := Relation.TransGen.head'_iff.mp hcycle
  have hone : (Config.mk (g :: f :: fs) w').stack.length ≤ 1 := by
    generalize Config.mk (g :: f :: fs) w' = cfg at hreach
    induction hreach with
    | refl => exact le_rfl
    | tail _ hstep ih => exact steps_one_file hnone ih hstep
  simp at hone

end

/-- One file with this text. -/
def alone (s : Text) : Files Unit := ⟨fun _ => none, fun _ => s⟩

theorem parse_halts_iff_closed :
    Halts (alone ['#', '\n']) false (start (alone ['#', '\n']) () [0] envinit) ↔
      ∀ cfg, Reaches (alone ['#', '\n']) false (start (alone ['#', '\n']) () [0] envinit) cfg →
        ¬ OpenComment cfg :=
  parse_halts_iff () [0] envinit (no_includes (fun _ => rfl) () [0] envinit)

/-- A file that is a comment without a newline. -/
theorem parse_not_halts :
    (∀ a, ¬ Relation.TransGen (Includes (alone ['#']) false (start (alone ['#']) () [0] envinit)) a a) ∧
    ¬ Halts (alone ['#']) false (start (alone ['#']) () [0] envinit) := by
  refine ⟨no_includes (fun _ => rfl) () [0] envinit, ?_⟩
  have hstep : Steps (alone ['#']) false (start (alone ['#']) () [0] envinit)
      ⟨[⟨(), ['#'], [0], .keyword, true⟩], envinit⟩ := rfl
  exact OpenComment.not_halts ⟨_, [], rfl, rfl, by simp, by simp⟩ (.single hstep)

end Bootsh.Samu.Manifest
