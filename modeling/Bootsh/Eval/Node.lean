import Bootsh.CString

/-!
The commands of `nodes.def`, as far as control flow goes: words are expanded, and redirections
made, by what is outside, which also gives simple commands their exit statuses.
-/
namespace Bootsh.Eval

inductive BinOp where
  | and
  | or
  | semi
  deriving DecidableEq, Repr

mutual

/-- `union node`. Redirections, the words of `for` and the cases of `case` are told by numbers;
a body of a case may be empty. -/
inductive Node where
  | cmd (c : Command)
  | not (com : Node)
  | redir (redirect : ℕ) (n : Node)
  | subshell (redirect : ℕ) (n : Node)
  | backgnd (redirect : ℕ) (n : Node)
  | pipe (backgnd : Bool) (cmdlist : List Node)
  | binary (op : BinOp) (ch1 ch2 : Node)
  | if_ (test ifpart : Node) (elsepart : Option Node)
  | loop (until_ : Bool) (ch1 ch2 : Node)
  | for_ (args : ℕ) (body : Node)
  | case (expr : ℕ) (cases : List (Option Node))
  | defun (name : Text) (body : Node)

/-- A simple command: a word, which may be the name of a function, or one of the builtins that
control the evaluation. `eval` and `.` have the commands of their text; blank lines give
none. -/
inductive Command where
  | word (text : Text)
  | break_ (n : ℕ) (pos : 0 < n)
  | continue_ (n : ℕ) (pos : 0 < n)
  | return_ (n : Option ℕ)
  | eval (l : List (Option Node))
  | dot (l : List (Option Node))

end

/-- What is outside: it may depend on the words that were run before. A redirection that fails
has a status that is not 0; a number that no case has stands for no match. -/
structure Answers where
  status : List Text → Text → ℕ
  redirect : List Text → ℕ → ℕ
  words : List Text → ℕ → ℕ
  casematch : List Text → ℕ → ℕ

end Bootsh.Eval
