import Bootsh.Bltin.Test
import Bootsh.Bltin.TestPosix
import Bootsh.Bltin.Ulimit
import Bootsh.CString
import Bootsh.MyString
import Bootsh.Arith.Lexer
import Bootsh.Arith.Yacc
import Bootsh.Lib.Munch
import Bootsh.Arith.Grammar
import Bootsh.Arith.Scan
import Bootsh.Arith.Sound
import Bootsh.Arith.Complete
import Bootsh.Arith.Correct
import Bootsh.Lib.Run
import Bootsh.Lib.Fuel
import Bootsh.Lib.Json
import Bootsh.Lib.Occurrence
import Bootsh.Lib.Probe
import Bootsh.Lib.Slash
import Bootsh.Lib.Tape
import Bootsh.Alias
import Bootsh.Input.File
import Bootsh.Input.Buffer
import Bootsh.Input.Script
import Bootsh.Input.Pushback
import Bootsh.Parser.Syntax
import Bootsh.Parser.ReadToken
import Bootsh.Parser.HereDoc
import Bootsh.Parser.HereText
import Bootsh.Lib.Descriptors
import Bootsh.Redir.Redir
import Bootsh.Redir.Undo
import Bootsh.Redir.Frame
import Bootsh.Redir.Popredir
import Bootsh.Redir.Fork
import Bootsh.Lib.HashTable
import Bootsh.Lib.Binding
import Bootsh.Var.Var
import Bootsh.Var.Scoped
import Bootsh.Var.Accessor
import Bootsh.Var.Assign
import Bootsh.Var.Refine
import Bootsh.Var.Return
import Bootsh.Var.Report
import Bootsh.Var.Correct
import Bootsh.Arith.Overflow
import Bootsh.Arith.Trap
import Bootsh.Arith.Unselected
import Bootsh.Exec.Path
import Bootsh.Exec.Command
import Bootsh.Var.Hooks
import Bootsh.Var.Watched
import Bootsh.Exec.Shell
import Bootsh.Exec.Cd
import Bootsh.Exec.CdState
import Bootsh.Exec.Lookup
import Bootsh.Exec.Transparent
import Bootsh.Var.Plain
import Bootsh.Var.Layout
import Bootsh.Lib.Upsert
import Bootsh.Exec.Execute
import Bootsh.Exec.Agree
import Bootsh.Exec.Environ
import Bootsh.Eval.Node
import Bootsh.Eval.Evaltree
import Bootsh.Eval.Structured
import Bootsh.Eval.Rules
import Bootsh.Eval.Refine
import Bootsh.Eval.Correct
import Bootsh.Exec.Canonical
import Bootsh.Exec.Lexical
import Bootsh.Options.Getopts
import Bootsh.Options.Call
import Bootsh.Options.Frame
import Bootsh.Options.Posix
import Bootsh.Options.Access
import Bootsh.Lib.Links
import Bootsh.Jobs.Table
import Bootsh.Jobs.Listed
import Bootsh.Jobs.Wait
import Bootsh.Jobs.Step
import Bootsh.Jobs.Order
import Bootsh.Jobs.States
import Bootsh.Trap.Machine
import Bootsh.Trap.Pending
import Bootsh.Lib.Fallible
import Bootsh.Lib.Bytes
import Bootsh.Samu.Deps
import Bootsh.Samu.DepsFormat
import Bootsh.Samu.DepsLoad
import Bootsh.Samu.DepsLoop
import Bootsh.Samu.DepsRecord
import Bootsh.Samu.DepsRewrite
import Bootsh.Samu.DepsCompact
import Bootsh.Samu.DepsInit
import Bootsh.Samu.DepsAccess
import Bootsh.Samu.DepsRoundTrip
import Bootsh.Samu.DepsDamage
import Bootsh.Samu.CanonPath
import Bootsh.Samu.CanonPathLexical
import Bootsh.Samu.DepFile
import Bootsh.Samu.DepFileGrammar
import Bootsh.Samu.DepFileWord
import Bootsh.Samu.DepFileStep
import Bootsh.Samu.DepFileParse
import Bootsh.Samu.BuildLog
import Bootsh.Numeral
import Bootsh.Arith.Variable
import Bootsh.Samu.BuildLogRead
import Bootsh.Samu.BuildLogReplay
import Bootsh.Ar.Elf
import Bootsh.Ar.ElfReads
import Bootsh.Ar.ElfLoops
import Bootsh.Ar.ElfSafe
import Bootsh.Samu.Scan
import Bootsh.Samu.Env
import Bootsh.Samu.ScanString
import Bootsh.Samu.Graph
import Bootsh.Samu.EdgeVar
import Bootsh.Samu.Parse
import Bootsh.Samu.ParseEnds
import Bootsh.Samu.Tool
import Bootsh.Samu.ToolEnds
import Bootsh.Samu.Compdb
import Bootsh.Samu.Htab
import Bootsh.Samu.NodeTable
import Bootsh.Lib.Tile
import Bootsh.Nodes.Copy
import Bootsh.Nodes.CopyExact
import Bootsh.Memalloc.Stack
import Bootsh.Memalloc.Nested
import Bootsh.Lib.GnuAr
import Bootsh.Ar.Archive
import Bootsh.Ar.ArchiveRead
import Bootsh.Samu.Tree
import Bootsh.Samu.TreeInsert
import Bootsh.Samu.Build
import Bootsh.Samu.BuildCounts
import Bootsh.Samu.BuildPools
import Bootsh.Samu.BuildRun
import Bootsh.Samu.BuildDeps
import Bootsh.Samu.BuildPlan
import Bootsh.Samu.BuildInputs
import Bootsh.Samu.BuildAdd
import Bootsh.Samu.BuildAll
import Bootsh.Samu.BuildSafe
import Bootsh.Samu.GraphLinks
import Bootsh.Samu.BuildManifest
