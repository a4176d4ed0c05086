import Novash.Foundations.Results
import Novash.Foundations.Lists
import Novash.Foundations.Transitions
import Novash.Foundations.Descriptors
import Novash.Foundations.Custody
import Novash.Foundations.RingBuffer
import Novash.Foundations.LinkedLists
import Novash.Foundations.Produce
import Novash.Foundations.Patterns
import Novash.Foundations.GrowArrays
import Novash.Foundations.Buffers
import Novash.Foundations.Probing
import Novash.Foundations.Reactions
import Novash.Foundations.Allocation
import Novash.Basic.CString
import Novash.Basic.StringMap
import Novash.Basic.HashTable
import Novash.Basic.MapUpdates
import Novash.History.History
import Novash.History.Queue
import Novash.History.Record
import Novash.History.Disk
import Novash.History.LongRecords
import Novash.History.Readline
import Novash.Lexer.Lexer
import Novash.Lexer.Reading
import Novash.Lexer.Quotes
import Novash.Lexer.Spans
import Novash.Lexer.Embedding
import Novash.Lexer.Names
import Novash.Lexer.Numbers
import Novash.Lexer.PartCalls
import Novash.Lexer.Tildes
import Novash.Lexer.Separators
import Novash.Parser.Ast
import Novash.Parser.Parser
import Novash.Parser.Print
import Novash.Parser.Words
import Novash.Parser.Commands
import Novash.Parser.Join
import Novash.Parser.JoinLines
import Novash.Parser.Tokens
import Novash.Parser.Calls
import Novash.Parser.LookedAt
import Novash.Parser.Elements
import Novash.Parser.SourceText
import Novash.Parser.RedirectionNumbers
import Novash.Parser.SyntaxErrors
import Novash.Parser.Operands
import Novash.Parser.Turns
import Novash.Parser.Views
import Novash.Parser.WellFormed
import Novash.Expander.Pipeline
import Novash.Expander.Expander
import Novash.Expander.Flags
import Novash.Expander.Argv
import Novash.Printer.Words
import Novash.Printer.Tokens
import Novash.Printer.Lines
import Novash.Printer.Normal
import Novash.Expander.Globbing
import Novash.Executor.Jobs
import Novash.Executor.JobIds
import Novash.Executor.JobLinks
import Novash.Executor.ProcessCopies
import Novash.Shell.State
import Novash.Shell.Signal
import Novash.Executor.Foreground
import Novash.Builtin.JobControl
import Novash.Builtin.Builtin
import Novash.Builtin.BuiltinTable
import Novash.Shell.Environment
import Novash.Executor.Fork
import Novash.Executor.Executor
import Novash.Shell.Loop
import Novash.Executor.Control
import Novash.Executor.Invariants
import Novash.Executor.Refinement
import Novash.Executor.Handshake
import Novash.Executor.RunningCount
import Novash.Executor.LiveProcesses
import Novash.Executor.Records
import Novash.Executor.Membership
import Novash.Executor.PidReuse
import Novash.Executor.PipeEnds
import Novash.Executor.Wiring
import Novash.Executor.Closes
import Novash.Executor.Redirections
import Novash.Executor.OpenedFiles
import Novash.Executor.FailedRedirections
import Novash.Executor.PipeRedirections
import Novash.Executor.Status
import Novash.Executor.CompiledJobs
import Novash.Executor.Chains
import Novash.Executor.Blocks
import Novash.Executor.Calls
import Novash.Executor.SignalMask
import Novash.Executor.CommandText
import Novash.Shell.Lines
import Novash.Shell.Expansions
import Novash.Shell.ReadLoop
import Novash.Shell.JoinedLines
import Novash.Shell.Programs
import Novash.Shell.SessionHistory
import Novash.Shell.Sessions
import Novash.Executor.AwaitedJob
import Novash.Executor.ReportOrder
import Novash.Executor.WaitEnds
import Novash.Executor.BuiltinTurns
import Novash.Executor.StoredStatus
import Novash.Executor.CallHistory
import Novash.Executor.OwnEntry
import Novash.Executor.StoppedJobs
import Novash.Executor.BackgroundPid
import Novash.Memory.Tokens
import Novash.Memory.Lexer
import Novash.Memory.Trees
import Novash.Memory.Parser
import Novash.Memory.Pipeline
import Novash.Memory.Expander
import Novash.Memory.Lines
import Novash.Builtin.PathSearch
import Novash.Prompt.Text
import Novash.Prompt.Ps1
