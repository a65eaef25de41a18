import HookScript.Text.Blank
import HookScript.Command.Arguments
import HookScript.Text.Utf8
import HookScript.Path
import HookScript.Number.Binary
import HookScript.Number.Shortest
import HookScript.Number.Numeral
import HookScript.Delivery
import HookScript.Program.Basic
import HookScript.Program.Listing
import HookScript.Token
import HookScript.Program.Error
import HookScript.Value
import HookScript.Fault
import HookScript.Table
import HookScript.Heap.Basic
import HookScript.Document.Basic
import HookScript.Document.Xml.Event
import HookScript.Document.Xml.Tree
import HookScript.World
import HookScript.Text.Unprintable
import HookScript.Text.Quoted
import HookScript.Heap.Outline
import HookScript.Heap.Copy
import HookScript.Heap.Frames
import HookScript.Machine
import HookScript.Operator
import HookScript.Lexer.Basic
import HookScript.Lexer.Scan
import HookScript.Lookahead
import HookScript.ScopeStack
import HookScript.Program.Parser
import HookScript.Evaluation
import HookScript.Host
import HookScript.Exchange
import HookScript.Command.Json
import HookScript.Command.Xml
import HookScript.Command.FileTree
import HookScript.Command.Run
import HookScript.Main
import HookScript.Proofs.Scoping.Context
import HookScript.Proofs.Scoping.Stack
import HookScript.Proofs.Scoping.Reading
import HookScript.Proofs.Run.Task
import HookScript.Proofs.Run.Frames
import HookScript.Proofs.Run.Growth
import HookScript.Proofs.Run.Later
import HookScript.Proofs.Run.Preservation
import HookScript.Proofs.Run.Moves
import HookScript.Proofs.Run.Files
import HookScript.Proofs.Run.Restored
import HookScript.Proofs.Run.Session
import HookScript.Proofs.Scoping.Visit
import HookScript.Proofs.Scoping.Depth
import HookScript.Proofs.Scoping.Lexical
import HookScript.Proofs.Scoping.Imports
import HookScript.Proofs.Scoping.Inside
import HookScript.Proofs.Scoping.Captured
import HookScript.Proofs.Scoping.Origin
import HookScript.Proofs.Scoping.Directories
import HookScript.Proofs.Scoping.Methods
import HookScript.Proofs.Isolation.Above
import HookScript.Proofs.Isolation.Closed
import HookScript.Proofs.Isolation.Contents
import HookScript.Proofs.Isolation.Lockstep
import HookScript.Proofs.Isolation.Primitives
import HookScript.Proofs.Isolation.Evaluator
import HookScript.Proofs.Isolation.Import
import HookScript.Proofs.Isolation.Chain
import HookScript.Proofs.Jumps.Passing
import HookScript.Proofs.Jumps.WellPlaced
import HookScript.Proofs.Jumps.TakenUp
import HookScript.Proofs.Parsing.Steps
import HookScript.Proofs.Parsing.RulesSpend
import HookScript.Proofs.Parsing.Progress
import HookScript.Proofs.Parsing.Segment
import HookScript.Proofs.Parsing.Agreement
import HookScript.Proofs.Parsing.RulesAgree
import HookScript.Proofs.Parsing.Recovery
import HookScript.Proofs.Lexing.Scans
import HookScript.Proofs.Lexing.Bytes
import HookScript.Proofs.Text.Utf8
import HookScript.Proofs.Scoping.Names
import HookScript.Proofs.Parsing.Grammar
import HookScript.Proofs.Parsing.Taken
import HookScript.Proofs.Parsing.Brackets
import HookScript.Proofs.Parsing.Takes
import HookScript.Proofs.Parsing.RulesTake
import HookScript.Proofs.Parsing.Calls
import HookScript.Proofs.Parsing.Accepted
import HookScript.Proofs.Parsing.Ended
import HookScript.Proofs.Lexing.Spelling
import HookScript.Proofs.Parsing.Leads
import HookScript.Proofs.Parsing.ExprsFound
import HookScript.Proofs.Parsing.StmtsFound
import HookScript.Proofs.Parsing.TreesFound
import HookScript.Proofs.Parsing.Spellable
import HookScript.Proofs.Parsing.ReadBack
import HookScript.Proofs.Contents.Reach
import HookScript.Proofs.Contents.Tables
import HookScript.Proofs.Contents.DeepCopy
import HookScript.Proofs.Contents.Documents
import HookScript.Proofs.Decoding.Elements
import HookScript.Proofs.Decoding.Parts
import HookScript.Proofs.Decoding.Text
import HookScript.Proofs.Decoding.Routes
import HookScript.Proofs.Decoding.Tree
import HookScript.Proofs.Levels.Alike
import HookScript.Proofs.Levels.Code
import HookScript.Proofs.Levels.Follows
import HookScript.Proofs.Run.Fuel
import HookScript.Proofs.Lexing.Cuts
import HookScript.Proofs.Parsing.Pieces
import HookScript.Proofs.Levels.Single
import HookScript.Proofs.Levels.Evaluator
import HookScript.Proofs.Levels.Pieces
import HookScript.Proofs.Lexing.Answers
import HookScript.Proofs.Lexing.Munch
import HookScript.Proofs.Parsing.Sources
import HookScript.Proofs.Contents.Rendering
import HookScript.Proofs.Numbers.Exact
import HookScript.Proofs.Numbers.Whole
import HookScript.Proofs.Lists.Requests
import HookScript.Proofs.Lists.Asked
import HookScript.Proofs.Lists.History
import HookScript.Proofs.Lists.Chronicle
import HookScript.Proofs.Lists.Runs
import HookScript.Proofs.Lists.Moments
import HookScript.Proofs.Scoping.NameSets
import HookScript.Proofs.Scoping.Assignment
import HookScript.Proofs.Lists.Indexing
import HookScript.Proofs.Lists.Slots
import HookScript.Proofs.Contents.Paths
import HookScript.Proofs.Run.Course
import HookScript.Proofs.Run.Deeds
import HookScript.Proofs.Receivers.Bound
import HookScript.Proofs.Receivers.Runs
import HookScript.Proofs.Lexing.Lookahead
import HookScript.Proofs.Lexing.Layout
import HookScript.Proofs.Lexing.Failures
import HookScript.Proofs.Lexing.Pauses
import HookScript.Proofs.Parsing.Repeated
import HookScript.Proofs.Parsing.Reported
import HookScript.Proofs.Run.Rest
import HookScript.Proofs.Run.Order
import HookScript.Proofs.Responses.Decoders
import HookScript.Proofs.Responses.Once
