import Lox.CommandLine
import Lox.Main
import Lox.Number.Read
import Lox.Report
import Lox.Syntax.References
import Lox.Syntax.Same
import Lox.Proofs.Frames
import Lox.Proofs.Distances
import Lox.Proofs.Globals
import Lox.Proofs.Identities
import Lox.Proofs.Outward
import Lox.Proofs.Parsing.Acceptance
import Lox.Proofs.Renaming.Runs
import Lox.Proofs.CallDepth
import Lox.Proofs.JoinedRuns
import Lox.Proofs.Outcomes
import Lox.Proofs.Scanning.Tiles
import Lox.Proofs.Scanning.Writing
import Lox.Proofs.Termination
import Lox.Proofs.Returns
import Lox.Proofs.Operators
import Lox.Proofs.Evaluation.Fuel
import Lox.Proofs.Evaluation.Limits
import Lox.Proofs.LimitedOutput
import Lox.Proofs.Lines
import Lox.Proofs.StaticScopes
import Lox.Proofs.Parsing.Order
import Lox.Proofs.Parsing.Recovery
import Lox.Proofs.PrintedNumbers
import Lox.Proofs.Parsing.Cursor
import Lox.Proofs.Parsing.ErrorOrder
import Lox.Proofs.Parsing.MissingSemicolon
import Lox.Proofs.ForLoops
import Lox.Proofs.Lookup
import Lox.Proofs.Equality
import Lox.Proofs.PrefixForms
import Lox.Proofs.SingleExpressions
import Lox.Proofs.ScopeChains
import Lox.Proofs.NumberTexts
