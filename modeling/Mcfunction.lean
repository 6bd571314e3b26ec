import Mcfunction.Catalogue.Grammar
import Mcfunction.Catalogue.Tables
import Mcfunction.CommandLine.Program
import Mcfunction.Lookup
import Mcfunction.Main
import Mcfunction.Parser.Trace
import Mcfunction.Tree.Decode
import Mcfunction.Tree.Escape
import Mcfunction.Tree.Interpolation
import Mcfunction.Tree.Node
import Mcfunction.Tree.Placeholder
import Mcfunction.Proofs.Bracketed
import Mcfunction.Proofs.Catalogue
import Mcfunction.Proofs.Catalogue.Constants
import Mcfunction.Proofs.CommandLine
import Mcfunction.Proofs.Dump
import Mcfunction.Proofs.Escape
import Mcfunction.Proofs.Gaps
import Mcfunction.Proofs.Json
import Mcfunction.Proofs.Jsonc
import Mcfunction.Proofs.Jsonc.Lines
import Mcfunction.Proofs.Lines
import Mcfunction.Proofs.LookAhead
import Mcfunction.Proofs.Numbers
import Mcfunction.Proofs.Octets
import Mcfunction.Proofs.Placeholders
import Mcfunction.Proofs.Progress
import Mcfunction.Proofs.Returns
import Mcfunction.Proofs.Sexp
import Mcfunction.Proofs.Shape
import Mcfunction.Proofs.Spans
import Mcfunction.Proofs.Statements
import Mcfunction.Proofs.Tiling
import Mcfunction.Proofs.Token
import Mcfunction.Proofs.TooDeep
import Mcfunction.Proofs.Warnings
import Mcfunction.Proofs.Words
import Mcfunction.Proofs.Written
import Mcfunction.Proofs.CommandLine.Report
