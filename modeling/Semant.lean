import Semant.Analysis.Basic
import Semant.Diagnostic
import Semant.Print
import Semant.Proofs.Analysis.AccessCalls
import Semant.Proofs.Analysis.Balance
import Semant.Proofs.Analysis.Binding
import Semant.Proofs.Analysis.Collection
import Semant.Proofs.Analysis.Completeness
import Semant.Proofs.Analysis.EmptySlot
import Semant.Proofs.Analysis.Extension
import Semant.Proofs.Analysis.FailStop
import Semant.Proofs.Analysis.Failures
import Semant.Proofs.Analysis.Filling
import Semant.Proofs.Analysis.KnownTypes
import Semant.Proofs.Analysis.Nesting
import Semant.Proofs.Analysis.Phases
import Semant.Proofs.Analysis.ProperTypes
import Semant.Proofs.Analysis.Reordering
import Semant.Proofs.Analysis.Repetition
import Semant.Proofs.Analysis.Returns
import Semant.Proofs.Analysis.Signatures
import Semant.Proofs.Analysis.Soundness
import Semant.Proofs.Analysis.WellFormedTypes
import Semant.Proofs.Analysis.WrittenReturns
import Semant.Proofs.Number.Numeral
import Semant.Proofs.Number.Printed
import Semant.Proofs.Number.Rounding
import Semant.Proofs.Outcome
import Semant.Proofs.Scope.Best
import Semant.Proofs.Scope.Definition
import Semant.Proofs.Scope.EqualTypes
import Semant.Proofs.Scope.Growth
import Semant.Proofs.Scope.Overload
import Semant.Proofs.Scope.Renumbering
import Semant.Proofs.Scope.Score
import Semant.Proofs.Scope.Tables
import Semant.Proofs.Scope.WrittenTypes
import Semant.Proofs.Tree.AccessCalls
import Semant.Proofs.Tree.Agreement
import Semant.Proofs.Tree.Annotation
import Semant.Proofs.Tree.Children
import Semant.Proofs.Tree.Dump
import Semant.Proofs.Tree.Extension
import Semant.Proofs.Tree.Labels
import Semant.Proofs.Tree.Measure
import Semant.Proofs.Tree.Nodes
import Semant.Proofs.Tree.Places
import Semant.Proofs.Tree.Sites
import Semant.Proofs.Tree.Visits
import Semant.Proofs.TypeEquality
import Semant.Proofs.TypeText
import Semant.Proofs.Typing.AccessCalls.Expr
import Semant.Proofs.Typing.AccessCalls.Function
import Semant.Proofs.Typing.AccessCalls.Stmt
import Semant.Proofs.Typing.Assignment.Expr
import Semant.Proofs.Typing.Assignment.Stmt
import Semant.Proofs.Typing.ClosedTypes
import Semant.Proofs.Typing.Completeness.Expr
import Semant.Proofs.Typing.Completeness.Function
import Semant.Proofs.Typing.Completeness.Stmt
import Semant.Proofs.Typing.Evolution
import Semant.Proofs.Typing.Extension.Expr
import Semant.Proofs.Typing.Extension.Function
import Semant.Proofs.Typing.Extension.Stmt
import Semant.Proofs.Typing.FailStop
import Semant.Proofs.Typing.Failures.Expr
import Semant.Proofs.Typing.Failures.Function
import Semant.Proofs.Typing.Failures.Stmt
import Semant.Proofs.Typing.Frame
import Semant.Proofs.Typing.Function
import Semant.Proofs.Typing.History
import Semant.Proofs.Typing.Judgment
import Semant.Proofs.Typing.KnownTypes
import Semant.Proofs.Typing.Names
import Semant.Proofs.Typing.Nesting
import Semant.Proofs.Typing.Places
import Semant.Proofs.Typing.Refusals
import Semant.Proofs.Typing.Renumbering.Expr
import Semant.Proofs.Typing.Renumbering.Function
import Semant.Proofs.Typing.Renumbering.Stmt
import Semant.Proofs.Typing.Repetition.Expr
import Semant.Proofs.Typing.Repetition.Function
import Semant.Proofs.Typing.Repetition.Stmt
import Semant.Proofs.Typing.ReturnStatements
import Semant.Proofs.Typing.Returns
import Semant.Proofs.Typing.Rules
import Semant.Proofs.Typing.Script
import Semant.Proofs.Typing.Sites
import Semant.Proofs.Typing.Soundness.Expr
import Semant.Proofs.Typing.Soundness.Stmt
import Semant.Proofs.Typing.Traversal
import Semant.Proofs.Typing.TypeParts
import Semant.Proofs.Typing.UnknownTypes
import Semant.Proofs.Typing.WellFormedTypes
import Semant.Scope.Tables
import Semant.Tree.Dump
import Semant.Tree.Same
import Semant.Tree.Trace
import Semant.Version
