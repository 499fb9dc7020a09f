import AccessRules.Catalog.Basic
import AccessRules.Catalog.Format
import AccessRules.Census.Items
import AccessRules.Census.Places
import AccessRules.Census.Settings
import AccessRules.Code.Accessors
import AccessRules.Code.Render
import AccessRules.Code.Scope
import AccessRules.Collection.NameMap
import AccessRules.Collection.Roster
import AccessRules.Compile
import AccessRules.Context.Kind
import AccessRules.Context.Table
import AccessRules.Context.Uses
import AccessRules.Corpus
import AccessRules.Diagnostic
import AccessRules.Expr.Basic
import AccessRules.Expr.Outline
import AccessRules.Expr.Predicate
import AccessRules.Expr.Shape
import AccessRules.Expr.Walk
import AccessRules.Grammar.ActionBody
import AccessRules.Grammar.Parse
import AccessRules.Grammar.Requirement
import AccessRules.Grammar.SignatureText
import AccessRules.Json.Basic
import AccessRules.Json.Decode
import AccessRules.Json.Dialect
import AccessRules.Json.Document
import AccessRules.Json.Reader
import AccessRules.Json.Scalar
import AccessRules.Json.Writer
import AccessRules.Json.Written
import AccessRules.Layout
import AccessRules.Number.FloatText
import AccessRules.Number.Shortest
import AccessRules.Number.Word
import AccessRules.Place
import AccessRules.Proofs.Accumulate
import AccessRules.Proofs.BuildInPlace
import AccessRules.Proofs.BuildOrder
import AccessRules.Proofs.Catalog.PlaceTree
import AccessRules.Proofs.Census.Items
import AccessRules.Proofs.Census.Places
import AccessRules.Proofs.Census.Settings
import AccessRules.Proofs.Code.Alike
import AccessRules.Proofs.Code.Faults
import AccessRules.Proofs.Code.Identifiers
import AccessRules.Proofs.Code.Texts
import AccessRules.Proofs.Collection.NameMap
import AccessRules.Proofs.Collection.Roster
import AccessRules.Proofs.Compile
import AccessRules.Proofs.Context.EnumValues
import AccessRules.Proofs.Context.IntegerType
import AccessRules.Proofs.Context.KindAgreement
import AccessRules.Proofs.Context.Observation
import AccessRules.Proofs.Context.OwnParam
import AccessRules.Proofs.Context.References
import AccessRules.Proofs.Context.RuleOrder
import AccessRules.Proofs.Context.Run
import AccessRules.Proofs.Context.Table
import AccessRules.Proofs.Corpus
import AccessRules.Proofs.Diagnostics
import AccessRules.Proofs.Expr.ActionOutline
import AccessRules.Proofs.Expr.Children
import AccessRules.Proofs.Expr.Nodes
import AccessRules.Proofs.Expr.Outline
import AccessRules.Proofs.Expr.OutlineParts
import AccessRules.Proofs.Expr.Predicate
import AccessRules.Proofs.Expr.Respelling
import AccessRules.Proofs.Expr.Total
import AccessRules.Proofs.Expr.Visits
import AccessRules.Proofs.Grammar.ActionCompleteness
import AccessRules.Proofs.Grammar.Agreement
import AccessRules.Proofs.Grammar.Completeness
import AccessRules.Proofs.Grammar.Derivation
import AccessRules.Proofs.Grammar.Floatless
import AccessRules.Proofs.Grammar.Outline
import AccessRules.Proofs.Grammar.Progress
import AccessRules.Proofs.Grammar.ReaderRules
import AccessRules.Proofs.Grammar.RoundTrip
import AccessRules.Proofs.Grammar.Shape
import AccessRules.Proofs.Grammar.Soundness
import AccessRules.Proofs.Grammar.TruthPositions
import AccessRules.Proofs.Grammar.Unparse
import AccessRules.Proofs.Grammar.WholeText
import AccessRules.Proofs.Layout.Packing
import AccessRules.Proofs.Layout.SharedNames
import AccessRules.Proofs.Number.FloatText
import AccessRules.Proofs.Number.Shortest
import AccessRules.Proofs.Number.WordText
import AccessRules.Proofs.Place
import AccessRules.Proofs.Reachability.Approximation
import AccessRules.Proofs.Reachability.Arithmetic
import AccessRules.Proofs.Reachability.Closure
import AccessRules.Proofs.Reachability.Completion
import AccessRules.Proofs.Reachability.Evaluation
import AccessRules.Proofs.Reachability.FloatFree
import AccessRules.Proofs.Reachability.HelperDepth
import AccessRules.Proofs.Reachability.Kleene
import AccessRules.Proofs.Reachability.Monotone
import AccessRules.Proofs.Reachability.Opacity
import AccessRules.Proofs.Reachability.SameOutcome
import AccessRules.Proofs.Reachability.Shadowing
import AccessRules.Proofs.Reachability.Soundness
import AccessRules.Proofs.Reachability.Spelling
import AccessRules.Proofs.Reachability.StaticData
import AccessRules.Proofs.Report
import AccessRules.Proofs.Shadowing
import AccessRules.Proofs.ShapeCheck
import AccessRules.Proofs.Source
import AccessRules.Proofs.Text.Pieces
import AccessRules.Proofs.Text.Quoted
import AccessRules.Proofs.Token.Columns
import AccessRules.Proofs.Token.Extent
import AccessRules.Proofs.Token.Lexeme
import AccessRules.Proofs.Token.Numeral
import AccessRules.Proofs.Token.Reading
import AccessRules.Proofs.Token.Respacing
import AccessRules.Proofs.Token.Spacing
import AccessRules.Proofs.Token.Tiling
import AccessRules.Proofs.Typing.CallFaults
import AccessRules.Proofs.Typing.FirstCome
import AccessRules.Proofs.Typing.Forwarding
import AccessRules.Proofs.Typing.Run
import AccessRules.Reachability.Evaluate
import AccessRules.Reachability.Statics
import AccessRules.Reachability.Value
import AccessRules.Report
import AccessRules.Signature
import AccessRules.Source
import AccessRules.Text.Blank
import AccessRules.Text.CharClass
import AccessRules.Text.Quoted
import AccessRules.Token.Basic
import AccessRules.Token.Lexer
import AccessRules.Typing
