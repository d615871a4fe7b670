import DiagramMacros.Diagram.Document
import DiagramMacros.Grammar.Ranking
import DiagramMacros.Proofs.Overriding
import DiagramMacros.Proofs.Words
import DiagramMacros.Proofs.Depth
import DiagramMacros.Proofs.Numerals
import DiagramMacros.Proofs.PrintedNumerals
import DiagramMacros.Proofs.DigitTexts
import DiagramMacros.Proofs.Binary64
import DiagramMacros.Proofs.Rounding
import DiagramMacros.Proofs.DecimalNumerals
import DiagramMacros.Proofs.ExactNumerals
import DiagramMacros.Proofs.CanonicalNumerals
import DiagramMacros.Proofs.Geometry.Points
import DiagramMacros.Proofs.Geometry.Slopes
import DiagramMacros.Proofs.Geometry.Lines
import DiagramMacros.Proofs.Geometry.Circles
import DiagramMacros.Proofs.Geometry.CanonicalPairs
import DiagramMacros.Proofs.Geometry.Frames
import DiagramMacros.Proofs.Style.Bundles
import DiagramMacros.Proofs.Style.Keys
import DiagramMacros.Proofs.Style.Forms
import DiagramMacros.Proofs.Style.Measures
import DiagramMacros.Proofs.Style.Readings
import DiagramMacros.Proofs.Style.KeySpacing
import DiagramMacros.Proofs.Style.Alike
import DiagramMacros.Proofs.Style.BareTexts
import DiagramMacros.Proofs.Style.Splitting
import DiagramMacros.Proofs.Style.PrintedNumbers
import DiagramMacros.Proofs.Style.Printing
import DiagramMacros.Proofs.Style.BalancedPrinting
import DiagramMacros.Proofs.Style.ReadAgain
import DiagramMacros.Proofs.Style.TopLevelItems
import DiagramMacros.Proofs.Style.PresetNames
import DiagramMacros.Proofs.Grammar.Boundary
import DiagramMacros.Proofs.Grammar.Nodes
import DiagramMacros.Proofs.Grammar.Balanced
import DiagramMacros.Proofs.Grammar.Closed
import DiagramMacros.Proofs.Grammar.DepthCounter
import DiagramMacros.Proofs.Grammar.Outline
import DiagramMacros.Proofs.Grammar.Trees
import DiagramMacros.Proofs.Expression.Failures
import DiagramMacros.Proofs.Expression.Rules
import DiagramMacros.Proofs.Expression.Chains
import DiagramMacros.Proofs.Expression.Operand
import DiagramMacros.Proofs.Expression.Reading
import DiagramMacros.Proofs.Expression.Numbers
import DiagramMacros.Proofs.Expression.Resolution
import DiagramMacros.Proofs.Expression.Calculation
import DiagramMacros.Proofs.Expression.OptionalDollars
import DiagramMacros.Proofs.Expression.Crossings
import DiagramMacros.Proofs.Expression.Names
import DiagramMacros.Proofs.Expression.UsedNames
import DiagramMacros.Proofs.Expression.TreeWalk
import DiagramMacros.Proofs.Expression.FailureCauses
import DiagramMacros.Proofs.Lexing.Calls
import DiagramMacros.Proofs.Lexing.Units
import DiagramMacros.Proofs.Lexing.Partition
import DiagramMacros.Proofs.Lexing.Splice
import DiagramMacros.Proofs.Lexing.Walk
import DiagramMacros.Proofs.Lexing.TrialOrder
import DiagramMacros.Proofs.Lexing.SameText
import DiagramMacros.Proofs.Path.Tokens
import DiagramMacros.Proofs.Path.Pen
import DiagramMacros.Proofs.Path.Reading
import DiagramMacros.Proofs.Path.Anchors
import DiagramMacros.Proofs.Path.Writing
import DiagramMacros.Proofs.Path.Printing
import DiagramMacros.Proofs.Path.Flags
import DiagramMacros.Proofs.Path.Neighbours
import DiagramMacros.Proofs.Path.Reversal
import DiagramMacros.Proofs.Document.Definitions
import DiagramMacros.Proofs.Document.EarlierDefinitions
import DiagramMacros.Proofs.Document.Arguments
import DiagramMacros.Proofs.Document.FirstFailure
import DiagramMacros.Proofs.Document.DefinedNames
import DiagramMacros.Proofs.Document.SwappedDefinitions
import DiagramMacros.Proofs.Document.Annotation
import DiagramMacros.Proofs.Document.ExplicitPlacements
import DiagramMacros.Proofs.Document.BalancedTokens
