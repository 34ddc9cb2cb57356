import SelectorAlgebra.CommandLine.Run
import SelectorAlgebra.Covering.Relation
import SelectorAlgebra.Diagnostic.Console
import SelectorAlgebra.Json.Selector
import SelectorAlgebra.Main
import SelectorAlgebra.Nesting.Resolve
import SelectorAlgebra.Parse
import SelectorAlgebra.Proofs.Covering.Concatenation
import SelectorAlgebra.Proofs.Covering.Monotonicity
import SelectorAlgebra.Proofs.Covering.Order
import SelectorAlgebra.Proofs.Covering.Placement
import SelectorAlgebra.Proofs.Covering.PseudoElement
import SelectorAlgebra.Proofs.Covering.Relative
import SelectorAlgebra.Proofs.Covering.Transitivity
import SelectorAlgebra.Proofs.Covering.Unsatisfiable
import SelectorAlgebra.Proofs.Diagnostic.Console
import SelectorAlgebra.Proofs.Extension.List
import SelectorAlgebra.Proofs.Matching.Counting
import SelectorAlgebra.Proofs.Matching.Exclusion
import SelectorAlgebra.Proofs.Nesting.Associativity
import SelectorAlgebra.Proofs.Nesting.Explicit
import SelectorAlgebra.Proofs.Nesting.Failure
import SelectorAlgebra.Proofs.Nesting.Parent
import SelectorAlgebra.Proofs.Nesting.Substitution
import SelectorAlgebra.Proofs.Parser.AttributeValue
import SelectorAlgebra.Proofs.Parser.Levels
import SelectorAlgebra.Proofs.Parser.Restriction
import SelectorAlgebra.Proofs.Parser.Warning
import SelectorAlgebra.Proofs.Parser.WellFormed
import SelectorAlgebra.Proofs.Selector.Composition
import SelectorAlgebra.Proofs.Selector.Congruence
import SelectorAlgebra.Proofs.Serialization.Argument
import SelectorAlgebra.Proofs.Serialization.Attribute
import SelectorAlgebra.Proofs.Serialization.RoundTrip
import SelectorAlgebra.Proofs.Source.Offset
import SelectorAlgebra.Proofs.Specificity.Attainable
import SelectorAlgebra.Proofs.Specificity.Limit
import SelectorAlgebra.Proofs.Specificity.Nesting
import SelectorAlgebra.Proofs.Text.Pieces
