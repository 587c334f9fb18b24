import TermRewriting.Debug
import TermRewriting.Json.Codec
import TermRewriting.Pattern.InPlace
import TermRewriting.Replacement.InPlace
import TermRewriting.Proofs.Replacement.Components
import TermRewriting.Rewriting
import TermRewriting.Term.Draft
import TermRewriting.Term.Edit
import TermRewriting.Proofs.Term.Coherence
import TermRewriting.Proofs.Pattern.Shape
import TermRewriting.Proofs.RuleIndex.Completeness
import TermRewriting.Proofs.Term.Operations
import TermRewriting.Proofs.Term.Unmarking
import TermRewriting.Proofs.Term.Alike
import TermRewriting.Proofs.Truth
import TermRewriting.Proofs.Pattern.Congruence
import TermRewriting.Proofs.Canonical
import TermRewriting.Proofs.Selection
import TermRewriting.Proofs.Selection.Cursor
import TermRewriting.Proofs.Replacement
import TermRewriting.Proofs.Canonical.Throughout
import TermRewriting.Proofs.Rewriting.Budget
import TermRewriting.Proofs.Rewriting.Pass
import TermRewriting.Proofs.Rewriting.Congruence
import TermRewriting.Proofs.Rewriting.Settling
import TermRewriting.Proofs.RuleSet
import TermRewriting.Proofs.Session
import TermRewriting.Proofs.Session.Replay
import TermRewriting.Proofs.Rewriting.NormalForms
import TermRewriting.Proofs.Digest
import TermRewriting.Proofs.Rewriting.Isolation
import TermRewriting.Proofs.Term.Stamps
import TermRewriting.Proofs.Rewriting.Marks
import TermRewriting.Proofs.Binary64
import TermRewriting.Proofs.Term.Order
import TermRewriting.Proofs.Rewriting.Weight
import TermRewriting.Proofs.Rewriting.FreePass
import TermRewriting.Proofs.Rewriting.Termination
import TermRewriting.Proofs.Pattern.Growth
import TermRewriting.Proofs.Term.Equivalence
import TermRewriting.Proofs.Term.Identity
import TermRewriting.Proofs.Pattern.Soundness
import TermRewriting.Proofs.Pattern.Completeness
import TermRewriting.Proofs.Pattern.Variables
import TermRewriting.Proofs.Pattern.InPlace
import TermRewriting.Proofs.Pattern.InPlaceSearch
import TermRewriting.Proofs.Binary64.Value
import TermRewriting.Proofs.Binary64.Exact
import TermRewriting.Proofs.Binary64.Rounding
import TermRewriting.Proofs.Truth.Comparison
import TermRewriting.Proofs.Equality
import TermRewriting.Proofs.Equality.Pairing
import TermRewriting.Proofs.Term.TotalOrder
import TermRewriting.Proofs.Rewriting.Lookup
import TermRewriting.Proofs.Rewriting.Price
import TermRewriting.Proofs.Rewriting.Loops
import TermRewriting.Proofs.Rewriting.Reordering
import TermRewriting.Proofs.Rewriting.Applications
import TermRewriting.Proofs.Rewriting.Limits
import TermRewriting.Proofs.Rewriting.RuleLists
import TermRewriting.Proofs.Rendering.Regrouping
import TermRewriting.Proofs.Json.Codec
import TermRewriting.Proofs.Term.NumberOrder
import TermRewriting.Proofs.Term.Sorting
import TermRewriting.Proofs.Pattern.FirstOrder
import TermRewriting.Proofs.Pattern.ShortestRuns
import TermRewriting.Proofs.Pattern.Arrangements
import TermRewriting.Proofs.Pattern.Groups
import TermRewriting.Proofs.Pattern.Literals
import TermRewriting.Proofs.Pattern.Spelling
import TermRewriting.Proofs.Replacement.Splicing
import TermRewriting.Proofs.Substitution
import TermRewriting.Proofs.Truth.Connectives
import TermRewriting.Proofs.Selection.Counting
import TermRewriting.Proofs.Rewriting.Hoisting
import TermRewriting.Proofs.Term.Generations
import TermRewriting.Proofs.Pattern.RunBounds
import TermRewriting.Proofs.Rewriting.Rebuilding
import TermRewriting.DataFormat
import TermRewriting.Proofs.DataFormat.Restoring
