import SceneSearch.Main
import SceneSearch.Search.Session
import SceneSearch.Proofs.Search.Meaning
import SceneSearch.Proofs.Search.Outcome
import SceneSearch.Proofs.Scene.Import
import SceneSearch.Proofs.Search.Hidden
import SceneSearch.Proofs.Search.Leftover
import SceneSearch.Proofs.Query.Extraction
import SceneSearch.Proofs.Query.Cutting
import SceneSearch.Proofs.Query.Continuation
import SceneSearch.Proofs.Search.Nesting
import SceneSearch.Proofs.Search.Drilling
import SceneSearch.Proofs.Number.Difference
import SceneSearch.Proofs.Number.Range
import SceneSearch.Proofs.Sorting.Ascending
import SceneSearch.Proofs.Sorting.Merging
import SceneSearch.Proofs.Sorting.Sorted
import SceneSearch.Proofs.Scene.Address
import SceneSearch.Proofs.Search.ReadingOrder
import SceneSearch.Proofs.Query.Literals
import SceneSearch.Proofs.Query.Directive
import SceneSearch.Proofs.Search.Directive
import SceneSearch.Proofs.Query.Suffix
import SceneSearch.Proofs.Search.Nodes
import SceneSearch.Proofs.Search.Modes
import SceneSearch.Proofs.Search.ResultOrder
import SceneSearch.Proofs.Scene.Export
import SceneSearch.Proofs.Search.Narrowing
import SceneSearch.Proofs.Query.Rank
import SceneSearch.Proofs.Search.Ranking
import SceneSearch.Proofs.Search.Failures
import SceneSearch.Proofs.Search.EachScope
import SceneSearch.Proofs.Query.Canonical
import SceneSearch.Proofs.Query.EachScope
import SceneSearch.Proofs.Scene.Refusal
import SceneSearch.Proofs.Query.FirstMatch
import SceneSearch.Proofs.Search.Visits
import SceneSearch.Proofs.Search.FirstMatch
import SceneSearch.Proofs.Query.Shape
import SceneSearch.Proofs.Query.Addition
import SceneSearch.Proofs.Query.Words
import SceneSearch.Proofs.Number.Whole
import SceneSearch.Proofs.Number.Level
import SceneSearch.Proofs.Search.Rows
import SceneSearch.Proofs.Scene.Reordering
import SceneSearch.Proofs.Search.PaintOrder
import SceneSearch.Proofs.Query.Tokens
import SceneSearch.Proofs.Query.Refusal
import SceneSearch.Proofs.Query.ExactName
import SceneSearch.Proofs.Query.LetterCase
import SceneSearch.Proofs.Search.Recency
import SceneSearch.Proofs.Search.Antichain
import SceneSearch.Proofs.Search.FrontFirst
import SceneSearch.Proofs.Search.Parting
import SceneSearch.Proofs.Search.Preorder
import SceneSearch.Proofs.Number.Rounding
import SceneSearch.Proofs.Search.Banding
import SceneSearch.Proofs.Search.Cadence
import SceneSearch.Proofs.Service.Requests
import SceneSearch.Proofs.State.Steps
import SceneSearch.Proofs.Scene.Outline
