import LiveDoc.Assoc
import LiveDoc.Text.Blank
import LiveDoc.Text.Case
import LiveDoc.Text.Distance
import LiveDoc.Text.Split
import LiveDoc.Number.Layout
import LiveDoc.Number.Numeral
import LiveDoc.Value.Access
import LiveDoc.Json.Writer
import LiveDoc.Json.Reader
import LiveDoc.Variant.Dimension
import LiveDoc.Path
import LiveDoc.Variant.Ranking
import LiveDoc.Plural
import LiveDoc.Suggestion
import LiveDoc.Template.Parse
import LiveDoc.Document.Remove
import LiveDoc.Document.Survey
import LiveDoc.Document.Load
import LiveDoc.Evaluation.Query
import LiveDoc.Evaluation.Read
import LiveDoc.Tree
import LiveDoc.Workbench
import LiveDoc.Main
import LiveDoc.Proofs.CallContexts
import LiveDoc.Proofs.FailedWrite
import LiveDoc.Proofs.Transparency
import LiveDoc.Proofs.WriteLog
import LiveDoc.Proofs.ChangedPaths
import LiveDoc.Proofs.Outliving
import LiveDoc.Proofs.RemovedItems
import LiveDoc.Proofs.WrittenSlots
import LiveDoc.Proofs.ContextChanges
import LiveDoc.Proofs.Barrier
import LiveDoc.Proofs.AlikePlans
import LiveDoc.Proofs.CompositeReads
import LiveDoc.Proofs.DepthLimits
import LiveDoc.Proofs.Memoization
import LiveDoc.Proofs.Stopping
import LiveDoc.Proofs.CleanResults
import LiveDoc.Proofs.Clearing
import LiveDoc.Proofs.LastWrite
import LiveDoc.Proofs.SingleSlots
import LiveDoc.Proofs.ReadBack
import LiveDoc.Proofs.Undoing
import LiveDoc.Proofs.ReferenceWalks
import LiveDoc.Proofs.ReservedKeys
import LiveDoc.Proofs.SharedFingerprints
import LiveDoc.Proofs.ContextLayers
import LiveDoc.Proofs.VariantChoice
import LiveDoc.Proofs.KeyTexts
import LiveDoc.Proofs.ReportedWinners
import LiveDoc.Proofs.WrittenChains
import LiveDoc.Proofs.Reporting
import LiveDoc.Proofs.SlotReferences
import LiveDoc.Proofs.IndexedReferences
import LiveDoc.Proofs.ShownMappings
import LiveDoc.Proofs.Fields
import LiveDoc.Proofs.CheckedExpressions
import LiveDoc.Proofs.RepeatedLooks
import LiveDoc.Proofs.IntegerArithmetic
import LiveDoc.Proofs.IntegerComparison
import LiveDoc.Proofs.PathForms
import LiveDoc.Proofs.SuggestedNames
import LiveDoc.Proofs.SyntaxErrors
import LiveDoc.Proofs.LeftAsFound
