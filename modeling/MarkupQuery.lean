import MarkupQuery.Page.Edit
import MarkupQuery.Page.Namespaces
import MarkupQuery.Page.Output
import MarkupQuery.Proofs.Number.Texts
import MarkupQuery.Proofs.Page.Address
import MarkupQuery.Proofs.Page.Agreement
import MarkupQuery.Proofs.Page.Clearing
import MarkupQuery.Proofs.Page.DetachedOrder
import MarkupQuery.Proofs.Page.Discovery
import MarkupQuery.Proofs.Page.Entering
import MarkupQuery.Proofs.Page.Failures
import MarkupQuery.Proofs.Page.FragmentPrefixes
import MarkupQuery.Proofs.Page.JsonForm
import MarkupQuery.Proofs.Page.LegiblePaths
import MarkupQuery.Proofs.Page.Merging
import MarkupQuery.Proofs.Page.MissingPrefixes
import MarkupQuery.Proofs.Page.NamespaceChange
import MarkupQuery.Proofs.Page.Removal
import MarkupQuery.Proofs.Page.Replacement
import MarkupQuery.Proofs.Page.ScopedReading
import MarkupQuery.Proofs.Page.SelectorLists
import MarkupQuery.Proofs.Page.Snapshots
import MarkupQuery.Proofs.Page.TableHistory
import MarkupQuery.Proofs.Query.Comparison
import MarkupQuery.Proofs.Query.Converse
import MarkupQuery.Proofs.Query.Correspondence.Evaluation
import MarkupQuery.Proofs.Query.Gaps
import MarkupQuery.Proofs.Query.Mirrored
import MarkupQuery.Proofs.Query.Partition
import MarkupQuery.Proofs.Query.Printed
import MarkupQuery.Proofs.Query.Renaming
import MarkupQuery.Proofs.Query.SpacedCalls
import MarkupQuery.Proofs.Query.SpacedParse
import MarkupQuery.Proofs.Query.SplitUnions
import MarkupQuery.Proofs.Selector.AttributeTests
import MarkupQuery.Proofs.Selector.Grammar
import MarkupQuery.Proofs.Tree.Atomicity
import MarkupQuery.Proofs.Tree.Copies
import MarkupQuery.Proofs.Tree.Defaults
import MarkupQuery.Proofs.Tree.Elementwise
import MarkupQuery.Proofs.Tree.Extended
import MarkupQuery.Proofs.Tree.HintedFragments
import MarkupQuery.Proofs.Tree.Iteration
import MarkupQuery.Proofs.Tree.Plain
import MarkupQuery.Proofs.Tree.Portable
import MarkupQuery.Proofs.Tree.Prefixes
import MarkupQuery.Proofs.Tree.Reassembled
import MarkupQuery.Proofs.Tree.Refusals
import MarkupQuery.Proofs.Tree.RoundTrip
import MarkupQuery.Proofs.Tree.Standing
import MarkupQuery.Proofs.Tree.StartTags
import MarkupQuery.Proofs.Xml.Legible
import MarkupQuery.Query.Sample
