import ImageSpec.CommandLine
import ImageSpec.Main
import ImageSpec.Proofs.Walk
import ImageSpec.Proofs.Search
import ImageSpec.Proofs.Fresh
import ImageSpec.Proofs.UnitOrder
import ImageSpec.Proofs.Units
import ImageSpec.Proofs.Prerequisites
import ImageSpec.Proofs.Legal
import ImageSpec.Proofs.Composition
import ImageSpec.Proofs.Words
import ImageSpec.Proofs.OneLine
import ImageSpec.Proofs.Openings
import ImageSpec.Proofs.Conservation
import ImageSpec.Proofs.Builds
import ImageSpec.Proofs.Grammar
import ImageSpec.Proofs.Layout
import ImageSpec.Proofs.Reformatting
import ImageSpec.Proofs.TrailingBackslash
import ImageSpec.Proofs.VersionOrder
import ImageSpec.Proofs.Selection
import ImageSpec.Proofs.Defects
import ImageSpec.Proofs.Lookups
import ImageSpec.Proofs.Caching
import ImageSpec.Proofs.EarliestFault
import ImageSpec.Proofs.JsonText
import ImageSpec.Proofs.Mentions
import ImageSpec.Proofs.Writing
import ImageSpec.Proofs.CatalogText
import ImageSpec.Proofs.CatalogStore
import ImageSpec.Proofs.Extension
import ImageSpec.Proofs.Continuation
import ImageSpec.Proofs.BaseFirst
import ImageSpec.Proofs.Placement
import ImageSpec.Proofs.ErrorPositions
import ImageSpec.Proofs.PostOrder
import ImageSpec.Proofs.CommandForms
import ImageSpec.Proofs.Candidates
import ImageSpec.Proofs.Nesting
import ImageSpec.Proofs.Pins
import ImageSpec.Proofs.ConstraintSeparator
import ImageSpec.Proofs.RegistryPrefix
import ImageSpec.Proofs.Memoization
import ImageSpec.Proofs.LexicalErrors
import ImageSpec.Proofs.ContentEncoding
import ImageSpec.Proofs.CopyPaths
import ImageSpec.Proofs.ReadingOrder
import ImageSpec.Proofs.ValidPrefix
import ImageSpec.Proofs.Assignments
import ImageSpec.Proofs.PlanRows
import ImageSpec.Proofs.Placeholders
import ImageSpec.Proofs.LookupUrls
import ImageSpec.Proofs.Spellings
