import Abnf.Main
import Abnf.Index.Dump
import Abnf.Proofs.OpenDocuments
import Abnf.Proofs.Renaming
import Abnf.Proofs.Resolution
import Abnf.Proofs.RoundTrip
import Abnf.Proofs.Conformance
import Abnf.Proofs.Nesting
import Abnf.Proofs.RenameEdits
import Abnf.Proofs.FreshNames
import Abnf.Proofs.LetterCase
import Abnf.Proofs.EditorPositions
import Abnf.Proofs.LineEndings
import Abnf.Proofs.EditorCursor
import Abnf.Proofs.EditorColumns
import Abnf.Proofs.Isolation
import Abnf.Proofs.Responses
import Abnf.Proofs.RowsAndLines
import Abnf.Proofs.StoreHistory
import Abnf.Proofs.Navigation
import Abnf.Proofs.Segmentation
import Abnf.Proofs.Depth
import Abnf.Proofs.NestingLimit
import Abnf.Proofs.Innermost
import Abnf.Proofs.Logging
import Abnf.Proofs.Points
import Abnf.Proofs.LineStarts
import Abnf.Proofs.HoverBody
import Abnf.Proofs.RuleNames
import Abnf.Proofs.TrailingComments
import Abnf.Proofs.Lookups
import Abnf.Proofs.Completions
import Abnf.Proofs.Outline
import Abnf.Proofs.Links
import Abnf.Proofs.Cursor
import Abnf.Proofs.NamedTrees
import Abnf.Proofs.Overlaps
import Abnf.Proofs.Tiling
import Abnf.Proofs.EventNesting
import Abnf.Proofs.MarkerWrap
