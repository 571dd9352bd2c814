import RedoLog.Proofs.BatchPolicy
import RedoLog.Proofs.ClosedSlots
import RedoLog.Proofs.Completions
import RedoLog.Proofs.CutAtFilter
import RedoLog.Proofs.DecodedRecords
import RedoLog.Proofs.Derivations
import RedoLog.Proofs.FirstWhere
import RedoLog.Proofs.Gaps
import RedoLog.Proofs.Layout
import RedoLog.Proofs.LiteralTexts
import RedoLog.Proofs.LoadedRecords
import RedoLog.Proofs.Locations
import RedoLog.Proofs.NodePlaces
import RedoLog.Proofs.NodeTokens
import RedoLog.Proofs.NumberLiterals
import RedoLog.Proofs.Positions
import RedoLog.Proofs.PromptProblems
import RedoLog.Proofs.ReachableErrors
import RedoLog.Proofs.Recovery
import RedoLog.Proofs.ReportedFaults
import RedoLog.Proofs.SettledBatches
import RedoLog.Proofs.StatedColumns
import RedoLog.Proofs.StoredColumns
import RedoLog.Proofs.TiledSource
import RedoLog.Proofs.TokenTexts
import RedoLog.Proofs.TrimmedColumns
import RedoLog.Proofs.ValueReplay
import RedoLog.Proofs.ViablePrefixes
import RedoLog.Proofs.WrittenRows
