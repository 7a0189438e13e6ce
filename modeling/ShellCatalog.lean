import ShellCatalog.AliasCommand.Written
import ShellCatalog.FileTree
import ShellCatalog.Inventory.History
import ShellCatalog.Main
import ShellCatalog.Nesting.Reached
import ShellCatalog.Scan.Log
import ShellCatalog.Scan.Schedule
import ShellCatalog.Proofs.ScheduleReport
import ShellCatalog.Proofs.PlainText
import ShellCatalog.Proofs.WordRow
import ShellCatalog.Proofs.AliasRoundTrip
import ShellCatalog.Proofs.Lookahead
import ShellCatalog.Proofs.Dedent
import ShellCatalog.Proofs.FunctionHeader
import ShellCatalog.Proofs.FunctionRoundTrip
import ShellCatalog.Proofs.BodyRewrite
import ShellCatalog.Proofs.BodyFronts
import ShellCatalog.Proofs.SettledFront
import ShellCatalog.Proofs.SettlingFronts
import ShellCatalog.Proofs.HereDocBodies
import ShellCatalog.Proofs.ExposedBody
import ShellCatalog.Proofs.InventoryContents
import ShellCatalog.Proofs.LineReading
import ShellCatalog.Proofs.CutFile
import ShellCatalog.Proofs.JoinedLines
import ShellCatalog.Proofs.LineTiling
import ShellCatalog.Proofs.TruncatedFile
import ShellCatalog.Proofs.NeutralLines
import ShellCatalog.Proofs.InsideGroup
import ShellCatalog.Proofs.LineByLine
import ShellCatalog.Proofs.BraceGroup
import ShellCatalog.Proofs.PathOrder
import ShellCatalog.Proofs.ScanReport
import ShellCatalog.Proofs.ParameterBinding
import ShellCatalog.Proofs.ParameterRoundTrip
import ShellCatalog.Proofs.EscapedText
import ShellCatalog.Proofs.DoubleQuotes
import ShellCatalog.Proofs.EndOfText
import ShellCatalog.Proofs.FinalNewline
import ShellCatalog.Proofs.DefinitionPlaces
import ShellCatalog.Proofs.GroupReading
import ShellCatalog.Proofs.ParameterList
import ShellCatalog.Proofs.LookBehind
import ShellCatalog.Proofs.OpeningLines
import ShellCatalog.Proofs.EnclosingGroups
import ShellCatalog.Proofs.BodyQueue
import ShellCatalog.Proofs.DelimiterAgreement
import ShellCatalog.Proofs.StatementTiling
import ShellCatalog.Proofs.UnquotedValue
import ShellCatalog.Proofs.BodyShape
import ShellCatalog.Proofs.IndentedBody
import ShellCatalog.Proofs.QuotedSegment
import ShellCatalog.Proofs.PositionalWords
import ShellCatalog.Proofs.ClosedStatements
import ShellCatalog.Proofs.ClosedHeaders
import ShellCatalog.Proofs.Fillers
import ShellCatalog.Proofs.FillerLines
import ShellCatalog.Proofs.BlockComment
import ShellCatalog.Proofs.LeadingParts
import ShellCatalog.Proofs.WordsBeforeComment
import ShellCatalog.Proofs.NestedCommands
import ShellCatalog.Proofs.BodyMate
import ShellCatalog.Proofs.SourceOrder
import ShellCatalog.Proofs.InventoryEquality
import ShellCatalog.Proofs.TableWidth
import ShellCatalog.Proofs.StoredText
import ShellCatalog.Proofs.StateInvariant
import ShellCatalog.Proofs.PatternAcceptance
