import SurfaceLanguage.Batch.LexAll
import SurfaceLanguage.Tree.Equality
import SurfaceLanguage.Tree.Label
import SurfaceLanguage.Tree.Printer
import SurfaceLanguage.Proofs.Lexing.MaximalMunch
import SurfaceLanguage.Proofs.Lexing.LineColumn
import SurfaceLanguage.Proofs.Lexing.Layout
import SurfaceLanguage.Proofs.Lexing.Extension
import SurfaceLanguage.Proofs.Lexing.Lines
import SurfaceLanguage.Proofs.Batch.Sequential
import SurfaceLanguage.Proofs.Tree.UniqueReadability
import SurfaceLanguage.Proofs.Lexing.WordTables
import SurfaceLanguage.Proofs.Lexing.Lookahead
import SurfaceLanguage.Proofs.Lexing.TokenEnds
import SurfaceLanguage.Proofs.Number.Letters
import SurfaceLanguage.Proofs.Tree.Fields
import SurfaceLanguage.Proofs.Tree.Spelled
import SurfaceLanguage.Proofs.Tree.Bracketed
import SurfaceLanguage.Proofs.Tree.Verbatim
import SurfaceLanguage.Proofs.Tree.Comparison
import SurfaceLanguage.Proofs.Tree.PartialEquivalence
import SurfaceLanguage.Proofs.Report.Tokens
import SurfaceLanguage.Proofs.Report.Errors
import SurfaceLanguage.Proofs.Types.PrefixCode
import SurfaceLanguage.Proofs.Types.Tokens
import SurfaceLanguage.Proofs.Lexing.Reads
import SurfaceLanguage.Proofs.Lexing.Safety
import SurfaceLanguage.Proofs.Report.Placeholders
