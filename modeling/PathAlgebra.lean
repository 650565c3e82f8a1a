import PathAlgebra.Context
import PathAlgebra.Cursor
import PathAlgebra.Elements
import PathAlgebra.Glob.Unix
import PathAlgebra.Pattern.Language
import PathAlgebra.Relative
import PathAlgebra.Proofs.Lists
import PathAlgebra.Proofs.Resolution
import PathAlgebra.Proofs.Spelling
import PathAlgebra.Proofs.Sweeping
import PathAlgebra.Proofs.Cleaning
import PathAlgebra.Proofs.CleanedLength
import PathAlgebra.Proofs.Volumes
import PathAlgebra.Proofs.VolumeGrammar
import PathAlgebra.Proofs.CleanPaths
import PathAlgebra.Proofs.Beginnings
import PathAlgebra.Proofs.LetterCase
import PathAlgebra.Proofs.NativeSpelling
import PathAlgebra.Proofs.AbsolutePaths
import PathAlgebra.Proofs.DeviceNames
import PathAlgebra.Proofs.CursorSteps
import PathAlgebra.Proofs.CursorRuns
import PathAlgebra.Proofs.PlainPaths
import PathAlgebra.Proofs.RelativeParts
import PathAlgebra.Proofs.RelativePosix
import PathAlgebra.Proofs.RelativeWindows
import PathAlgebra.Proofs.RelativeAnswers
import PathAlgebra.Proofs.RelativeSearch
import PathAlgebra.Proofs.RelativeCleaning
import PathAlgebra.Proofs.RelativeCase
import PathAlgebra.Proofs.Directories
import PathAlgebra.Proofs.CommonLanguage
import PathAlgebra.Proofs.Splitting
import PathAlgebra.Proofs.PatternGrammar
import PathAlgebra.Proofs.PatternMatching
import PathAlgebra.Proofs.PatternRejection
import PathAlgebra.Proofs.PatternCompleteness
import PathAlgebra.Proofs.PatternComponents
import PathAlgebra.Proofs.PathParts
import PathAlgebra.Proofs.Decompositions
import PathAlgebra.Proofs.GlobExpansion
import PathAlgebra.Proofs.GlobRejection
import PathAlgebra.Proofs.UnreadableDirectories
import PathAlgebra.Proofs.WorkingDirectories
import PathAlgebra.Proofs.Recomposition
import PathAlgebra.Proofs.UnixPaths
import PathAlgebra.Proofs.AbsoluteSplits
import PathAlgebra.Proofs.OverlayEdits
import PathAlgebra.Proofs.Climbing
import PathAlgebra.Proofs.PatternChunks
import PathAlgebra.Proofs.GlobDescent
