import StackLang.Main
import StackLang.Proofs.AsciiText
import StackLang.Proofs.Characters
import StackLang.Proofs.Identifiers
import StackLang.Proofs.BlockScan
import StackLang.Proofs.FrontEnd
import StackLang.Proofs.VerifyMeaning
import StackLang.Proofs.LineReading
import StackLang.Proofs.ArtifactReading
import StackLang.Proofs.ArtifactClosure
import StackLang.Proofs.LabelScopes
import StackLang.Proofs.Declarations
import StackLang.Proofs.DeclarationOrder
import StackLang.Proofs.SymbolNames
import StackLang.Proofs.Layout
import StackLang.Proofs.GeneratedAssembly
import StackLang.Proofs.Machine
import StackLang.Proofs.SourceSemantics
import StackLang.Proofs.StackView
import StackLang.Proofs.WordArithmetic
import StackLang.Proofs.PrintRoutine
import StackLang.Proofs.PowerLoop
import StackLang.Proofs.Templates
import StackLang.Proofs.Linking
import StackLang.Proofs.GeneratedCode
import StackLang.Proofs.CheckSoundness
import StackLang.Proofs.ControlPaths
import StackLang.Proofs.DataSection
import StackLang.Proofs.Flattening
import StackLang.Proofs.CodeIndependence
import StackLang.Proofs.Splicing
import StackLang.Proofs.IncludeOnce
import StackLang.Proofs.Scanning
import StackLang.Proofs.BlockErrors
import StackLang.Proofs.ErrorPlaces
import StackLang.Proofs.Directives
import StackLang.Proofs.Paths
import StackLang.Proofs.CommandCourse
import StackLang.Proofs.SourceKept
import StackLang.Proofs.MacroExpansion
import StackLang.Proofs.QuotedLiterals
import StackLang.Proofs.TokenPositions
import StackLang.Proofs.CheckFrame
import StackLang.Proofs.FoldedDivision
import StackLang.Proofs.ArrayParts
import StackLang.Proofs.ArrayLiterals
import StackLang.Proofs.UnreadFiles
import StackLang.Proofs.RefusedDeclarations
import StackLang.Proofs.Immediates
import StackLang.Proofs.PrintedNumbers
import StackLang.Proofs.ArtifactWriting
import StackLang.Proofs.DataOperands
import StackLang.Proofs.VerifierHistory
import StackLang.Proofs.BuildCleanup
import StackLang.Proofs.OpenBlocks
import StackLang.Proofs.FoldedPower
