import ClassDiagram.Text.Word
import ClassDiagram.Text.Printable
import ClassDiagram.Text.Blank
import ClassDiagram.Text.Lines
import ClassDiagram.Model.Project
import ClassDiagram.Diagram.Reader
import ClassDiagram.Diagram.Reading
import ClassDiagram.Diagram.Writer
import ClassDiagram.Java.Missing
import ClassDiagram.Java.Splice
import ClassDiagram.Java.Lexer
import ClassDiagram.Java.Grammar
import ClassDiagram.Java.Outline
import ClassDiagram.Text.Quoted
import ClassDiagram.Files.Disk
import ClassDiagram.Files.Glob
import ClassDiagram.Extraction
import ClassDiagram.Generation
import ClassDiagram.Diagram.File
import ClassDiagram.Config.Settings
import ClassDiagram.Command.Run
import ClassDiagram.Main
import ClassDiagram.Proofs.Blanks
import ClassDiagram.Proofs.JoinedTexts
import ClassDiagram.Proofs.CleanProject
import ClassDiagram.Proofs.MemberLines
import ClassDiagram.Proofs.HeaderLines
import ClassDiagram.Proofs.DiagramBlocks
import ClassDiagram.Proofs.PackageTree
import ClassDiagram.Proofs.DiagramRoundTrip
import ClassDiagram.Proofs.Remainders
import ClassDiagram.Proofs.TokenTrees
import ClassDiagram.Proofs.OutlineNames
import ClassDiagram.Proofs.ScannedTree
import ClassDiagram.Proofs.ExtractionRoundTrip
import ClassDiagram.Proofs.Walks
import ClassDiagram.Proofs.DiskChanges
import ClassDiagram.Proofs.Regeneration
import ClassDiagram.Proofs.BareTrees
import ClassDiagram.Proofs.BodyPieces
import ClassDiagram.Proofs.GeneratedMembers
import ClassDiagram.Proofs.SplicedText
import ClassDiagram.Proofs.DottedNames
import ClassDiagram.Proofs.EnumBodies
import ClassDiagram.Proofs.FileWrites
import ClassDiagram.Proofs.GeneratedTree
import ClassDiagram.Proofs.Insertions
import ClassDiagram.Proofs.RegeneratedDiagram
import ClassDiagram.Proofs.OnePassReading
import ClassDiagram.Proofs.PathPlaces
import ClassDiagram.Proofs.ConfinedGeneration
import ClassDiagram.Proofs.EnumMerges
import ClassDiagram.Proofs.IncrementalGeneration
import ClassDiagram.Proofs.CollapsedPackages
import ClassDiagram.Proofs.Normalization
import ClassDiagram.Proofs.ContainmentArrows
import ClassDiagram.Proofs.NameOrder
import ClassDiagram.Proofs.DirectoryWalk
import ClassDiagram.Proofs.MirroredTree
import ClassDiagram.Proofs.GenerationReport
import ClassDiagram.Proofs.BodyLines
import ClassDiagram.Proofs.DecidedReadings
import ClassDiagram.Proofs.ClassTypes
import ClassDiagram.Proofs.SupertypeNames
import ClassDiagram.Proofs.BodyAnchors
import ClassDiagram.Proofs.LexedPlaces
import ClassDiagram.Proofs.SafeAnchors
import ClassDiagram.Proofs.GrownFiles
import ClassDiagram.Proofs.CommandEffects
import ClassDiagram.Proofs.PrunedTree
import ClassDiagram.Proofs.DirectoryChains
import ClassDiagram.Proofs.CollapsedGeneration
import ClassDiagram.Proofs.TreeShapes
import ClassDiagram.Proofs.FormRuns
import ClassDiagram.Proofs.CommaCuts
import ClassDiagram.Proofs.LastingHeadings
import ClassDiagram.Proofs.MemberReadings
import ClassDiagram.Proofs.SharedParts
import ClassDiagram.Proofs.SharedMembers
import ClassDiagram.Proofs.TokenSpacing
import ClassDiagram.Proofs.MethodLines
import ClassDiagram.Proofs.LegibleMembers
import ClassDiagram.Proofs.BlockTitles
import ClassDiagram.Proofs.RestatedHeaders
import ClassDiagram.Proofs.DrawnDiagrams
import ClassDiagram.Proofs.ReplayedBlocks
import ClassDiagram.Proofs.BlockDepths
import ClassDiagram.Proofs.SpilledBlocks
import ClassDiagram.Proofs.SettledDiagrams
