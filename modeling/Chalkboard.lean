import Chalkboard.Assembly.Perform
import Chalkboard.Assembly.Rule
import Chalkboard.Display.Listing
import Chalkboard.Display.Pause
import Chalkboard.Main
import Chalkboard.Movie.Reel
import Chalkboard.Picture.Caption
import Chalkboard.Proofs.Freshness
import Chalkboard.Proofs.Settling
import Chalkboard.Report.Picture
import Chalkboard.Report.Run
import Chalkboard.Report.Timeline
import Chalkboard.Proofs.LooserLimits
import Chalkboard.Proofs.LostBlocks
import Chalkboard.Proofs.Counting
import Chalkboard.Proofs.EnvironmentValues
import Chalkboard.Proofs.ArrayBounds
import Chalkboard.Proofs.Arrows
import Chalkboard.Proofs.LeafWrites
import Chalkboard.Proofs.Indexing
import Chalkboard.Proofs.Sizes
import Chalkboard.Proofs.TypeWalks
import Chalkboard.Proofs.Lanes
import Chalkboard.Proofs.EnumCells
import Chalkboard.Proofs.RegistryUpdates
import Chalkboard.Proofs.Checkpoints
import Chalkboard.Proofs.PrintedPaths
import Chalkboard.Proofs.SourceOrder
