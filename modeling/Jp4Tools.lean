import Jp4Tools.CountedLoops
import Jp4Tools.WriteLogs
import Jp4Tools.JpegFrameSetup
import Jp4Tools.CoefficientController
import Jp4Tools.MainController
import Jp4Tools.TiledScanCoverage
import Jp4Tools.MachineIntegers
import Jp4Tools.Deblocking
import Jp4Tools.Scanlines
import Jp4Tools.BayerPlacement
import Jp4Tools.ElphelDng
import Jp4Tools.CompressorSetup
import Jp4Tools.CompressionController
import Jp4Tools.StreamOrder
import Jp4Tools.BitFields
import Jp4Tools.MakerNote
import Jp4Tools.Jp4Object
import Jp4Tools.CursorScan
import Jp4Tools.Gamma
import Jp4Tools.WhileLoops
import Jp4Tools.MovieFrames
import Jp4Tools.Printf
import Jp4Tools.MovieConversion
import Jp4Tools.MovieReads
import Jp4Tools.FrameNames
import Jp4Tools.MovieRange
import Jp4Tools.PiecewiseLinear
import Jp4Tools.GammaCurve
import Jp4Tools.LinearizationTable
import Jp4Tools.MakerNoteReads
import Jp4Tools.VideoStream
import Jp4Tools.OutputNames
import Jp4Tools.CStrings
import Jp4Tools.PrintCalls
import Jp4Tools.SourcePaths
import Jp4Tools.PathBuffers
import Jp4Tools.SourceClassification
import Jp4Tools.ExifEntries
import Jp4Tools.DngMetadata
import Jp4Tools.MetadataTransfer
import Jp4Tools.GpsSeparation
import Jp4Tools.SwapLogs
import Jp4Tools.ImageFlips
import Jp4Tools.Words
import Jp4Tools.PgmText
import Jp4Tools.MosaicOrientation
import Jp4Tools.IteratorRange
import Jp4Tools.BufferedDecoding
import Jp4Tools.ProgressLines
import Jp4Tools.GuiCommand
import Jp4Tools.StdioManagers
import Jp4Tools.RestartIntervals
import Jp4Tools.GeneratedTables
import Jp4Tools.StatisticsPass
