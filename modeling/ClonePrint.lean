import ClonePrint.Main
import ClonePrint.Settings.Writing
import ClonePrint.Proofs.Dispatching
import ClonePrint.Proofs.Journal
import ClonePrint.Proofs.Channels
import ClonePrint.Proofs.ExactlyOnce
import ClonePrint.Proofs.Joining
import ClonePrint.Proofs.Buffering
import ClonePrint.Proofs.Flow
import ClonePrint.Proofs.Deciding
import ClonePrint.Proofs.Pieces
import ClonePrint.Proofs.Coverage
import ClonePrint.Proofs.Strand
import ClonePrint.Proofs.Share
import ClonePrint.Proofs.Seams
import ClonePrint.Proofs.Reassembly
import ClonePrint.Proofs.Streaming
import ClonePrint.Proofs.Custody
import ClonePrint.Proofs.Staffing
import ClonePrint.Proofs.Bookkeeping
import ClonePrint.Proofs.JobBound
import ClonePrint.Proofs.Arena
import ClonePrint.Proofs.Outline
import ClonePrint.Proofs.Kinship
import ClonePrint.Proofs.Standing
import ClonePrint.Proofs.Consistency
import ClonePrint.Proofs.Enclosure
import ClonePrint.Proofs.Recovery
import ClonePrint.Proofs.Document
import ClonePrint.Proofs.Scanning
import ClonePrint.Proofs.Spans
import ClonePrint.Proofs.Rendition
import ClonePrint.Proofs.Depiction
import ClonePrint.Proofs.Likeness
import ClonePrint.Proofs.Agreement
import ClonePrint.Proofs.JsonText
import ClonePrint.Proofs.Framing
import ClonePrint.Proofs.WireFormat
import ClonePrint.Proofs.Service
import ClonePrint.Proofs.Labelling
import ClonePrint.Proofs.Transmission
import ClonePrint.Proofs.Losses
import ClonePrint.Proofs.Register
import ClonePrint.Proofs.Windows
import ClonePrint.Proofs.TopLevel
import ClonePrint.Proofs.Whereabouts
import ClonePrint.Proofs.Division
import ClonePrint.Proofs.Selection
import ClonePrint.Proofs.Places
import ClonePrint.Proofs.Counterparts
import ClonePrint.Proofs.OwnName
import ClonePrint.Proofs.Segments
import ClonePrint.Proofs.Replacement
import ClonePrint.Proofs.Rephrasing
import ClonePrint.Proofs.Signals
import ClonePrint.Proofs.MissingTool
import ClonePrint.Proofs.Bracketing
import ClonePrint.Proofs.Shifting
import ClonePrint.Proofs.Breakage
