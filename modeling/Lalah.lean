import Lalah.InteractionProgram
import Lalah.RelyGuarantee
import Lalah.ByteMemory
import Lalah.StreamWindow
import Lalah.ShmContract
import Lalah.AudioRing
import Lalah.AudioRead
import Lalah.AudioTearFreedom
import Lalah.LatencyQueue
import Lalah.AudioSession
import Lalah.BoundedQueue
import Lalah.FrameAlignment
import Lalah.ProducerRestart
import Lalah.AttachHandshake
import Lalah.ShmVideoContract
import Lalah.RegionSplit
import Lalah.VideoRing
import Lalah.VideoTearFreedom
import Lalah.FrameLayout
import Lalah.VideoBounds
import Lalah.CheckedProgram
import Lalah.AudioBounds
import Lalah.HostSizing
import Lalah.AudioFormatParse
import Lalah.GatedRecord
import Lalah.PublicationGates
import Lalah.RestingRing
import Lalah.PacketBoundary
import Lalah.PlaybackDiagnosis
import Lalah.VideoForwarder
import Lalah.FrameOrder
import Lalah.PagePipe
import Lalah.PipeFraming
import Lalah.AudioPipeline
import Lalah.FormatHandover
import Lalah.FrameContent
import Lalah.PlaybackStats
import Lalah.PlayedStream
import Lalah.VideoPipeline
import Lalah.DeviceWalk
import Lalah.KeepAliveHandshake
import Lalah.DshowCapture
import Lalah.DshowSession
import Lalah.ArgumentLoop
import Lalah.HostArguments
import Lalah.MapIvshmem
import Lalah.VmArguments
import Lalah.VmProcess
import Lalah.HostProcess
