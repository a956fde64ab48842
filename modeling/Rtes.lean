import Rtes.Brighten
import Rtes.BtvidFrames
import Rtes.CaptureDump
import Rtes.CaptureImage
import Rtes.CaptureLoop
import Rtes.CaptureRing
import Rtes.ClockDelta
import Rtes.CrcErrors
import Rtes.DeadlockTimeout
import Rtes.EccRun
import Rtes.FeasLub
import Rtes.FeasRange
import Rtes.HeapMqOwner
import Rtes.IncDec
import Rtes.LcmAgree
import Rtes.Md5
import Rtes.MicrocodeRun
import Rtes.PciCards
import Rtes.PciRouting
import Rtes.RaidTruncated
import Rtes.SeqAbsDelay
import Rtes.SeqHarmless
import Rtes.SeqLoad
import Rtes.SeqShutdown
import Rtes.SerialEcho
import Rtes.SerialLine
import Rtes.SerialModes
import Rtes.Sha1Hmac
import Rtes.Sha2Stream
import Rtes.SieveBounds
import Rtes.SieveInit
import Rtes.SieveSet
import Rtes.TcpLinger
