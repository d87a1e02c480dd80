import Koncepcja.Asic.BatchSeams
import Koncepcja.Asic.DmaPrograms
import Koncepcja.Debug.Exploration
import Koncepcja.Lib.Search
import Koncepcja.M4.HttpRecovery
import Koncepcja.Input.NeverStuck
import Koncepcja.Input.RemoteRun
import Koncepcja.Input.BufferedKeys
import Koncepcja.Expansion.Mailbox
import Koncepcja.Cpm.NoInterference
import Koncepcja.Disk.FluxConverters
import Koncepcja.Expansion.RomFlags
import Koncepcja.Expansion.ReadBurst
import Koncepcja.Disk.FluxPll
import Koncepcja.Disk.FormatCommand
import Koncepcja.Disk.DskAgreement
import Koncepcja.Disk.HfeRoundTrip
import Koncepcja.Disk.TrackRoundTrip
import Koncepcja.Disk.HfeDisk
import Koncepcja.Sound.AudioDrain
import Koncepcja.Memory.FastTables
import Koncepcja.Serial.LinkLossless
import Koncepcja.Slots.DriveRoundTrip
import Koncepcja.Tape.Drift
import Koncepcja.Tape.Playback
import Koncepcja.Video.BatchCells
import Koncepcja.Video.FrameGeometry
import Koncepcja.Z80.Agreement
import Koncepcja.Subcycle.LineIn
import Koncepcja.Subcycle.RecordReplay
import Koncepcja.Z80.Interrupts
import Koncepcja.Tape.Ordinals
import Koncepcja.Ipf.Scan
import Koncepcja.Serial.FlowControl
import Koncepcja.Symbiface.Mouse
import Koncepcja.Symbiface.WriteGuard
import Koncepcja.Symbiface.WriteThenRead
import Koncepcja.M4.Commands
import Koncepcja.M4.InBounds
import Koncepcja.M4.CopyBuffer
import Koncepcja.Debug.Pokes
import Koncepcja.Debug.SearchEngine
import Koncepcja.Lib.Separator
import Koncepcja.Cpm.HostNames
import Koncepcja.Cpm.Listing
import Koncepcja.Cpm.DeleteFile
import Koncepcja.Lib.Numerals
import Koncepcja.Lib.Fields
import Koncepcja.Slots.FormatDescription
import Koncepcja.Lib.CountedLoop
import Koncepcja.Slots.ParseBounds
import Koncepcja.Slots.SectorEditor
import Koncepcja.Slots.Cartridge
import Koncepcja.Lib.BitPacker
import Koncepcja.Tape.BlockSizes
import Koncepcja.Tape.VocImport
import Koncepcja.Z80.BatchEnds
import Koncepcja.Sound.Envelope
import Koncepcja.Z80.BlockCopy
import Koncepcja.Input.SessionRecording
import Koncepcja.Disk.FluxExact
import Koncepcja.Disk.DskReads
import Koncepcja.Disk.CommandProtocol
import Koncepcja.Disk.A2rRevolution
import Koncepcja.Disk.FluxDskParsed
import Koncepcja.Input.AmxMouse
import Koncepcja.Debug.Probe
import Koncepcja.Debug.Symfile
import Koncepcja.Input.TelnetOutput
import Koncepcja.Input.TelnetInput
import Koncepcja.Lib.OutFile
import Koncepcja.Lib.Riff
import Koncepcja.Video.AviRecorder
import Koncepcja.Lib.KeyedMap
import Koncepcja.Configuration.Store
import Koncepcja.Configuration.RoundTrip
import Koncepcja.Plotter.Parity
import Koncepcja.Slots.ZipExact
import Koncepcja.Debug.Expression
import Koncepcja.Debug.ExpressionRoundTrip
import Koncepcja.Disk.KryoFlux
import Koncepcja.Disk.KryoFluxScan
import Koncepcja.Disk.KryoFluxRevolutions
