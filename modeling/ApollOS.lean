import ApollOS.Process.CommandBuffers
import ApollOS.Process.ProgramLoading
import ApollOS.Process.Arguments
import ApollOS.Files.RtcSharing
import ApollOS.Files.FileReads
import ApollOS.Files.DirectoryReads
import ApollOS.Console.LineDiscipline
import ApollOS.Console.InterruptedRead
import ApollOS.Console.KeyBufferBounds
import ApollOS.Console.EchoedLine
import ApollOS.Console.Modifiers
import ApollOS.Console.Formats
import ApollOS.Console.TerminalIsolation
import ApollOS.Process.VideoMapping
import ApollOS.Hardware.RtcFrequency
import ApollOS.Hardware.InterruptMasks
import ApollOS.Hardware.BlockMoves
import ApollOS.Programs.GrepSession
import ApollOS.Process.Unwinding
import ApollOS.Process.MemoryIsolation
import ApollOS.Files.Volume
import ApollOS.Foundation.WordStack
import ApollOS.Process.SystemCalls
import ApollOS.Process.KernelEntry
import ApollOS.Hardware.DeviceInterrupts
import ApollOS.Files.RtcTicks
import ApollOS.Programs.FilePrinting
import ApollOS.Programs.ShellSession
