import OtaPack.Main
import OtaPack.Files.Host
import OtaPack.Transfer.Parse
import OtaPack.Proofs.Lzss.RoundTrip
import OtaPack.Proofs.Container.Delivery
import OtaPack.Proofs.Crc32.Burst
import OtaPack.Proofs.Container.Corruption
import OtaPack.Proofs.Base64
import OtaPack.Proofs.Json.Decimal
import OtaPack.Proofs.Json.Quoted
import OtaPack.Proofs.Transfer.RoundTrip
import OtaPack.Proofs.Container.Recovery
import OtaPack.Proofs.Files.Directory
import OtaPack.Proofs.Files.Output
import OtaPack.Proofs.Job.AllOrNothing
import OtaPack.Proofs.Lzss.Endless
import OtaPack.Proofs.Lzss.Truncation
import OtaPack.Proofs.Lzss.Exhaustive
import OtaPack.Proofs.CommandLine.Asks
import OtaPack.Proofs.Lzss.Size
import OtaPack.Proofs.Job.Stepwise
import OtaPack.Proofs.Lzss.Padding
import OtaPack.Proofs.Lzss.Extension
import OtaPack.Proofs.Lzss.Fewest
import OtaPack.Proofs.Base64.Text
import OtaPack.Proofs.Transfer.Alike
import OtaPack.Proofs.Lzss.Safety
import OtaPack.Proofs.Bits.Fields
import OtaPack.Proofs.CommandLine.Boards
import OtaPack.Proofs.Job.Progress
import OtaPack.Proofs.Job.Stopped
import OtaPack.Proofs.Transfer.Truncation
