import SynthesisRepo.Rtlil.Netlist
import SynthesisRepo.Rtlil.SigMap
import SynthesisRepo.Clkbufmap.Options
import SynthesisRepo.Clkbufmap.Tags
import SynthesisRepo.Clkbufmap.Inverters
import SynthesisRepo.Clkbufmap.Insert
import SynthesisRepo.Clkbufmap.Reconnect
import SynthesisRepo.Clkbufmap.Execute
import SynthesisRepo.Verified.ModuleQueue
import SynthesisRepo.Verified.InverterConfluence
import SynthesisRepo.Verified.SecondaryBuffers
import SynthesisRepo.Verified.InsertionFrame
import SynthesisRepo.Verified.ReconnectFrame
import SynthesisRepo.Verified.ModulePass
import SynthesisRepo.Verified.Ports
import SynthesisRepo.Verified.Chains
import SynthesisRepo.Verified.Drivers
import SynthesisRepo.Verified.InverterLookups
import SynthesisRepo.Verified.ModuleLoop
import SynthesisRepo.Verified.Publication
import SynthesisRepo.LogPipe.Common
import SynthesisRepo.LogPipe.Utf8
import SynthesisRepo.LogPipe.Json
import SynthesisRepo.Verified.LogCache
import SynthesisRepo.Verified.LogLabels
import SynthesisRepo.Verified.LogPackets
