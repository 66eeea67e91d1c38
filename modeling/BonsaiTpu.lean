import BonsaiTpu.Base.Machine
import BonsaiTpu.Base.PartSelect
import BonsaiTpu.Base.Pieces
import BonsaiTpu.Base.Blocks
import BonsaiTpu.Tile.Array
import BonsaiTpu.Tile.Streaming
import BonsaiTpu.Tile.Design
import BonsaiTpu.Tile.Phases
import BonsaiTpu.Tile.Run
import BonsaiTpu.Tile.Commands
import BonsaiTpu.Tile.Accumulators
import BonsaiTpu.Host.Protocol
import BonsaiTpu.Host.Schedule
import BonsaiTpu.Firmware.Main
import BonsaiTpu.Firmware.Macro
import BonsaiTpu.Host.Usb
import BonsaiTpu.Host.Parity
import BonsaiTpu.Host.Matmul
import BonsaiTpu.Host.Exact
import BonsaiTpu.Host.Results
import BonsaiTpu.Board.Allocator
import BonsaiTpu.Board.Placement
import BonsaiTpu.Board.Invariant
import BonsaiTpu.Board.Memory
import BonsaiTpu.Base.Traced
import BonsaiTpu.Board.Graph
import BonsaiTpu.Base.Overlap
import BonsaiTpu.Board.InFlight
import BonsaiTpu.Board.Pipeline
import BonsaiTpu.Kernel.Datapath
import BonsaiTpu.Kernel.Design
import BonsaiTpu.Kernel.Sequence
import BonsaiTpu.Kernel.Reduce
import BonsaiTpu.Kernel.Phases
import BonsaiTpu.Kernel.Run
import BonsaiTpu.Board.Matmul
import BonsaiTpu.Board.Capacity
import BonsaiTpu.Backend.Lowering
import BonsaiTpu.Base.Words
import BonsaiTpu.Layout.Pack
import BonsaiTpu.Kernel.Latch
import BonsaiTpu.Ps.Weights
import BonsaiTpu.Layout.Readers
import BonsaiTpu.Tile.Clear
import BonsaiTpu.Base.ByteReader
import BonsaiTpu.Wire.Framing
import BonsaiTpu.Wire.Server
import BonsaiTpu.Board.OutOfMemory
import BonsaiTpu.Backend.Nodes
import BonsaiTpu.Backend.Acceptance
import BonsaiTpu.Backend.Attention
import BonsaiTpu.Backend.Buffer
import BonsaiTpu.Firmware.Frames
import BonsaiTpu.Base.Crc
import BonsaiTpu.Base.NorFlash
import BonsaiTpu.Firmware.Flash
import BonsaiTpu.Firmware.Staging
import BonsaiTpu.Firmware.Bitstream
import BonsaiTpu.Wire.Client
import BonsaiTpu.Wire.Sessions
import BonsaiTpu.Wire.Correlation
import BonsaiTpu.Ps.Norm
import BonsaiTpu.Backend.Fusion
import BonsaiTpu.Base.Floats
import BonsaiTpu.Ps.Half
import BonsaiTpu.Ps.Scales
import BonsaiTpu.Kernel.Adder
import BonsaiTpu.Kernel.Multiplier
import BonsaiTpu.Kernel.Conversions
import BonsaiTpu.Kernel.Reducer
import BonsaiTpu.Kernel.Golden
import BonsaiTpu.Board.Views
import BonsaiTpu.Board.Addresses
import BonsaiTpu.Ps.ZeroCopy
import BonsaiTpu.Board.Chunks
import BonsaiTpu.Board.Async
import BonsaiTpu.Board.Coherence
import BonsaiTpu.Board.Writes
import BonsaiTpu.Ps.Rows
import BonsaiTpu.Ps.GetRows
import BonsaiTpu.Ps.SetRows
import BonsaiTpu.Layout.Parts
import BonsaiTpu.Layout.Stream
import BonsaiTpu.Layout.Merge
import BonsaiTpu.Ps.OnlineSoftmax
import BonsaiTpu.Backend.Repacked
import BonsaiTpu.Backend.Liveness
import BonsaiTpu.Backend.Fused
import BonsaiTpu.Base.Handshake
import BonsaiTpu.Kernel.Top
import BonsaiTpu.Kernel.AxiLite
import BonsaiTpu.Kernel.Start
import BonsaiTpu.Host.Accelerator
import BonsaiTpu.Host.Graph
import BonsaiTpu.Daemon.Service
import BonsaiTpu.Base.Ram
import BonsaiTpu.Base.Ensures
import BonsaiTpu.Kernel.Feed
import BonsaiTpu.Layout.Rows
import BonsaiTpu.Board.Fpga
import BonsaiTpu.Board.Product
import BonsaiTpu.Board.Events
import BonsaiTpu.Board.Calls
