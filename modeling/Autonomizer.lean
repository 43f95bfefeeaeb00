import Autonomizer.CPIO
import Autonomizer.CPTransfer
import Autonomizer.Checkpoint
import Autonomizer.StoreInfo
import Autonomizer.StoreFile
import Autonomizer.ClientSelect
import Autonomizer.ServeClient
import Autonomizer.TFNNReinf
import Autonomizer.Eof
import Autonomizer.RunModel
import Autonomizer.Taintgrind
import Autonomizer.TaintLog
import Autonomizer.DySt2Fin
import Autonomizer.CombineLoad
import Autonomizer.PINNHelper
import Autonomizer.Template
import Autonomizer.DataFiles
import Autonomizer.Widths
import Autonomizer.InTurn
import Autonomizer.Handed
import Autonomizer.RoundTrip
import Autonomizer.Positions
import Autonomizer.Minibatch
import Autonomizer.Resume
import Autonomizer.DyFile
import Autonomizer.SrcVar
import Autonomizer.StoreBack
import Autonomizer.Outcome
import Autonomizer.LastWins
import Autonomizer.Declared
import Autonomizer.Inputs
import Autonomizer.SprodInit
import Autonomizer.FileLen
import Autonomizer.ModelDir
import Autonomizer.Annealing
import Autonomizer.BufferSize
import Autonomizer.NNArgs
import Autonomizer.ServedFiles
import Autonomizer.SuperTraining
import Autonomizer.TwoStates
import Autonomizer.Leftovers
import Autonomizer.Beside
import Autonomizer.Rerun
import Autonomizer.Reread
import Autonomizer.SecondRun
import Autonomizer.Total
import Autonomizer.ShadowMemory
import Autonomizer.SecMaps
import Autonomizer.Spans
import Autonomizer.VBits
import Autonomizer.LoadStore
import Autonomizer.Handlers
import Autonomizer.AddressRange
import Autonomizer.Ranges
import Autonomizer.Copies
import Autonomizer.ShadowRuns
import Autonomizer.Bits
import Autonomizer.VexIR
import Autonomizer.Translate
import Autonomizer.Instrument
import Autonomizer.Propagation
import Autonomizer.Emission
import Autonomizer.Shadows
import Autonomizer.Emitted
import Autonomizer.Weaving
import Autonomizer.Added
import Autonomizer.Transparent
import Autonomizer.Sound
import Autonomizer.Assigned
