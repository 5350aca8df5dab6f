import PipeAI.Concurrency.TransitionSystem
import PipeAI.Concurrency.Monitor
import PipeAI.Concurrency.WakeUp
import PipeAI.Numeric.Flt
import PipeAI.Numeric.Loop
import PipeAI.Numeric.Interpolation
import PipeAI.Numeric.Interp
import PipeAI.Numeric.LeastSquares
import PipeAI.Numeric.Standardize
import PipeAI.Numeric.Quantization
import PipeAI.Numeric.Shares
import PipeAI.Numeric.Layers
import PipeAI.Numeric.Quantiles
import PipeAI.Numeric.While
import PipeAI.Concurrency.History
import PipeAI.Text.Lines
import PipeAI.Text.Strip
import PipeAI.Text.Numbers
import PipeAI.Text.Numerals
import PipeAI.Types
import PipeAI.Tensor.BufferPool
import PipeAI.Tensor.QuantizerOverflow
import PipeAI.Tensor.Tensor
import PipeAI.Preprocess.Normalize
import PipeAI.Postprocess.SoftmaxDecision
import PipeAI.Model.RknnRuntimeInfo
import PipeAI.Preprocess.Reference
import PipeAI.Preprocess.Channels
import PipeAI.Preprocess.Overflow
import PipeAI.Preprocess.Reversal
import PipeAI.Preprocess.Stability
import PipeAI.Preprocess.Repaired
import PipeAI.Preprocess.CsvLine
import PipeAI.Preprocess.CsvFailure
import PipeAI.Preprocess.CsvLayout
import PipeAI.Preprocess.CsvNumeral
import PipeAI.Preprocess.QuotedTable
import PipeAI.Tools.PreprocessCsv
import PipeAI.Algorithm.TrainingStats
import PipeAI.Algorithm.RepairAndResample
import PipeAI.Algorithm.SpatialMap
import PipeAI.Algorithm.Network
import PipeAI.Algorithm.Robustness
import PipeAI.Algorithm.QuantizedInput
import PipeAI.Algorithm.Training
import PipeAI.Deployment.InferRk3588
import PipeAI.Deployment.Agreement
import PipeAI.Deployment.MakeCalibrationDataset
import PipeAI.Runtime.Watchdog
import PipeAI.Runtime.IniDocument
import PipeAI.Runtime.ConfigFailure
import PipeAI.Runtime.ConfigSize
import PipeAI.Sensor.CsvSensor
import PipeAI.Pipeline.BlockingQueue
import PipeAI.Concurrency.Linearizability
import PipeAI.Pipeline.Linearizable
import PipeAI.Pipeline.Worker
import PipeAI.Runtime.Application
import PipeAI.Pipeline.Decisions
import PipeAI.Pipeline.InferencePipelineBridge
import PipeAI.Pipeline.BridgeCalls
import PipeAI.Pipeline.Shutdown
import PipeAI.Pipeline.Restart
import PipeAI.Pipeline.Backpressure
import PipeAI.Pipeline.Signals
import PipeAI.Pipeline.Progress
import PipeAI.Pipeline.Rest
import PipeAI.Pipeline.Liveness
import PipeAI.Pipeline.Submission
import PipeAI.Pipeline.Launch
import PipeAI.App.Completion
import PipeAI.App.Main
import PipeAI.App.Replay
import PipeAI.App.Results
import PipeAI.Pipeline.Termination
import PipeAI.Benchmarks.Percentile
