import IDAnalysister.Adapters.FakePort
import IDAnalysister.Adapters.IndexedOperands
import IDAnalysister.Adapters.OperandDecode
import IDAnalysister.Adapters.Prototypes
import IDAnalysister.Adapters.RegisterViews
import IDAnalysister.Adapters.StringReads
import IDAnalysister.Agreement.Graphs
import IDAnalysister.Agreement.OneBlock
import IDAnalysister.Agreement.Widths
import IDAnalysister.Api.ArgumentAt
import IDAnalysister.Api.Coverage
import IDAnalysister.Api.Extended
import IDAnalysister.Api.Flush
import IDAnalysister.Api.Locality
import IDAnalysister.Api.PostProcessors
import IDAnalysister.Api.PushedArguments
import IDAnalysister.Api.ReportSoundness
import IDAnalysister.Api.StackArguments
import IDAnalysister.Api.StringDeref
import IDAnalysister.Backward.Budget
import IDAnalysister.Backward.Globals
import IDAnalysister.Backward.LinearWalk
import IDAnalysister.Backward.LoopHeader
import IDAnalysister.Backward.Memory
import IDAnalysister.Backward.Origins
import IDAnalysister.Backward.Overlap
import IDAnalysister.Backward.PointerChains
import IDAnalysister.Backward.Pointers
import IDAnalysister.Backward.PushPaths
import IDAnalysister.Backward.Pushes
import IDAnalysister.Backward.StackCells
import IDAnalysister.Backward.StackRows
import IDAnalysister.Backward.Straight
import IDAnalysister.Backward.Views
import IDAnalysister.Conventions
import IDAnalysister.Forward.ConditionalMove
import IDAnalysister.Forward.EntryLoop
import IDAnalysister.Forward.Extension
import IDAnalysister.Forward.InstructionLimit
import IDAnalysister.Forward.Overlap
import IDAnalysister.Forward.StackPicture
import IDAnalysister.Forward.Widening
import IDAnalysister.Library.Bytes
import IDAnalysister.Library.Cache
import IDAnalysister.Library.Interruption
import IDAnalysister.Library.MovingBase
import IDAnalysister.Library.Numbered
import IDAnalysister.Library.Priority
import IDAnalysister.Library.Program
import IDAnalysister.Library.SimplePath
import IDAnalysister.Library.StackFrame
import IDAnalysister.Library.StackMachine
import IDAnalysister.Library.Terminated
import IDAnalysister.Library.Text
import IDAnalysister.Locators.ExtensionPoints
import IDAnalysister.Session.CacheRuns
