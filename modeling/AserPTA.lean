import AserPTA.Solver.DeepPropagation
import AserPTA.Solver.Colours
import AserPTA.Solver.PartialUpdateRounds
import AserPTA.Solver.WavePropagation
import AserPTA.Solver.Andersen
import AserPTA.Context.Domains
import AserPTA.Program.InitCallGraph
import AserPTA.Program.Linking
import AserPTA.Program.Visit
import AserPTA.Program.Analysis
import AserPTA.Program.SolveLoop
import AserPTA.MemoryModel.ConstIndex
import AserPTA.MemoryModel.VarIndex
import AserPTA.ConsGraph.Members
import AserPTA.ConsGraph.EdgeIterator
import AserPTA.Solver.PointedByPts
import AserPTA.MemoryModel.HeapModel
import AserPTA.PreProcessing.CanonicalizeGEP
import AserPTA.PreProcessing.LoweringMemCpy
import AserPTA.MemoryModel.LayoutChecks
import AserPTA.MemoryModel.FlexibleArray
import AserPTA.MemoryModel.GlobalInit
import AserPTA.MemoryModel.GlobalOrder
import AserPTA.PreProcessing.WrapperFunIdentify
import AserPTA.PreProcessing.ExpandedPlacement
import AserPTA.PreProcessing.ExpandedRuns
import AserPTA.MemoryModel.AnonTypes
import AserPTA.Program.Execution
import AserPTA.Program.FieldInsensitive
import AserPTA.Program.Termination
