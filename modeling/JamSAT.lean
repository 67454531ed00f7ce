import JamSAT.UnitLogic
import JamSAT.AssignmentRuns
import JamSAT.MinimizationSound
import JamSAT.SimplifiedRuns
import JamSAT.SolverRuns
import JamSAT.ModelCheck
import JamSAT.CNFProblemSound
import JamSAT.DRATCertificateSound
import JamSAT.BinaryHeapSound
import JamSAT.OccurrenceRuns
import JamSAT.RedundantLiterals
import JamSAT.FirstUIP
import JamSAT.BranchingSound
import JamSAT.ClauseDBRuns
import JamSAT.SolveTerminates
import JamSAT.AssignmentAnalysisSound
import JamSAT.AssignmentQueries
import JamSAT.ProblemDelivery
import JamSAT.BranchingReset
import JamSAT.SeenVariables
import JamSAT.LowMemory
import JamSAT.LowMemorySound
import JamSAT.ClauseShrinking
import JamSAT.AnnouncedClauses
import JamSAT.FailedAssumptions
import JamSAT.ClausalProof
import JamSAT.EmittedProof
import JamSAT.EmittedProofRuns
import JamSAT.LubyNumbers
import JamSAT.LubyRestarts
import JamSAT.StampMap
import JamSAT.OccurrenceCleanup
import JamSAT.ClauseGrammar
import JamSAT.FactBookkeeping
import JamSAT.FallibleState
import JamSAT.StampingMachine
import JamSAT.DecisionLevels
import JamSAT.SharedStamps
import JamSAT.SharedStampsRuns
import JamSAT.IPASIRRuns
import JamSAT.JamSATMainSound
import JamSAT.KillThread
import JamSAT.OnlineDRATCheckerSound
import JamSAT.AbstractCDCL
import JamSAT.SolverRefinement
import JamSAT.Extendable
import JamSAT.SimpleDPLL
import JamSAT.SimpleDPLLSound
import JamSAT.EquippedMachine
import JamSAT.LiteralBlockDistance
import JamSAT.LBDSound
import JamSAT.EquippedRuns
import JamSAT.ClauseLifetimes
import JamSAT.LemmaLifetimes
import JamSAT.ProblemModels
import JamSAT.GateStructure
import JamSAT.Rule110
import JamSAT.Rule110Sound
