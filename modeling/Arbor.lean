import Arbor.Main
import Arbor.Code.Assembly
import Arbor.Tree.Infer
import Arbor.Value.Snapshot
import Arbor.Proofs.CheckedRuns
import Arbor.Proofs.FinalDefects
import Arbor.Proofs.OptionalValues
import Arbor.Proofs.StackContract
import Arbor.Proofs.TypeSoundness
import Arbor.Proofs.HandlerSelection
import Arbor.Proofs.HandlerStacks
import Arbor.Proofs.JumpExecution
import Arbor.Proofs.CallFrames
import Arbor.Proofs.ClosedCode
import Arbor.Proofs.RegionTables
import Arbor.Proofs.SharedHelpers
import Arbor.Proofs.FiniteTypes
import Arbor.Proofs.TreeFiles
import Arbor.Proofs.SharedTables
import Arbor.Proofs.ShortCircuitRuns
import Arbor.Proofs.EqualityRuns
import Arbor.Proofs.OperatorRuns
import Arbor.Proofs.ElementAccess
import Arbor.Proofs.MethodRoles
import Arbor.Proofs.MemberInitializers
import Arbor.Proofs.FieldLayouts
import Arbor.Proofs.StructStorage
import Arbor.Proofs.TypedValues
import Arbor.Proofs.AutoExtension
import Arbor.Proofs.CompoundAssignments
import Arbor.Proofs.ExtendedAssignments
import Arbor.Proofs.IntegerKernels
import Arbor.Proofs.IntegerConversions
import Arbor.Proofs.ArrayAllocation
import Arbor.Proofs.BucketTables
import Arbor.Proofs.SlotAllocation
import Arbor.Proofs.LandingPads
import Arbor.Proofs.LabelTables
