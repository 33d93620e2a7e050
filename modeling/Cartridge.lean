import Cartridge.Main
import Cartridge.Proofs.Allocation
import Cartridge.Proofs.CallOrder
import Cartridge.Proofs.FlowGraph
import Cartridge.Proofs.Lowering
import Cartridge.Proofs.StackTracking
import Cartridge.Proofs.Processor
import Cartridge.Proofs.StackMachine
import Cartridge.Proofs.Representation
import Cartridge.Proofs.Fragments
import Cartridge.Proofs.Labels
import Cartridge.Proofs.Ingestion
import Cartridge.Proofs.TypedRun
import Cartridge.Proofs.Operators
import Cartridge.Proofs.CodeMeaning
import Cartridge.Proofs.Resolution
import Cartridge.Proofs.Compilation
import Cartridge.Proofs.Planning
import Cartridge.Proofs.Pieces
import Cartridge.Proofs.Supply
import Cartridge.Proofs.Faults
import Cartridge.Proofs.Splicing
import Cartridge.Proofs.Parts
import Cartridge.Proofs.References
import Cartridge.Proofs.Names
import Cartridge.Proofs.BodyNames
import Cartridge.Proofs.Numerals
import Cartridge.Proofs.Distinct
import Cartridge.Proofs.ZeroFlag
import Cartridge.Proofs.Branching
import Cartridge.Proofs.Reduction
import Cartridge.Proofs.Interchange
import Cartridge.Proofs.Optimization
import Cartridge.Proofs.Control
import Cartridge.Proofs.Growth
import Cartridge.Proofs.Unreachable
import Cartridge.Proofs.Displacement
import Cartridge.Proofs.Stepping
import Cartridge.Proofs.Relocation
import Cartridge.Proofs.Copies
import Cartridge.Proofs.Inlining
import Cartridge.Proofs.Keys
import Cartridge.Proofs.Cuts
import Cartridge.Proofs.AssemblyText
import Cartridge.Proofs.FilledTable
import Cartridge.Proofs.TypeMeaning
import Cartridge.Proofs.DeclaredTypes
import Cartridge.Proofs.RecordSizes
import Cartridge.Proofs.DeclarationOrder
import Cartridge.Proofs.LibraryText
import Cartridge.Proofs.StartUp
import Cartridge.Proofs.TableUpdates
import Cartridge.Proofs.TypeCycles
import Cartridge.Proofs.FieldOffsets
import Cartridge.Proofs.NormalForm
import Cartridge.Proofs.StraightLine
import Cartridge.Proofs.ConstantArguments
import Cartridge.Proofs.ControlFlow
import Cartridge.Proofs.SlotSizes
import Cartridge.Proofs.ByteMoves
import Cartridge.Proofs.ArgumentPassing
import Cartridge.Proofs.SlotAccess
import Cartridge.Proofs.CallDepth
import Cartridge.Proofs.TypeNames
import Cartridge.Proofs.SlotMap
import Cartridge.Proofs.Inheritance
import Cartridge.Proofs.Heights
import Cartridge.Proofs.TrackedHeights
