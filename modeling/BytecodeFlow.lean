import BytecodeFlow.Graph.ChainSearch
import BytecodeFlow.Graph.Dominance
import BytecodeFlow.Graph.Indexed
import BytecodeFlow.Graph.SpanningTree
import BytecodeFlow.Json.Number
import BytecodeFlow.Json.Schema
import BytecodeFlow.Main
import BytecodeFlow.Proofs.Edges
import BytecodeFlow.Proofs.PathSearch
import BytecodeFlow.Proofs.Walk
import BytecodeFlow.Proofs.DominanceOrder
import BytecodeFlow.Proofs.PostOrder
import BytecodeFlow.Proofs.ImmediateDominators
import BytecodeFlow.Proofs.Dominance
import BytecodeFlow.Proofs.PostDominance
import BytecodeFlow.Proofs.LoopSearch
import BytecodeFlow.Proofs.Renumbering
import BytecodeFlow.Proofs.RenumberedSearch
import BytecodeFlow.Proofs.Prune
import BytecodeFlow.Proofs.Sweep
import BytecodeFlow.Proofs.Layout
import BytecodeFlow.Proofs.Descent
import BytecodeFlow.Proofs.Offsets
import BytecodeFlow.Proofs.Passes
import BytecodeFlow.Proofs.Session
import BytecodeFlow.Proofs.LoopCycles
import BytecodeFlow.Proofs.NaturalLoops
import BytecodeFlow.Proofs.Strategies
import BytecodeFlow.Proofs.Totality
import BytecodeFlow.Proofs.JumpSites
import BytecodeFlow.Proofs.PathLimits
import BytecodeFlow.Proofs.BackBranches
import BytecodeFlow.Proofs.CleanCode
import BytecodeFlow.Proofs.RepeatedPaths
import BytecodeFlow.Proofs.Shortcuts
import BytecodeFlow.Proofs.MaximalBlocks
import BytecodeFlow.Proofs.IncomingEdges
import BytecodeFlow.Proofs.HexText
import BytecodeFlow.Proofs.Spelling
import BytecodeFlow.Proofs.NgramCounts
import BytecodeFlow.Proofs.DepthFirst
import BytecodeFlow.Proofs.Reachability
import BytecodeFlow.Proofs.Serialization
import BytecodeFlow.Proofs.JsonText
import BytecodeFlow.Proofs.LinesAndDocument
import BytecodeFlow.Proofs.BatchReport
import BytecodeFlow.Proofs.TableRows
import BytecodeFlow.Proofs.OpcodeNames
import BytecodeFlow.Proofs.BigEndian
import BytecodeFlow.Proofs.ChainBuffers
