import EpochTable.Script.Bench
import EpochTable.Script.Concurrent
import EpochTable.Script.Nodes
import EpochTable.Script.Words
import EpochTable.Session.Steps
import EpochTable.Undo
import EpochTable.Waiter
import EpochTable.Proofs.Lists
import EpochTable.Proofs.RingWords
import EpochTable.Proofs.Settling
import EpochTable.Proofs.Chronicle
import EpochTable.Proofs.RingBalance
import EpochTable.Proofs.MemberPhases
import EpochTable.Proofs.ActsSound
import EpochTable.Proofs.TasksSound
import EpochTable.Proofs.BegunActs
import EpochTable.Proofs.NodesKept
import EpochTable.Proofs.NodesMoved
import EpochTable.Proofs.NodesRun
import EpochTable.Proofs.JournalAllowed
import EpochTable.Proofs.RealmHistory
import EpochTable.Proofs.RunOrder
import EpochTable.Proofs.OldestCollector
import EpochTable.Proofs.AdvanceAnswered
import EpochTable.Proofs.CellContents
import EpochTable.Proofs.PoolItems
import EpochTable.Proofs.Dictionary
import EpochTable.Proofs.BlockContents
import EpochTable.Proofs.Migration
import EpochTable.Proofs.CellChanges
import EpochTable.Proofs.TableCalls
import EpochTable.Proofs.Storing
import EpochTable.Proofs.CallAnswers
import EpochTable.Proofs.HeldEntries
import EpochTable.Proofs.Refinement
import EpochTable.Proofs.CellLayout
import EpochTable.Proofs.BlocksRetired
import EpochTable.Proofs.Reclamation
import EpochTable.Proofs.FailedGrowth
import EpochTable.Proofs.BlocksDropped
import EpochTable.Proofs.BlockRoom
import EpochTable.Proofs.SingleGrowth
import EpochTable.Proofs.StoringOutcome
import EpochTable.Proofs.ItemPlaces
import EpochTable.Proofs.ReferenceCounts
import EpochTable.Proofs.InsertionOrder
import EpochTable.Proofs.CellVersions
import EpochTable.Proofs.HeldIsolation
import EpochTable.Proofs.Turns
import EpochTable.Proofs.DrainsInTurn
import EpochTable.Proofs.CellReadings
import EpochTable.Proofs.FirstPass
import EpochTable.Proofs.CurrentBound
import EpochTable.Proofs.QuiescentPoints
import EpochTable.Proofs.LastReference
import EpochTable.Proofs.FirstFit
import EpochTable.Proofs.CellEdits
import EpochTable.Block.Transfer
import EpochTable.Proofs.Packing
import EpochTable.Proofs.Transfers
import EpochTable.Proofs.DrainEnds
import EpochTable.Reclaim.Links
import EpochTable.Proofs.NodeLists
import EpochTable.Proofs.LinkedLists
import EpochTable.Table.Sizing
import EpochTable.Proofs.BlockLayouts
import EpochTable.Proofs.ExactSizes
import EpochTable.Proofs.Escalation
import EpochTable.CellWord.Masks
import EpochTable.Proofs.MaskedWords
import EpochTable.Proofs.WordFields
import EpochTable.Block.Links
import EpochTable.Proofs.ItemPaths
import EpochTable.Proofs.LinkedBlocks
import EpochTable.Proofs.LinkedRuns
