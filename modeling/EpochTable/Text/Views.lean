import EpochTable.Reclaim.Member
import EpochTable.Table
import EpochTable.Text.Duration
import EpochTable.Text.Record

namespace EpochTable

def renderNat (n : Nat) : String := Nat.repr n

def renderBool : Bool → String
  | true => "true"
  | false => "false"

def CellWord.render (w : CellWord) : String :=
  renderRecord "CellState"
    [⟨"count", renderNat w.count⟩, ⟨"overflow", renderBool w.hasOverflow⟩,
      ⟨"writing", renderBool w.isWriting⟩, ⟨"locked", renderBool w.isLocked⟩,
      ⟨"version", renderNat w.version⟩]

def renderBlock (cells shelves : Nat) : String :=
  renderRecord "Block" [⟨"cells", renderNat cells⟩, ⟨"overflow_cells", renderNat shelves⟩]

def Fault.render : Fault → String
  | .allocation bytes => renderRecord "Allocation" [⟨"bytes", renderNat bytes⟩]
  | .capacityOverflow cells => renderRecord "CapacityOverflow" [⟨"cells", renderNat cells⟩]

def WaitPolicy.render (p : WaitPolicy) : String :=
  renderRecord "SpinPolicy"
    [⟨"spin_limit", renderNat p.spinLimit.toNat⟩, ⟨"yield_limit", renderNat p.yieldLimit.toNat⟩,
      ⟨"sleep", renderDuration p.sleep.toNat⟩]

def Settings.render (s : Settings) : String :=
  renderRecord "Config"
    [⟨"initial_cells", renderNat s.initialCells.toNat⟩,
      ⟨"overflow_ratio", renderNat s.overflowRatio.toNat⟩,
      ⟨"max_cells", renderNat s.maxCells.toNat⟩, ⟨"spin", s.wait.render⟩,
      ⟨"reclaim_threshold", renderNat s.reclaimThreshold.toNat⟩]

def EpochRing.render (r : EpochRing) : String :=
  renderRecord "Domain"
    [⟨"current", renderNat r.current⟩, ⟨"tail", renderNat r.tail⟩,
      ⟨"entered", renderNat r.entered.toNat⟩, ⟨"pending", renderNat r.pending⟩,
      ⟨"reclaimed", renderNat r.reclaimed⟩]

def Standing.render : Standing → String
  | .idle => "Idle"
  | .acquired seat => renderRecord "Acquired" [⟨"collector", renderNat seat⟩]
  | .quiescent seat => renderRecord "Quiescent" [⟨"collector", renderNat seat⟩]

def Member.render (m : Member) : String :=
  renderRecord "Participant" [⟨"state", m.standing.render⟩, ⟨"depth", renderNat m.depth⟩]

def Member.renderPin (m : Member) : String :=
  renderRecord "Guard" [⟨"participant", m.render⟩]

/-- The text of a table that retires its blocks to the given ring. -/
def Table.render (t : Table) (r : EpochRing) : String :=
  renderOpenRecord "HashMap" [⟨"config", t.settings.render⟩, ⟨"domain", r.render⟩]

def Hold.render (h : Hold) : String :=
  renderOpenRecord "LockedEntry" [⟨"value", renderNat h.value.toNat⟩]

end EpochTable
