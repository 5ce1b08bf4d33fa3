/-! # Pruning statistics

How many years and days were scanned, how many of them held a wanted term, and how many
shards got a plan.
-/

namespace ShardedSearch.DayIndex

structure Statistics where
  yearsScanned : Nat := 0
  yearsHit : Nat := 0
  daysScanned : Nat := 0
  daysHit : Nat := 0
  shards : Nat := 0
  /-- Scans that are not finished, counted round the 64-bit words. -/
  running : UInt64 := 0
deriving DecidableEq

namespace Statistics

def addYear (hit : Bool) (s : Statistics) : Statistics :=
  { s with yearsScanned := s.yearsScanned + 1, yearsHit := s.yearsHit + hit.toNat }

def addDay (hit : Bool) (s : Statistics) : Statistics :=
  { s with daysScanned := s.daysScanned + 1, daysHit := s.daysHit + hit.toNat }

def addShard (s : Statistics) : Statistics := { s with shards := s.shards + 1 }

def start (s : Statistics) : Statistics := { s with running := s.running + 1 }

def finish (s : Statistics) : Statistics := { s with running := s.running - 1 }

end Statistics

end ShardedSearch.DayIndex
