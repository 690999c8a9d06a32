import QueryPlanning.Config

/-!
# Memory of a scan

A scanner thread reads through buffers of a fixed size. The memory of a scan on one host is
estimated by the number of its threads there, each with buffers for one range of average length and
one more.
-/

namespace QueryPlanning.ScanMemory

open Number

/-- Bytes of a read buffer. -/
def bufferSize : Int := 8 * 1024 * 1024

/-- Buffers that a thread keeps in flight. -/
def buffersPerThread : Int := 10

/-- Scanner threads that a core runs. -/
def threadsPerCore : Int := 3

/-- Allows for hosts that get more than their share of ranges. -/
def skew : Float := 1.2

/-- The most that scans can take on a host with some cores; there is at least one core. -/
def upperBound (cores : Int) : Int :=
  max cores 1 * threadsPerCore * buffersPerThread * bufferSize

/-- The ranges that a host has to read, if they are spread over some nodes. -/
def rangesPerHost (ranges : Nat) (nodes : Int) : Int :=
  clampInt64 (Double.ofFloat (ranges.toFloat / Float.ofInt (max nodes 1) * skew)).ceil

/-- What the estimate depends on. -/
structure Load where
  ranges : Nat
  bytes : Int
  /-- Columns that are read from the files. -/
  columns : Nat
  /-- Files hold their columns apart, so that there is a thread for each column and not for each
  range. -/
  byColumn : Bool
  nodes : Int

/-- The scanner threads on one host. -/
def threads (o : Options) (l : Load) : Int :=
  let wanted := if l.byColumn then wrapSigned 64 l.columns else rangesPerHost l.ranges l.nodes
  let limited := min wanted (max o.cores 1 * threadsPerCore)
  if 0 < o.scannerThreads then min limited o.scannerThreads else limited

/-- The buffers of one thread. -/
def buffers (l : Load) : Int :=
  min (divCeil (divCeil l.bytes l.ranges) bufferSize) buffersPerThread + 1

/-- The bytes that a scan takes on one host. -/
def estimate (o : Options) (l : Load) : Int :=
  if l.ranges = 0 then 0
  else min (threads o l * buffers l * bufferSize) (upperBound o.cores)

end QueryPlanning.ScanMemory
