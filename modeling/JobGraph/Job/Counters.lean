import JobGraph.Decimal.Digits
import JobGraph.Job.Basic

/-!
# Counters and metrics

The numbers that a server reports about the work of a job: counters in groups, and metrics.  A
number may come as a string of digits.
-/

namespace JobGraph.Job

/-- The nearest integer of 64 bits. -/
def clampInt64 (n : Int) : Int :=
  max (-Decimal.int64Bound) (min n (Decimal.int64Bound - 1))

/-- The count that a value stands for.  A double is cut to its whole part; what 64 bits cannot hold
goes to the nearest end. -/
def count? : Json → Option Int
  | .integer n => some (clampInt64 n)
  | .double x => some x.toInt64.toInt
  | .string digits => (Decimal.readInt64 digits.toList).toOption
  | _ => none

/-- A counter of a group. -/
def counter (job : Job) (group name : String) : Option Int := do
  let groups ← job.extra.get? "counterGroupMap"
  let counters ← (← groups.get? group).get? "counterInfoMap"
  count? (← (← counters.get? name).get? "value")

/-- A metric. -/
def metric (job : Job) (name : String) : Option Int := do
  count? (← (← job.extra.get? "metrics").get? name)

/-- The group of the file system's counters. -/
def fileSystemCounters : String := "FileSystemCounters"

/-- The group of the counters of tasks. -/
def taskCounters : String := "org.apache.hadoop.mapred.Task$Counter"

/-- The bytes read. -/
def bytesRead (job : Job) : Option Int :=
  job.counter fileSystemCounters "HDFS_BYTES_READ"

/-- The bytes written, by counter or else by metric. -/
def bytesWritten (job : Job) : Option Int :=
  (job.counter fileSystemCounters "HDFS_BYTES_WRITTEN").or (job.metric "hdfsBytesWritten")

/-- The records that went into the job, by counter or else by metric. -/
def inputRecords (job : Job) : Option Int :=
  (job.counter taskCounters "MAP_INPUT_RECORDS").or (job.metric "mapInputRecords")

/-- The records that came out of the job, by counter or else by metric. -/
def outputRecords (job : Job) : Option Int :=
  (job.counter taskCounters "REDUCE_OUTPUT_RECORDS").or (job.metric "reduceOutputRecords")

end JobGraph.Job
