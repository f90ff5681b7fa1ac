import DiskBench.Foundations.Acknowledgement
import DiskBench.Integrity
import DiskBench.IoLimit
import DiskBench.IoLimitKept
import DiskBench.Watermark
import DiskBench.Transfers
import DiskBench.Creation
import DiskBench.Validation
import DiskBench.Workloads.Workloads
import DiskBench.Buffers
import DiskBench.RequestedTests
import DiskBench.SmallFiles
import DiskBench.Removal
import DiskBench.FreeSpace
import DiskBench.CreationSize
import DiskBench.Alignment
import DiskBench.Reproducible
import DiskBench.Failures
import DiskBench.Passes
import DiskBench.QueueWait
import DiskBench.Arguments
import DiskBench.EmptyRuns
import DiskBench.StatisticsLine
import DiskBench.BaseThroughput
import DiskBench.Summary
import DiskBench.AutoTermination
import DiskBench.CommandLine
import DiskBench.Report
import DiskBench.FileArguments
import DiskBench.Descriptors
import DiskBench.Streams
import DiskBench.PrintedValues
import DiskBench.Percentiles
import DiskBench.CombinedCounters
import DiskBench.RandomState
import DiskBench.LineAccounts
import DiskBench.ThreadReports
import DiskBench.Draining
import DiskBench.AlarmFree
import DiskBench.LostWrites
import DiskBench.Threads
import DiskBench.Corruption
import DiskBench.MixedShares
import DiskBench.FreshData
import DiskBench.ReadBack
import DiskBench.Concurrency
import DiskBench.Joining
import DiskBench.DocumentAccounts
import DiskBench.Platforms
import DiskBench.CombinedPercentiles
