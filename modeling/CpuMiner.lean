import CpuMiner.Lib.Search
import CpuMiner.Kernel.Asm32Transform
import CpuMiner.Miner.Reports
import CpuMiner.Scan.Accounting
import CpuMiner.Scan.Coverage
import CpuMiner.Scan.Exact
import CpuMiner.Scan.Offers
import CpuMiner.Scan.Verdict
import CpuMiner.Miner.ScanTime
import CpuMiner.Miner.Upstream
import CpuMiner.Miner.LongpollUrl
import CpuMiner.Miner.Affinity
import CpuMiner.Util.DataBuffer
import CpuMiner.Util.Header
import CpuMiner.Util.HexGrammar
import CpuMiner.Util.ThreadQWakeups
import CpuMiner.Threads.Requester
import CpuMiner.Threads.Delivery
import CpuMiner.Threads.Exit
import CpuMiner.Threads.Restart
import CpuMiner.Threads.Activation
import CpuMiner.Threads.GetWork
import CpuMiner.Threads.Shares
import CpuMiner.Wire.DumpSorted
import CpuMiner.Wire.HashtableRuns
import CpuMiner.Wire.Request
