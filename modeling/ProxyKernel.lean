import ProxyKernel.ElfImage
import ProxyKernel.ElfTable
import ProxyKernel.ElfSections
import ProxyKernel.ElfSymbols
import ProxyKernel.SymbolLookup
import ProxyKernel.SymbolTables
import ProxyKernel.SymbolNames
import ProxyKernel.BacktraceChain
import ProxyKernel.BacktraceDepth
import ProxyKernel.UserPrint
import ProxyKernel.PanicMessage
import ProxyKernel.CommandLine
import ProxyKernel.MemCopy
import ProxyKernel.PrintFormat
import ProxyKernel.SpikeFileAccount
import ProxyKernel.TickAccount
import ProxyKernel.MachineTimer
import ProxyKernel.SpikeMemory
import ProxyKernel.BootScanEnds
import ProxyKernel.HtifOutput
import ProxyKernel.Frontend
import ProxyKernel.Boot
import ProxyKernel.BacktraceOutput
import ProxyKernel.InitDtb
import ProxyKernel.UserFaults
import ProxyKernel.SystemExit
import ProxyKernel.StringLib
