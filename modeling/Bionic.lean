import Bionic.LinkerReferences
import Bionic.LinkerCfiRuns
import Bionic.Semaphore
import Bionic.PthreadBarrier
import Bionic.PthreadMutex
import Bionic.PthreadRwlockWaiters
import Bionic.PthreadKey
import Bionic.GenSeccomp
import Bionic.Environ
import Bionic.Utf16
import Bionic.LinkerDefaultNamespaces
import Bionic.Atexit
import Bionic.LinkerBlockAllocator
import Bionic.ElfTlsRuns
import Bionic.MallocLimit
import Bionic.PthreadAtfork
import Bionic.RecordData
import Bionic.MallocHeapprofd
import Bionic.SeccompPolicy
import Bionic.CustomRomPaths
import Bionic.LinkerRelocEncodings
import Bionic.CrashDetail
import Bionic.GnuHashNeon
import Bionic.LinkerMemtag
import Bionic.LinkerUtils
import Bionic.LinkerNoteGnuProperty
import Bionic.SystemPropertyWait
import Bionic.ContextsSplit
import Bionic.PthreadAttr
import Bionic.Ifaddrs
import Bionic.GrpPwdEntries
import Bionic.Dirent
import Bionic.TraceAnalysis
import Bionic.LinkerDlsym
import Bionic.LinkedList
import Bionic.MallocDebugConfig
import Bionic.OneTimeInit
