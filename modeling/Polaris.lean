import Polaris.Avl.Run
import Polaris.Avl.Destroy
import Polaris.Lib.Segments
import Polaris.SpaceMap.Run
import Polaris.SpaceMap.Sync
import Polaris.SpaceMap.Alloc
import Polaris.Metaslab.Safety
import Polaris.Lzjb.RoundTrip
import Polaris.Raidz.Reconstruct
import Polaris.Ppc.Copy
import Polaris.Ppc.Memload
import Polaris.Ppc.Shift
import Polaris.Ppc.Pagetable
import Polaris.Ppc.Bat
import Polaris.Ppc.PteVaddr
import Polaris.Ppc.PtegMaps
import Polaris.Ppc.Vsid
import Polaris.Ppc.BootUnique
import Polaris.RangeLock.Waiters
import Polaris.Dsl.Accounting
import Polaris.Dsl.Tempreserve
import Polaris.Dsl.Bplist
import Polaris.Checksum.Fletcher
import Polaris.Checksum.Sha256
import Polaris.Txg.Pipeline
import Polaris.Nvpair.NativeRoundTrip
import Polaris.Nvpair.XdrRoundTrip
import Polaris.Nvpair.ListRun
import Polaris.Dtrace.Canstore
import Polaris.Dtrace.Dif
import Polaris.Dtrace.Lquantize
import Polaris.Dtrace.Merge
import Polaris.Dtrace.Substr
import Polaris.Vm.Gap
import Polaris.Ufs.Free
import Polaris.Bignum.ExtGcd
import Polaris.Raidz.Layout
import Polaris.Ppc.CacheSync
import Polaris.Ppc.Nucleus
import Polaris.Ppc.Reloc
