import MakeInitrd.AddModules.PutModules
import MakeInitrd.Depinfo.Builtins
import MakeInitrd.Depinfo.Closure
import MakeInitrd.Initrd.Bootconfig
import MakeInitrd.Initrd.CpioBounds
import MakeInitrd.Initrd.CpioTrailer
import MakeInitrd.Initrd.Decompressors
import MakeInitrd.Initrd.Merge
import MakeInitrd.Initrd.ZstdProgress
import MakeInitrd.Kickstart.BlockDevices
import MakeInitrd.Kickstart.Clearpart
import MakeInitrd.Kickstart.Phases
import MakeInitrd.Luks.Escaping
import MakeInitrd.Luks.Keyspec
import MakeInitrd.Luks.Options
import MakeInitrd.Mk.Active
import MakeInitrd.Mounts.Fanotify
import MakeInitrd.Mounts.Procfs
import MakeInitrd.Network.Route
import MakeInitrd.Network.Splitting
import MakeInitrd.Pipeline.Retry
import MakeInitrd.Pipeline.Verify
import MakeInitrd.Put.Collect
import MakeInitrd.Put.Complete
import MakeInitrd.Put.Jobs
import MakeInitrd.Put.LibraryCache
import MakeInitrd.Put.Rname
import MakeInitrd.Put.Whole
import MakeInitrd.RootDelay.Reset
import MakeInitrd.Runtime.MappedEnviron
import MakeInitrd.Runtime.Unset
import MakeInitrd.Scanmod.FindModules
import MakeInitrd.Scanmod.Rulesets
import MakeInitrd.SortServices.Stopping
import MakeInitrd.SortServices.Tiers
import MakeInitrd.Udev.Conflicts
import MakeInitrd.Ueventd.Debounce
import MakeInitrd.Ueventd.Dirty
import MakeInitrd.Ueventd.Pause
import MakeInitrd.Ueventd.TimersExact
import MakeInitrd.Ueventd.Wakeup
