import Syslinux.DhcpRoundTrip
import Syslinux.Mailbox
import Syslinux.MallocRequests
import Syslinux.Highmem
import Syslinux.Semaphore
import Syslinux.TftpTransfer
import Syslinux.E820Runs
import Syslinux.Mangle
import Syslinux.ReadconfigInclude
import Syslinux.ZonesType
import Syslinux.ZonesFind
import Syslinux.ZonelistFailure
import Syslinux.MovebitsFailure
import Syslinux.MovebitsSplits
import Syslinux.FatRead
import Syslinux.UfsBmap
import Syslinux.FatListing
import Syslinux.Ext2Readdir
import Syslinux.Cpio
import Syslinux.BootInitrd
import Syslinux.Ext2Zero
import Syslinux.NtfsMft
import Syslinux.SuspChain
import Syslinux.SuspSignatures
import Syslinux.IsoListing
import Syslinux.NtfsReturns
import Syslinux.Getpass
import Syslinux.SearchdirBuffer
import Syslinux.RealpathBuffer
import Syslinux.HaveMore
import Syslinux.DiskioReads
import Syslinux.BtrfsExtents
import Syslinux.XfsExtents
import Syslinux.Relocate32
import Syslinux.Relocate64
import Syslinux.ElfSegments
import Syslinux.ModuleUnload
import Syslinux.SpawnUndone
import Syslinux.SpawnUnload
import Syslinux.OpalTokens
import Syslinux.Discovery0
import Syslinux.AhciPort
import Syslinux.AdvTorn
import Syslinux.DhcpParse
import Syslinux.DnsResolv
import Syslinux.HttpFields
import Syslinux.HttpNames
import Syslinux.PartiterReads
import Syslinux.PatchChecksum
import Syslinux.ReadconfigBalance
import Syslinux.Sysappend
import Syslinux.TftpOpen
import Syslinux.UrlParse
