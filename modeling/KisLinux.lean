import KisLinux.FsInit
import KisLinux.FsTree
import KisLinux.FsRemoval
import KisLinux.NetNames
import KisLinux.NameTree
import KisLinux.NetConversation
import KisLinux.NetPartial
import KisLinux.NetFailures
import KisLinux.NetPaths
import KisLinux.NetCommands
import KisLinux.NetParents
import KisLinux.NetRemove
import KisLinux.NetProtection
import KisLinux.Keystats
import KisLinux.NetDaemon
import KisLinux.ModuleSys
import KisLinux.PhonedirCommands
import KisLinux.PhonedirFind
import KisLinux.NetDecoding
import KisLinux.NetHeap
import KisLinux.PhonedirBook
import KisLinux.PhonedirClients
import KisLinux.PhonedirSessions
import KisLinux.NetInterleaving
import KisLinux.NetVerdict
import KisLinux.NetLinear
import KisLinux.NetCli
import KisLinux.NetLifetimes
import KisLinux.NetDurability
import KisLinux.Numerals
