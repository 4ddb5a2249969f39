import AmqOs.Lib.Chain
import AmqOs.Lib.Loop
import AmqOs.Lib.Run
import AmqOs.Lib.ByteMem
import AmqOs.Lib.CString
import AmqOs.Vfs.Ata
import AmqOs.Vfs.TinyfsDefs
import AmqOs.Vfs.TinyfsCodec
import AmqOs.Vfs.TinyfsChains
import AmqOs.Vfs.TinyfsWrite
import AmqOs.Vfs.TinyfsOps
import AmqOs.Vfs.TinyfsRun
import AmqOs.Vfs.TinyfsFiles
import AmqOs.Vfs.VfsDefs
import AmqOs.Vfs.VfsPaths
import AmqOs.Vfs.VfsDirs
import AmqOs.Vfs.VfsNames
import AmqOs.Vfs.VfsRun
import AmqOs.Vfs.VfsResidue
import AmqOs.Vfs.VfsTree
import AmqOs.Vfs.VfsUnlink
import AmqOs.Vfs.TinyfsExact
import AmqOs.Vfs.VfsListing
import AmqOs.Vfs.VfsCwdDefs
import AmqOs.Vfs.VfsBounds
import AmqOs.Vfs.VfsCwd
import AmqOs.Vfs.TinyfsFrame
import AmqOs.Vfs.VfsSeek
import AmqOs.Vfs.TinyfsTables
import AmqOs.Vfs.VfsChunks
import AmqOs.Vfs.TinyfsLinks
import AmqOs.Vfs.TinyfsImages
import AmqOs.Lib.Tiling
import AmqOs.Memory.HeapDefs
import AmqOs.Memory.HeapInv
import AmqOs.Memory.HeapOps
import AmqOs.Memory.HeapRun
import AmqOs.Memory.Pmm
import AmqOs.Memory.PmmPages
import AmqOs.Memory.HeapLimits
import AmqOs.Memory.HeapMoves
import AmqOs.Memory.HeapAligned
import AmqOs.Memory.HeapUsed
import AmqOs.Memory.KernelMemory
import AmqOs.Memory.Ramdisk
import AmqOs.Lib.Queue
import AmqOs.Processes.SchedulerDefs
import AmqOs.Processes.SchedulerFifo
import AmqOs.Processes.SchedulerInv
import AmqOs.Processes.SchedulerResume
import AmqOs.Processes.ProcessDefs
import AmqOs.Processes.ThreadLists
import AmqOs.Processes.ProcessTable
import AmqOs.Processes.SleepDefs
import AmqOs.Processes.Sleep
import AmqOs.Processes.SleepTimes
import AmqOs.Processes.JobSlots
import AmqOs.Shell.Launch
import AmqOs.Lib.X86
import AmqOs.Lib.Scan
import AmqOs.Assembler.AsmDefs
import AmqOs.Assembler.AsmOutcome
import AmqOs.Assembler.AsmLines
import AmqOs.Assembler.AsmSize
import AmqOs.Assembler.AsmEncode
import AmqOs.Assembler.AsmParse
import AmqOs.Assembler.AsmAccept
import AmqOs.Assembler.AsmImmediates
import AmqOs.Lib.Guarded
import AmqOs.Elf.ElfDefs
import AmqOs.Elf.ElfBounds
import AmqOs.Elf.ElfPlacement
import AmqOs.Lib.Buckets
import AmqOs.Elf.ElfSymbols
import AmqOs.Elf.ElfRelocs
import AmqOs.Elf.ElfUndefined
import AmqOs.Lib.Patches
import AmqOs.Elf.ElfIdempotent
import AmqOs.Lib.Accounts
import AmqOs.Elf.ElfInside
import AmqOs.Elf.ElfCleanup
import AmqOs.Lib.Wire
import AmqOs.Network.NetDefs
import AmqOs.Network.NetBounds
import AmqOs.Network.UdpRoundTrip
import AmqOs.Network.TcpStream
import AmqOs.Network.TcpStates
import AmqOs.Network.Dhcp
import AmqOs.Network.E1000Rx
import AmqOs.Lib.OnesComplement
import AmqOs.Network.Checksum
import AmqOs.Network.SendLengths
import AmqOs.Network.DnsDefs
import AmqOs.Network.PayloadReads
import AmqOs.Network.DnsAnswers
import AmqOs.Lib.Decimal
import AmqOs.Network.Addresses
import AmqOs.Network.DnsNames
import AmqOs.Lib.Recent
import AmqOs.Network.ArpCache
import AmqOs.Network.HttpDefs
import AmqOs.Network.HttpUrl
import AmqOs.Network.HttpRequest
import AmqOs.Network.HttpBuffer
import AmqOs.Network.HttpSockets
import AmqOs.Lib.Gf256
import AmqOs.Cryptography.Fips197
import AmqOs.Cryptography.AesDefs
import AmqOs.Cryptography.AesRows
import AmqOs.Cryptography.AesFips
import AmqOs.Lib.Blocks
import AmqOs.Cryptography.Fips180
import AmqOs.Cryptography.Sha512Defs
import AmqOs.Cryptography.Sha512
import AmqOs.Lib.BlockModes
import AmqOs.Cryptography.AesModes
import AmqOs.Cryptography.Pkcs7
import AmqOs.Cryptography.Hmac
import AmqOs.Lib.Rows
import AmqOs.Editor.Document
import AmqOs.Editor.EditorDefs
import AmqOs.Editor.EditorLines
import AmqOs.Editor.EditorRefine
import AmqOs.Editor.EditorScroll
import AmqOs.Vfs.TinyfsFree
import AmqOs.Print.AutoScroll
import AmqOs.Shell.CommandHistory
import AmqOs.Shell.LineInput
import AmqOs.Vfs.VfsOverwrite
import AmqOs.Vfs.VfsRecreate
import AmqOs.Lib.Lines
import AmqOs.Editor.EditorFileDefs
import AmqOs.Editor.EditorSave
import AmqOs.Editor.EditorLoad
import AmqOs.Editor.EditorResave
import AmqOs.Vfs.VfsKept
import AmqOs.Editor.EditorFailedSave
import AmqOs.Lib.Ports
import AmqOs.Ata.AtaDrive
import AmqOs.Ata.AtaPorts
import AmqOs.Ata.AtaTransfer
import AmqOs.Ata.AtaSectors
import AmqOs.Ata.AtaDisk
import AmqOs.Vfs.TinyfsStore
import AmqOs.Vfs.TinyfsRefines
import AmqOs.Network.ArpLan
import AmqOs.Lib.FirstSeen
import AmqOs.Network.Ping
import AmqOs.Network.PingEcho
import AmqOs.Print.Picture
import AmqOs.Print.Console
import AmqOs.Print.Printk
import AmqOs.Shell.Echo
