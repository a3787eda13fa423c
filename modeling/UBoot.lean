import UBoot.ProbeCycle
import UBoot.OpenAddressing
import UBoot.HashTable
import UBoot.HashTableSize
import UBoot.HashTableSearch
import UBoot.HashTableMap
import UBoot.HashTableEffect
import UBoot.ShellSort
import UBoot.EnvText
import UBoot.EnvExport
import UBoot.EnvRoundTrip
import UBoot.EnvImport
import UBoot.BlockTransfer
import UBoot.Recovery
import UBoot.RecoveryTransfer
import UBoot.Tftp
import UBoot.TftpRead
import UBoot.TftpWrite
import UBoot.TftpOack
import UBoot.LinkedRecords
import UBoot.Defrag
import UBoot.DefragHoles
import UBoot.DefragStep
import UBoot.DefragSafety
import UBoot.Reassembly
import UBoot.Fdt
import UBoot.FdtWalk
import UBoot.FdtRegions
import UBoot.FdtCoverage
import UBoot.FdtExact
import UBoot.FdtSafety
import UBoot.Fit
import UBoot.FitSignature
import UBoot.FitKeys
import UBoot.FitCoverage
import UBoot.BootKernel
import UBoot.MultiImage
import UBoot.FdtScan
import UBoot.BlockHash
import UBoot.Sha
import UBoot.FitHashes
import UBoot.FitCompat
import UBoot.EcdsaDigest
import UBoot.FitRegions
import UBoot.Lmb
import UBoot.LmbSets
import UBoot.LmbRuns
import UBoot.PowerCut
import UBoot.Crc32
import UBoot.EnvSpi
import UBoot.EnvAgreement
import UBoot.EnvNand
import UBoot.EnvNandRuns
import UBoot.UpgradeRetries
import UBoot.Dhcp
import UBoot.DhcpSafety
import UBoot.NandUtil
import UBoot.NandSkipBad
import UBoot.NandAgreement
import UBoot.LittleEndian
import UBoot.Gpt
import UBoot.GptRoundTrip
import UBoot.Bootm
import UBoot.BootmRuns
import UBoot.BootmLoad
import UBoot.ByteStore
import UBoot.EnvScan
import UBoot.EnvAttr
import UBoot.EnvAttrLists
import UBoot.EnvFlags
import UBoot.EnvAccess
import UBoot.EnvAttributes
import UBoot.FwEnv
import UBoot.FwEnvMap
import UBoot.EnvImageImport
import UBoot.EnvViews
import UBoot.Hush
import UBoot.HushRun
import UBoot.HushParse
import UBoot.HushAndOr
import UBoot.HushCompound
import UBoot.HushLines
import UBoot.Nfs
import UBoot.NfsRuns
import UBoot.Kermit
import UBoot.KermitRuns
import UBoot.Ext4Journal
import UBoot.JournalReplay
import UBoot.JournalRecovery
import UBoot.LmbAlloc
import UBoot.LmbErrors
import UBoot.LmbOrder
import UBoot.StableSort
import UBoot.Mtdparts
import UBoot.MtdpartsText
import UBoot.MtdpartsLists
import UBoot.MtdpartsRoundTrip
import UBoot.MtdpartsCommands
import UBoot.MtdpartsRuns
import UBoot.DoimageFaithful
import UBoot.HashTableMatch
import UBoot.HashTableAtomic
import UBoot.EnvRecords
import UBoot.EnvSelect
import UBoot.EnvTypes
import UBoot.EnvNandBlocks
import UBoot.BlockMap
import UBoot.FwFlash
import UBoot.FwFlashBlocks
import UBoot.FwFlashAgree
import UBoot.Pxe
import UBoot.PxeGrammar
import UBoot.PxeParse
import UBoot.PxeAgree
import UBoot.MtdpartsBuffer
import UBoot.MtdpartsOrder
import UBoot.CmdTest
import UBoot.ReadlineHistory
import UBoot.HushVars
import UBoot.NetReceive
import UBoot.HushWords
import UBoot.HushReparse
import UBoot.Uuid
import UBoot.SRecordRoundTrip
import UBoot.DosAgree
import UBoot.GptBounds
import UBoot.DhcpReplies
import UBoot.DhcpRequest
import UBoot.NandErase
import UBoot.NandLength
import UBoot.RangeTree
import UBoot.MachineInt
import UBoot.Ext4Volume
import UBoot.Ext4Extents
import UBoot.ReadCache
import UBoot.Ext4Indirect
import UBoot.FilledBuffer
import UBoot.Ext4ReadFile
import UBoot.HashTableProbe
import UBoot.OnesComplement
import UBoot.UdpChecksum
import UBoot.NumberText
import UBoot.NumberRead
import UBoot.FatVolume
import UBoot.StepLoop
import UBoot.Asking
import UBoot.FatLoops
import UBoot.FatDirLoops
import UBoot.FatNames
import UBoot.FatReadBack
import UBoot.FatSlots
import UBoot.FatTable
import UBoot.FatContents
import UBoot.Dns
import UBoot.DnsAnswer
import UBoot.NfsBounds
import UBoot.PxeSearch
import UBoot.EcdsaKey
import UBoot.Crc32Words
