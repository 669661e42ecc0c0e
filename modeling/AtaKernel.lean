import AtaKernel.Library.ByteMemory
import AtaKernel.Library.PortIo
import AtaKernel.Ata.Driver
import AtaKernel.Ata.Polling
import AtaKernel.Ata.Device
import AtaKernel.Ata.DeviceRuns
import AtaKernel.Ata.Transfers
import AtaKernel.Ata.SectorCount
import AtaKernel.Ata.Addressing
import AtaKernel.Library.BlockStore
import AtaKernel.Ata.LastWriter
import AtaKernel.Ata.WriteCompletion
import AtaKernel.Ata.WordsMoved
import AtaKernel.Ata.PortConfinement
import AtaKernel.Ata.Identify
import AtaKernel.Ata.DataPhase
import AtaKernel.Ata.Identification
import AtaKernel.Ata.InitSlots
import AtaKernel.Library.RunSearch
import AtaKernel.Library.PackedTable
import AtaKernel.Library.MaximalRuns
import AtaKernel.Library.LinkedSegments
import AtaKernel.Memory.Frames
import AtaKernel.Memory.EntryArithmetic
import AtaKernel.Memory.Inspection
import AtaKernel.Memory.Entries
import AtaKernel.Memory.Heap
import AtaKernel.Memory.Blocks
import AtaKernel.Memory.ListEdits
import AtaKernel.Memory.HeapCalls
import AtaKernel.Memory.Init
import AtaKernel.Memory.Ledger
import AtaKernel.Memory.Owners
import AtaKernel.Memory.Runs
import AtaKernel.Memory.Tiling
import AtaKernel.Memory.HeapShape
import AtaKernel.Memory.Coexistence
import AtaKernel.Memory.RequestSizes
import AtaKernel.Memory.FreeOrder
import AtaKernel.Memory.MemoryMap
import AtaKernel.Memory.FrameOwnership
import AtaKernel.Memory.FrameRequests
import AtaKernel.Memory.FrameAddresses
import AtaKernel.Memory.ReservedFrames
import AtaKernel.Memory.GivingBack
import AtaKernel.Boot.MmapInit
import AtaKernel.Boot.MapCollection
import AtaKernel.Minix.Image
import AtaKernel.Minix.FileBlocks
import AtaKernel.Minix.Ownership
import AtaKernel.Minix.CopyLoop
import AtaKernel.Minix.Truncation
import AtaKernel.Minix.ZonesInUse
import AtaKernel.Boot.LoadZone
import AtaKernel.Boot.SameZone
import AtaKernel.Boot.LoadKernel
import AtaKernel.Minix.Directory
import AtaKernel.Boot.DirectorySearch
import AtaKernel.Minix.Partition
import AtaKernel.Minix.Install
import AtaKernel.Library.RingBuffer
import AtaKernel.Drivers.Machine
import AtaKernel.Drivers.Serial
import AtaKernel.Drivers.Keyboard
import AtaKernel.Drivers.SerialRouting
import AtaKernel.Drivers.SerialQueue
import AtaKernel.Drivers.SerialWrite
import AtaKernel.Interrupts.Processor
import AtaKernel.Library.DwordStack
import AtaKernel.Interrupts.Entry
import AtaKernel.Minix.InodeStore
import AtaKernel.Minix.RootDirectory
import AtaKernel.Minix.KernelEntry
import AtaKernel.Library.CString
import AtaKernel.Text.Numbers
import AtaKernel.Library.Numerals
import AtaKernel.Text.Formats
import AtaKernel.Text.NumberText
import AtaKernel.Text.FormatGrammar
import AtaKernel.Text.Rendering
import AtaKernel.Text.Framebuffer
import AtaKernel.Text.SamePrinting
import AtaKernel.Text.FramebufferCalls
import AtaKernel.Text.Tokens
import AtaKernel.Drivers.KeyGroups
import AtaKernel.Minix.SpaceCheck
import AtaKernel.Minix.KernelListed
import AtaKernel.Boot.LoadInodes
import AtaKernel.Boot.InstalledKernel
import AtaKernel.Minix.Reopening
import AtaKernel.Boot.MasterBoot
import AtaKernel.Boot.BuiltDisk
import AtaKernel.Boot.KernelInit
import AtaKernel.Memory.KernelStack
import AtaKernel.Text.Screen
import AtaKernel.Boot.KernelMain
import AtaKernel.Interrupts.Pic
