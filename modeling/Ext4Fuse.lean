import Ext4Fuse.Disk
import Ext4Fuse.PathLookup
import Ext4Fuse.Readdir
import Ext4Fuse.DirectoryWalks
import Ext4Fuse.AllocRequests
import Ext4Fuse.FreeBlocks
import Ext4Fuse.BufferFree
import Ext4Fuse.BufferTree
import Ext4Fuse.OpRead
import Ext4Fuse.OpWrite
import Ext4Fuse.LookupErrors
import Ext4Fuse.UnwrittenBlocks
import Ext4Fuse.IndirectBlocks
import Ext4Fuse.Extents.Remove
import Ext4Fuse.Extents.Untrusted
import Ext4Fuse.Extents.Merge
import Ext4Fuse.Extents.NextAllocated
import Ext4Fuse.Extents.Goals
import Ext4Fuse.GroupBitmap
import Ext4Fuse.Groups
import Ext4Fuse.Geometry
import Ext4Fuse.GroupChecksum
import Ext4Fuse.InodeTable
import Ext4Fuse.IoErrors
import Ext4Fuse.GroupTable
import Ext4Fuse.Extents.RemoveSpace
import Ext4Fuse.Extents.Convert
import Ext4Fuse.Extents.RemoveLeaf
import Ext4Fuse.BitmapInts
import Ext4Fuse.DcacheCalls
import Ext4Fuse.PathTokens
import Ext4Fuse.Readlink
import Ext4Fuse.Extents.InsertExtent
import Ext4Fuse.Extents.PathKept
import Ext4Fuse.SparseGroups
import Ext4Fuse.BdevFree
import Ext4Fuse.Rbtree.Runs
import Ext4Fuse.Writeback
import Ext4Fuse.DirectoryListing
import Ext4Fuse.DiskRuns
import Ext4Fuse.BlockAccounts
import Ext4Fuse.Checksums
import Ext4Fuse.MappedFiles
