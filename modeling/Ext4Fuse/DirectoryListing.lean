import Ext4Fuse.DirectoryWalks

/-! The two readers of a directory over one another: what `op_readdir` lists below a path, and what a lookup resolves below it. -/
namespace Ext4Fuse.DirectoryListing
open Machine Dcache Directory PathLookup Readdir DirectoryWalks Library.Bytes Library.Steps

variable {block : BlockSize} {nameBuf : Nat} {dir : DirInode} {v : PathLookup.Volume} {d : DcacheTree}

end Ext4Fuse.DirectoryListing
