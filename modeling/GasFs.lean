import GasFs.Page
import GasFs.BlockMap
import GasFs.Isolation
import GasFs.Mount
import GasFs.Dir.Readdir
import GasFs.Dir.Bounds
import GasFs.Dir.Changing
import GasFs.InodeMap
import GasFs.Mkfs.Agree
import GasFs.Mkfs.Offsets
import GasFs.Itree.Progress
import GasFs.Itree.Range
import GasFs.Itree.Reserve
import GasFs.Itree.Fault
import GasFs.Itree.Numbering
import GasFs.Statfs
import GasFs.BlockCount
import GasFs.BlockSearch
import GasFs.FreeOrder
import GasFs.Lib.Namespace
import GasFs.Namei
import GasFs.Namei.Fault
import GasFs.Namei.RenameMoves
import GasFs.Namei.Unique
import GasFs.System
import GasFs.Namei.Failed
import GasFs.Namei.Served
import GasFs.Remount
import GasFs.Contents
import GasFs.Whole
