import TreeBitmap.Lib.BitString
import TreeBitmap.Lib.LongestMatch
import TreeBitmap.Lib.Ranked
import TreeBitmap.Lib.Ledger
import TreeBitmap.Lib.Run
import TreeBitmap.Lib.Carving
import TreeBitmap.Lib.Shared
import TreeBitmap.Lib.Ring
import TreeBitmap.Lib.HighWater
import TreeBitmap.Mm
import TreeBitmap.MbNode
import TreeBitmap.Address
import TreeBitmap.Bitmap
import TreeBitmap.Tbm
import TreeBitmap.CompressNhi
import TreeBitmap.MmColor
import TreeBitmap.Edits
import TreeBitmap.Slots
import TreeBitmap.Stride
import TreeBitmap.Words
import TreeBitmap.TreeFunction
import TreeBitmap.Trie
import TreeBitmap.Search
import TreeBitmap.Overlap
import TreeBitmap.Insert
import TreeBitmap.Delete
import TreeBitmap.Stray
import TreeBitmap.Destroy
import TreeBitmap.Stored
import TreeBitmap.Refinement
import TreeBitmap.Canonical
import TreeBitmap.Traversal
import TreeBitmap.Packed
import TreeBitmap.Compressed
import TreeBitmap.Colors
import TreeBitmap.Blocks
import TreeBitmap.Accounts
import TreeBitmap.Leaks
import TreeBitmap.Entry
import TreeBitmap.LeafPushing
import TreeBitmap.Engines
import TreeBitmap.InitTable
import TreeBitmap.Callbacks
import TreeBitmap.Absent
import TreeBitmap.Batch
import TreeBitmap.Queries
import TreeBitmap.Bounds
import TreeBitmap.Visits
import TreeBitmap.Refusal
import TreeBitmap.Placement
import TreeBitmap.ListHead
import TreeBitmap.ColorLists
import TreeBitmap.Allocators
import TreeBitmap.EntryBooks
import TreeBitmap.Footprint
import TreeBitmap.Leftovers
import TreeBitmap.Profile
import TreeBitmap.Redundant
import TreeBitmap.Savings
import TreeBitmap.SlotBooks
import TreeBitmap.SlotReaders
import TreeBitmap.SlotDestroy
import TreeBitmap.Peaks
import TreeBitmap.Exhausted
import TreeBitmap.Reload
import TreeBitmap.ByteOrder
import TreeBitmap.SlotPlacement
import TreeBitmap.TriePeaks
