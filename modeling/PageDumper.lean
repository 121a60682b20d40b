import PageDumper.Lib.Memory
import PageDumper.Lib.Reader
import PageDumper.Lib.Grouping
import PageDumper.Lib.LZ77
import PageDumper.Lib.RowTable
import PageDumper.Lib.Words
import PageDumper.Lib.SqlText
import PageDumper.Lib.HashChains
import PageDumper.Lib.HexText
import PageDumper.Lib.Outcome
import PageDumper.Page
import PageDumper.Tuple
import PageDumper.PglzDecompress
import PageDumper.PglzBounds
import PageDumper.PglzTokens
import PageDumper.PglzExits
import PageDumper.PglzTwoRuns
import PageDumper.PglzCopies
import PageDumper.PglzFormat
import PageDumper.PglzRoundTrip
import PageDumper.PglzAccepted
import PageDumper.PglzHistory
import PageDumper.PglzMatch
import PageDumper.PglzEmit
import PageDumper.PglzCompress
import PageDumper.PglzGreedy
import PageDumper.PglzInverse
import PageDumper.Datum
import PageDumper.SampleWalk
import PageDumper.AddedColumns
import PageDumper.ToastMap
import PageDumper.ChunkRecord
import PageDumper.ItemExtent
import PageDumper.PageScan
import PageDumper.ToastImage
import PageDumper.ToastPointer
import PageDumper.TossedVarlen
import PageDumper.ChunkAssembly
import PageDumper.Reassembly
import PageDumper.ToastedText
import PageDumper.SharedStream
import PageDumper.CompressedValue
import PageDumper.SourceReads
import PageDumper.PglzOvershoot
import PageDumper.CorruptedValue
import PageDumper.SampleUser
import PageDumper.InlineVarlena
import PageDumper.Script
import PageDumper.SqlRow
import PageDumper.MainRun
import PageDumper.ToastFilling
import PageDumper.ToastDumper
import PageDumper.StoredRow
import PageDumper.SampleRun
import PageDumper.SampleExit
import PageDumper.Printing
