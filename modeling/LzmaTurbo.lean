import LzmaTurbo.Enc.FinderRuns
import LzmaTurbo.Enc.LzmaEncEnds
import LzmaTurbo.Enc.PipeRuns
import LzmaTurbo.Enc.PriceTables
import LzmaTurbo.Enc.RangeAgreement
import LzmaTurbo.Enc.Writers
import LzmaTurbo.Filters.Bcj2Calls
import LzmaTurbo.Filters.Bcj2RoundTrip
import LzmaTurbo.Filters.BcjKernels
import LzmaTurbo.Filters.DeltaCalls
import LzmaTurbo.Lzma.SymbolInterval
import LzmaTurbo.Lzma2.BorrowedReads
import LzmaTurbo.Lzma2.BranchFree
import LzmaTurbo.Lzma2.RunScan
import LzmaTurbo.Lzma2.Safety
import LzmaTurbo.Mt.MtCoderSchedule
import LzmaTurbo.Mt.SegQueueRuns
import LzmaTurbo.Xz.Deliveries
import LzmaTurbo.Xz.IndexAgreement
import LzmaTurbo.Lib.PairedRuns
import LzmaTurbo.Lzma.TwinCalls
import LzmaTurbo.Lzma2.Restart
