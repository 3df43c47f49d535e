import MinLz.Block.CodecCorrect
import MinLz.Block.Sizes
import MinLz.Block.TokenLaw
import MinLz.Varints
import MinLz.Index.Find
import MinLz.Index.Headers
import MinLz.Index.Scan
import MinLz.Index.Sorted
import MinLz.Stream.Positions
import MinLz.Stream.Splitting
import MinLz.Stream.Truncated
import MinLz.Stream.Failing
import MinLz.Stream.CrcUpdate
import MinLz.Stream.MtDecode
import MinLz.Stream.Padded
import MinLz.Stream.SeekIndexed
import MinLz.Block.Smallest
