import ClickHouse.Common.Base58
import ClickHouse.Common.HashTableMap
import ClickHouse.Common.HilbertCurve
import ClickHouse.Common.IPv6RoundTrip
import ClickHouse.Common.IntervalTreeExact
import ClickHouse.Common.MortonCurve
import ClickHouse.Compression.FPC
import ClickHouse.Coordination.Sessions
import ClickHouse.Coordination.SetRequest
import ClickHouse.Coordination.Watches
import ClickHouse.IO.DecimalTextExact
import ClickHouse.Interpreters.CNFReduction
import ClickHouse.Interpreters.ComparisonGraph
import ClickHouse.MergeTree.ArrivalOrder
import ClickHouse.MergeTree.CurveArguments
import ClickHouse.MergeTree.DeduplicationLog
import ClickHouse.MergeTree.ExactRanges
import ClickHouse.MergeTree.LikePrefix
import ClickHouse.MergeTree.PartName
import ClickHouse.MergeTree.SpaceFillingCurves
import ClickHouse.Processors.LimitRun
import ClickHouse.Processors.WindowFrameNulls
import ClickHouse.QueryPlan.FinalAfterSkipIndex
import ClickHouse.QueryPlan.LayerFilters
import ClickHouse.QueryPlan.SplitPartsRanges
