import TableScan.Main
import TableScan.Table.Writer
import TableScan.Proofs.RowKey.TupleOrder
import TableScan.Proofs.Table.Cursors
import TableScan.Proofs.Schema.Union
import TableScan.Proofs.Projection.Text
import TableScan.Proofs.Reader.Merge
import TableScan.Proofs.Reader.SortedTables
import TableScan.Proofs.Projection.Resolved
import TableScan.Proofs.Reader.Through
import TableScan.Proofs.Reader.InTurn
import TableScan.Proofs.Reader.Pushdown
import TableScan.Proofs.Reader.Shares
import TableScan.Proofs.Load.Isolation
import TableScan.Proofs.Reader.Projected
import TableScan.Proofs.Json.Values
import TableScan.Proofs.Schema.Text
import TableScan.Proofs.Files.Disks
import TableScan.Proofs.Table.StoredValues
import TableScan.Proofs.Table.Writing
import TableScan.Proofs.Reader.WrittenTables
import TableScan.Proofs.Table.SortedWriting
import TableScan.Proofs.Table.Reopening
import TableScan.Proofs.Keeps
import TableScan.Proofs.Load.HostCalls
import TableScan.Proofs.Load.Watched
import TableScan.Proofs.Load.Turns
import TableScan.Proofs.Load.ValidPlans
import TableScan.Proofs.Load.Frozen
import TableScan.Proofs.Load.LifeCycle
import TableScan.Proofs.Table.Scans
import TableScan.Proofs.Load.Failures
import TableScan.Proofs.Load.PlanText
import TableScan.Proofs.Load.SharedSchema
import TableScan.Proofs.Schema.CanonicalText
import TableScan.Proofs.Projection.Survival
import TableScan.Proofs.Projection.Chosen
import TableScan.Proofs.Load.Announced
import TableScan.Proofs.Load.Relocated
import TableScan.Proofs.Binary.Decimals
import TableScan.Proofs.Json.Readable
import TableScan.Proofs.Table.ReadableRows
import TableScan.Proofs.Projection.Canonical
import TableScan.Proofs.Projection.History
import TableScan.Proofs.Projection.Composed
import TableScan.Proofs.Attempts
import TableScan.Proofs.Files.Contents
import TableScan.Proofs.Schema.Absorbed
import TableScan.Proofs.Schema.Regrouping
import TableScan.Proofs.Table.RefusedTables
import TableScan.Proofs.Table.RefusedRows
import TableScan.Proofs.Table.Damage
import TableScan.Proofs.Table.SurvivingValues
import TableScan.Proofs.RowKey.RecordKeys
import TableScan.Proofs.Load.RecordSeeks
import TableScan.Proofs.Reader.KeyedReading
import TableScan.Proofs.Location.Alternatives
import TableScan.Proofs.Location.Splitting
import TableScan.Proofs.Binary.Closeness
import TableScan.Proofs.Binary.Reading
import TableScan.Proofs.Binary.Shortest
import TableScan.Proofs.Json.Doubles
import TableScan.Proofs.RowKey.NumericOrder
import TableScan.Proofs.Table.StoredDoubles
import TableScan.Proofs.Location.Resolution
import TableScan.Proofs.Table.Offsets
import TableScan.Proofs.Settings
import TableScan.Proofs.Log
import TableScan.Proofs.Command.FieldLists
import TableScan.Proofs.Location.Fixpoints
import TableScan.Proofs.Projection.Positions
