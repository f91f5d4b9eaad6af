import Pglite.Runs
import Pglite.CommitProof
import Pglite.PoolProof
import Pglite.QueryProof
import Pglite.SerialProof
import Pglite.GatewayProof
import Pglite.Replica.ExactlyOnce
import Pglite.Replica.Expectation
import Pglite.PoolWake
import Pglite.Live.Tables
import Pglite.Live.Refresh
import Pglite.Live.RefreshProof
import Pglite.Live.Triggers
import Pglite.Live.TriggersProof
import Pglite.Replica.Introspection
import Pglite.Replica.Reconcile
import Pglite.Replica.ReconcileProof
import Pglite.Replica.SecuritySync
import Pglite.Replica.Exposure
import Pglite.Replica.QueryAs
import Pglite.Replica.QueryAsProof
import Pglite.Replica.SchemaDelta
import Pglite.Replica.SchemaDeltaProof
import Pglite.Replica.SchemaSession
import Pglite.Replica.SchemaSessionProof
import Pglite.Records
import Pglite.Replica.Rows
import Pglite.Replica.RowsProof
import Pglite.Replica.Convergence
import Pglite.SqlLexer
import Pglite.Replica.RowStatement
import Pglite.Notify
import Pglite.ByteReader
import Pglite.Replica.PgOutput
import Pglite.Replica.PolicyStatement
import Pglite.Replica.RowEffect
import Pglite.Replica.LocalConstraints
import Pglite.Replica.LocalServer
import Pglite.Replica.SecurityFingerprintProof
import Pglite.Frames
import Pglite.GatewayFilter
import Pglite.GatewayReader
import Pglite.CopyIn
import Pglite.Replica.CopyTables
import Pglite.Replica.StartReplication
import Pglite.Worker
import Pglite.NotifyReader
import Pglite.Replica.FingerprintLines
import Pglite.Postorder
import Pglite.Replica.TypeOrder
import Pglite.Replica.LsnText
import Pglite.Libpq
import Pglite.Lossy
import Pglite.ConnectionUri
import Pglite.Live.TriggerScript
import Pglite.FormatLiterals
import Pglite.Extract
import Pglite.Replica.Introspect
import Pglite.Replica.SchemaRetry
import Pglite.Replica.SchemaDatabase
import Pglite.Replica.SchemaRepeat
import Pglite.Replica.FirstRun
import Pglite.Replica.FirstRunTypes
import Pglite.Replica.FirstRunProof
import Pglite.Replica.FirstRunSecurity
import Pglite.Replica.Snapshot
import Pglite.Replica.Start
import Pglite.Incremental
import Pglite.Replica.Wire
import Pglite.Replica.CopyStream
import Pglite.Replica.Feedback
import Pglite.Replica.Requests
import Pglite.Engine
import Pglite.EngineThread
import Pglite.ProcessProof
