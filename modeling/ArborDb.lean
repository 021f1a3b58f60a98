import ArborDb.Access.Reader
import ArborDb.Codec.Dir
import ArborDb.Codec.Total
import ArborDb.Data.Accessors
import ArborDb.Data.Conditional
import ArborDb.Data.Disturbed
import ArborDb.Data.Load
import ArborDb.Db.Handles
import ArborDb.Db.Indexed
import ArborDb.Db.InodeCaches
import ArborDb.Db.Realm
import ArborDb.Db.RemovalIndexes
import ArborDb.Export.Yaml
import ArborDb.Index.Catalog
import ArborDb.Index.Decimals
import ArborDb.Index.Numbers
import ArborDb.Index.Order
import ArborDb.Index.Scope
import ArborDb.Inode.Updates
import ArborDb.Path.Normal
import ArborDb.Perm.Codec
import ArborDb.Perm.Integrity
import ArborDb.Serde.Bridge
import ArborDb.Txn.Authorised
import ArborDb.Txn.Cursor
import ArborDb.Txn.FileSystem
import ArborDb.Txn.Forgery
import ArborDb.Txn.HintRun
import ArborDb.Txn.Run
import ArborDb.Value.Laws
import ArborDb.Db.Queries
import ArborDb.Db.Evidence
import ArborDb.Db.Secrecy
import ArborDb.Txn.Unbuffered
