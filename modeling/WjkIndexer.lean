import WjkIndexer.Blk.Faithful
import WjkIndexer.Rest.TokenEvents
import WjkIndexer.Rest.Address
import WjkIndexer.Rest.Audit
import WjkIndexer.Blk.Index
import WjkIndexer.Blk.Varint
import WjkIndexer.Blk.XorReader
import WjkIndexer.Blk.Script
import WjkIndexer.Database.Partials
import WjkIndexer.Rest.History
import WjkIndexer.Database.Pebble
import WjkIndexer.Rest.Ticks
import WjkIndexer.Tokens.Log
import WjkIndexer.Indexer.Unspent
import WjkIndexer.Indexer.Anchored
import WjkIndexer.Tokens.Conservation
import WjkIndexer.Indexer.Locks
import WjkIndexer.Indexer.HoldersIndex
import WjkIndexer.Reorg.Visible
import WjkIndexer.Indexer.Crash
import WjkIndexer.Indexer.Genesis
import WjkIndexer.Indexer.Reordered
import WjkIndexer.Indexer.Satoshis
import WjkIndexer.Inscriptions.Pushes
import WjkIndexer.Inscriptions.Pieces
import WjkIndexer.Inscriptions.Enveloped
import WjkIndexer.Tokens.Holdings
import WjkIndexer.Indexer.HistoryIds
import WjkIndexer.Inscriptions.Fields
import WjkIndexer.Tokens.Spelling
import WjkIndexer.Indexer.Unfinished
import WjkIndexer.Blk.Reorgs
import WjkIndexer.Blk.Startup
import WjkIndexer.Blk.CatchesUp
import WjkIndexer.Indexer.Digits
import WjkIndexer.Indexer.Respelled
import WjkIndexer.Indexer.EventIndex
import WjkIndexer.Indexer.Loop
import WjkIndexer.Indexer.Rebuilt
import WjkIndexer.Indexer.Journal
import WjkIndexer.Indexer.Direct
import WjkIndexer.Indexer.Synced
import WjkIndexer.Server.Delivery
import WjkIndexer.Indexer.Heights
import WjkIndexer.Inscriptions.Owners
import WjkIndexer.Rest.Entries
import WjkIndexer.Rest.Proofs
import WjkIndexer.Rest.Status
import WjkIndexer.Rest.Tokens
import WjkIndexer.Rest.ProofPages
import WjkIndexer.Blk.Blocks
import WjkIndexer.Blk.Written
import WjkIndexer.Rest.Commitment
