import WjkIndexer.Chain.Valid
import WjkIndexer.Indexer.Handle

/-!
Runs of the indexer process: blocks that are handled, reorgs that are restored from the
cache, and restarts, together with the chain of the blocks that are applied.
-/

namespace WjkIndexer

/-- The state of the process, with the applied blocks as a ghost. -/
structure Process where
  server : Server := {}
  reorgCache : ReorgCache := {}
  chain : Chain := []

namespace Process

def db (process : Process) : DB := process.server.db

end Process

inductive Event where
  | block (height : Nat) (new : Block) (handleReorgs : Bool)
  | restore (height : Nat)
  | restart
  deriving Repr

def Process.step (env : Env) (process : Process) : Event → Except HandleError Process
  | .block height new handleReorgs => do
      -- a block that is handled while catching up clears the cache first
      let reorgCache : ReorgCache :=
        if handleReorgs then process.reorgCache else { process.reorgCache with blocks := [] }
      let (server, reorgCache) ← handle env process.server reorgCache height new handleReorgs
      .ok { server, reorgCache, chain := (height, new) :: process.chain }
  | .restore height =>
      let (reorgCache, db) := process.reorgCache.restore process.db height
      .ok {
        server := { process.server with db }
        reorgCache
        chain := process.chain.drop
          (process.reorgCache.blocks.length - reorgCache.blocks.length) }
  | .restart => .ok { process with
      server := { process.server with holders := Holders.init process.db.addressTokenToBalance }
      reorgCache := {} }

/-- Blocks are consensus-valid and follow the applied chain. -/
def Event.Valid (env : Env) (process : Process) : Event → Prop
  | .block height new _ =>
      process.chain.Follows height ∧ ValidBlock env process.chain.utxo process.chain.txids new
  | .restore _ => True
  | .restart => True

/-- The states that runs of valid events reach from the empty database, when every event
also meets the condition `allowed`. -/
inductive Reachable (env : Env) (allowed : Process → Event → Prop) : Process → Prop where
  | start : Reachable env allowed {}
  | step {process next : Process} {event : Event} (reached : Reachable env allowed process)
      (valid : event.Valid env process) (permitted : allowed process event)
      (stepped : process.step env event = .ok next) : Reachable env allowed next

instance (env : Env) (process : Process) (event : Event) : Decidable (event.Valid env process) :=
  match event with
  | .block height new _ => inferInstanceAs (Decidable
      (process.chain.Follows height ∧ ValidBlock env process.chain.utxo process.chain.txids new))
  | .restore _ => inferInstanceAs (Decidable True)
  | .restart => inferInstanceAs (Decidable True)

end WjkIndexer
