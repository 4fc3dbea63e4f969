import RustHadoop.Meta.Transactions

/-!
# Chunk servers for files

How a master of `dfs/metaserver/src/master.rs` chooses the chunk servers of a block, and what it reports about a
file.
-/

namespace RustHadoop

structure ChunkServerStatus where
  lastHeartbeat : Nat
  usedSpace : Nat
  availableSpace : Nat
  chunkCount : Nat
  rackId : String
deriving DecidableEq, Repr

/-- A server without a rack is a rack of its own. -/
def rackKey (server : String × ChunkServerStatus) : String :=
  if server.2.rackId = "" then "__addr__" ++ server.1 else server.2.rackId

variable (servers : List (String × ChunkServerStatus))

def byAvailableSpace : List (String × ChunkServerStatus) :=
  servers.mergeSort fun a b => b.2.availableSpace ≤ a.2.availableSpace

/-- The servers of each rack, best first, and the racks by their best server. -/
def racks : List (List (String × ChunkServerStatus)) :=
  let buckets : StringMap (List (String × ChunkServerStatus)) := (byAvailableSpace servers).foldl
    (fun m s => m.insert (rackKey s) ((m.lookup (rackKey s)).getD [] ++ [s])) ∅
  let best : List (String × ChunkServerStatus) → Nat :=
    fun rack => (rack.head?.map fun s => s.2.availableSpace).getD 0
  (buckets.entries.map fun b => b.2).mergeSort fun a b => best b ≤ best a

/-- One round: the next server of each rack, until `n` servers are selected. -/
def pickRound (n : Nat) : List String → List (List String) → List String × List (List String)
  | selected, [] => (selected, [])
  | selected, rack :: rest =>
    if n ≤ selected.length then (selected, rack :: rest)
    else match rack with
      | [] =>
        let r := pickRound n selected rest
        (r.1, [] :: r.2)
      | server :: others =>
        let r := pickRound n (selected ++ [server]) rest
        (r.1, others :: r.2)

/-- Rounds until `n` servers are selected or none is left; every round but the last selects one, so `n` are
enough. -/
def pickRounds (n : Nat) : Nat → List String → List (List String) → List String
  | 0, selected, _ => selected
  | rounds + 1, selected, rest =>
    let r := pickRound n selected rest
    if r.1.length = selected.length then selected else pickRounds n rounds r.1 r.2

def selectServersRackAware (n : Nat) : List String :=
  pickRounds n n [] ((racks servers).map fun rack => rack.map fun s => s.1)

structure GetFileInfoResponse where
  metadata : Option FileMetadata
  found : Bool
deriving DecidableEq

end RustHadoop
