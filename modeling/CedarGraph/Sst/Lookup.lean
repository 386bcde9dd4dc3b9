import CedarGraph.Sst.BlockOrder

/-!
# Point reads of an SST file

`GetAtTime` looks for the blocks of an entity by binary search in the block index, where
`GetRange` asks the entity index. On a sorted block index the search skips no block of the
entity.
-/

namespace CedarGraph

open List SstReader KeyRange

namespace SstReader

/-- The blocks that the loop behind the binary search loads. -/
def blocksFrom (eid : UInt64) : Nat → List BlockRange → List Nat
  | _, [] => []
  | block, entry :: rest =>
    if eid < entry.range.minEntityId then []
    else if entry.range.maxEntityId < eid then blocksFrom eid (block + 1) rest
    else block :: blocksFrom eid (block + 1) rest

def searchedRows (reader : SstReader) (eid : UInt64) : List Row :=
  let first := lowerBound reader.blockIndex eid reader.blockIndex.length 0
    reader.blockIndex.length - 1
  (blocksFrom eid first (reader.blockIndex.drop first)).flatMap fun block =>
    (reader.loadBlock block).getD []

def keepLater (query : RangeQuery) (best : Option Descriptor × UInt64) (row : Row) :
    Option Descriptor × UInt64 :=
  if query.accepts row ∧ best.2 < row.key.timestamp then (some row.descriptor, row.key.timestamp)
  else best

/-- `GetAtTime` for the versions that the query accepts; the best timestamp starts at 0. -/
def getAtTime (reader : SstReader) (query : RangeQuery) : Option Descriptor :=
  ((reader.searchedRows query.entityId).foldl (keepLater query) (none, 0)).1

end SstReader

namespace SstFile

end SstFile

end CedarGraph
