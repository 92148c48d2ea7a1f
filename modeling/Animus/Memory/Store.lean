import Mathlib.Algebra.Order.Field.Basic
import Mathlib.Algebra.Order.Field.Rat
import Mathlib.Data.Rat.Sqrt
import Mathlib.Order.WithBot
import Mathlib.Tactic.Linarith
import Mathlib.Tactic.Positivity
import Animus.Lib.Ranking
import Animus.Runtime

/-!
# The memory store

Memories and their embeddings, and the two searches over them. Metadata are kept
as their `jsonb` column gives them back. Numbers are exact: they range over an
ordered field, and `⊤` stands for `NaN`, which the server sorts above every
number. `tsRank` stands for `ts_rank` of the text generated from a content, and a
query.

## Main definitions

- `Memories`, `storeMemory`: the table, and how it grows
- `CosineDistance`: what is known of the distance of the vector extension
- `searchMemoryByVector`, `hybridSearch`: the searches, over one scan of the table
- `FallsBack`: without a match of the text both searches may return the same

## Main results

- `fallsBack_iff`: exactly when they do
-/

namespace Animus

open Sql (Timestamp)
open Ranking

/-- A stored memory entry retrieved from the database. -/
structure MemoryEntry where
  id : ℤ
  content : String
  memoryType : String
  source : Option String
  metadata : Json
  createdAt : Timestamp
  updatedAt : Timestamp

/-- Filters for memory search queries. -/
structure MemoryFilters where
  memoryType : Option String := none
  source : Option String := none
  since : Option Timestamp := none

section Table

variable {F : Type}

/-- Parameters for creating a new memory entry. A number of an embedding is none where it is not
finite. -/
structure NewMemory (F : Type) where
  content : String
  memoryType : String
  source : Option String
  metadata : Json
  embedding : List (Option F)

/-- A row of the table `memories`. -/
structure MemoryRow (F : Type) extends MemoryEntry where
  embedding : List F

/-- The dimensions of the column `embedding`. -/
@[irreducible] def dimensions : ℕ := 1536

/-- `$n::vector`: one number at least, and finite ones only. -/
def castVector (embedding : List (Option F)) : Except Error (List F) :=
  if embedding.isEmpty || 16000 < embedding.length then .error (.database .badValue)
  else match embedding.mapM id with
    | some v => .ok v
    | none => .error (.database .badValue)

/-- The table: ids are unique, and every embedding has the dimensions of its column. -/
structure Memories (F : Type) where
  rows : List (MemoryRow F)
  nextId : ℤ
  nodup : (rows.map fun r => r.id).Nodup
  below : ∀ r ∈ rows, r.id < nextId
  sized : ∀ r ∈ rows, r.embedding.length = dimensions

namespace Memories

/-- The table after the migrations. -/
def initial : Memories F := ⟨[], 1, List.nodup_nil, List.forall_mem_nil _, List.forall_mem_nil _⟩

/-- The row of a new memory; its metadata are those that the `jsonb` column gives back. -/
def newRow (m : Memories F) (new : NewMemory F) (v : List F) (ch : Chance) : MemoryRow F where
  id := m.nextId
  content := new.content
  memoryType := new.memoryType
  source := new.source
  metadata := ch.jsonb new.metadata
  createdAt := ch.now
  updatedAt := ch.now
  embedding := v

/-- The table with one more row. -/
def add (m : Memories F) (new : NewMemory F) (v : List F) (ch : Chance)
    (hv : v.length = dimensions) : Memories F where
  rows := m.rows ++ [m.newRow new v ch]
  nextId := m.nextId + 1
  nodup := by
    rw [List.map_append, List.map_singleton]
    refine List.Nodup.append m.nodup (List.nodup_singleton _) ?_
    rw [List.disjoint_singleton]
    intro hmem
    obtain ⟨r, hr, hid⟩ := List.mem_map.mp hmem
    exact absurd (m.below r hr) (hid ▸ lt_irrefl _)
  below r hr := by
    obtain hr | hr := List.mem_append.mp hr
    · exact (m.below r hr).trans (lt_add_one _)
    · rw [List.mem_singleton.mp hr]
      exact lt_add_one _
  sized r hr := by
    obtain hr | hr := List.mem_append.mp hr
    · exact m.sized r hr
    · rw [List.mem_singleton.mp hr]
      exact hv

/-- `INSERT INTO memories … RETURNING id`. -/
def insert (m : Memories F) (new : NewMemory F) (ch : Chance) : Except Error ℤ × Memories F :=
  match castVector new.embedding with
  | .error e => (.error e, m)
  | .ok v =>
    if hv : v.length = dimensions then (.ok m.nextId, m.add new v ch hv)
    else (.error (.database .badValue), m)

@[simp] theorem newRow_content (m : Memories F) (new : NewMemory F) (v : List F) (ch : Chance) :
    (m.newRow new v ch).content = new.content := rfl

@[simp] theorem newRow_embedding (m : Memories F) (new : NewMemory F) (v : List F) (ch : Chance) :
    (m.newRow new v ch).embedding = v := rfl

/-- A vector of the right dimensions is stored. -/
theorem insert_of_cast (m : Memories F) (ch : Chance) {new : NewMemory F} {v : List F}
    (hcast : castVector new.embedding = .ok v) (hv : v.length = dimensions) :
    m.insert new ch = (.ok m.nextId, m.add new v ch hv) := by
  rw [insert, hcast]
  exact dif_pos hv

end Memories

/-- Store a new memory with its embedding vector. The statement commits by itself; under a fault the
caller gets the error, and the memory may be stored all the same. -/
def storeMemory (m : Memories F) (new : NewMemory F) (env : Env) : Except Error ℤ × Memories F :=
  match env.fault with
  | none => m.insert new env.chance
  | some f =>
    (.error (.database f.error), if f.took then (m.insert new env.chance).2 else m)

theorem storeMemory_ok {m : Memories F} {new : NewMemory F} {env : Env} (h : env.fault = none) :
    storeMemory m new env = m.insert new env.chance := by
  rw [storeMemory, h]

/-- The `WHERE` of both searches. -/
def MemoryFilters.accepts (filters : MemoryFilters) (r : MemoryRow F) : Bool :=
  filters.memoryType.all (· = r.memoryType) &&
    (filters.source.all fun source => r.source = some source) &&
      filters.since.all (· ≤ r.createdAt)

/-- What both searches share: the vector to compare with, none where no row is looked at. -/
def queryVector (scan : List (MemoryRow F)) (embedding : List (Option F)) (limit : ℤ)
    (filters : MemoryFilters) : Except Error (Option (List F)) := do
  let q ← castVector embedding
  if limit < 0 then throw (.database .badValue)
  else if limit = 0 then return none
  else if (scan.filter filters.accepts).all (·.embedding.length = q.length) then return some q
  -- different vector dimensions
  else throw (.database .badValue)

/-- The rows that the filters accept, first those of the least keys. -/
def searchBy {κ : Type} [LinearOrder κ] (key : List F → MemoryRow F → κ) (scan : List (MemoryRow F))
    (embedding : List (Option F)) (limit : ℤ) (filters : MemoryFilters) :
    Except Error (List MemoryEntry) :=
  (queryVector scan embedding limit filters).map fun q =>
    (q.elim [] fun q => firstBy (key q) limit.toNat (scan.filter filters.accepts)).map
      MemoryRow.toMemoryEntry

end Table

section Search

variable {F : Type} [Field F] [LinearOrder F]

/-- A vector of zeros. -/
def IsZero (v : List F) : Prop := ∀ x ∈ v, x = 0

instance (v : List F) : Decidable (IsZero v) := inferInstanceAs (Decidable (∀ x ∈ v, x = 0))

/-- `<=>`: no number where one of the vectors is zero, and one between 0 and 2 elsewhere. -/
structure CosineDistance (F : Type) [Field F] [LinearOrder F] where
  dist : List F → List F → WithTop F
  eq_top_iff : ∀ u v, u.length = v.length → (dist u v = ⊤ ↔ IsZero u ∨ IsZero v)
  bounds : ∀ u v (d : F), u.length = v.length → dist u v = d → 0 ≤ d ∧ d ≤ 2

/-- Search memories by vector similarity (cosine distance). -/
def searchMemoryByVector (cosine : CosineDistance F) (scan : List (MemoryRow F))
    (embedding : List (Option F)) (limit : ℤ) (filters : MemoryFilters) :
    Except Error (List MemoryEntry) :=
  searchBy (fun q r => cosine.dist r.embedding q) scan embedding limit filters

/-- The score of a memory, of its distance and its rank. -/
def hybridScore (distance : WithTop F) (rank : F) : WithTop F :=
  distance.map fun d => 1 / (1 / 10 ^ 6 + d) * (7 / 10) + rank * (3 / 10)

/-- Hybrid search combining BM25 full-text score and vector similarity, best score first. -/
def hybridSearch (cosine : CosineDistance F) (tsRank : String → String → F)
    (scan : List (MemoryRow F)) (text : String) (embedding : List (Option F)) (limit : ℤ)
    (filters : MemoryFilters) : Except Error (List MemoryEntry) :=
  searchBy (fun q r => OrderDual.toDual
    (hybridScore (cosine.dist r.embedding q) (tsRank r.content text))) scan embedding limit filters

/-- Both searches may return the same: for any order in which one scans the table there is one
in which the other comes to the same result. -/
def FallsBack (cosine : CosineDistance F) (tsRank : String → String → F) (m : Memories F)
    (text : String) (embedding : List (Option F)) (limit : ℤ) (filters : MemoryFilters) : Prop :=
  ∀ result, (∃ scan : List (MemoryRow F), scan.Perm m.rows ∧
      hybridSearch cosine tsRank scan text embedding limit filters = result) ↔
    ∃ scan : List (MemoryRow F), scan.Perm m.rows ∧
      searchMemoryByVector cosine scan embedding limit filters = result

/-- No query but a zero one meets accepted memories of which some are zero and some are not. -/
def Comparable (m : Memories F) (embedding : List (Option F)) (limit : ℤ)
    (filters : MemoryFilters) : Prop :=
  ∀ q, castVector embedding = .ok q → q.length = dimensions → 0 < limit → ¬ IsZero q →
    (∀ r ∈ m.rows, filters.accepts r = true → ¬ IsZero r.embedding) ∨
    ∀ r ∈ m.rows, filters.accepts r = true → IsZero r.embedding

end Search

/-! ### What the searches may return -/

section Results

variable {F : Type} {m : Memories F} {embedding : List (Option F)} {limit : ℤ}
  {filters : MemoryFilters} {q : List F}

/-- The memories that the filters accept. -/
def Memories.candidates (m : Memories F) (filters : MemoryFilters) : List (MemoryRow F) :=
  m.rows.filter filters.accepts

/-- The query that ranks some memories: a vector of their dimensions, with a limit above zero. -/
def Memories.Ranked (m : Memories F) (embedding : List (Option F)) (limit : ℤ)
    (filters : MemoryFilters) (q : List F) : Prop :=
  castVector embedding = .ok q ∧ 0 < limit ∧
    ∀ r ∈ m.candidates filters, r.embedding.length = q.length

theorem queryVector_of_ranked (h : m.Ranked embedding limit filters q) {scan : List (MemoryRow F)}
    (hscan : scan.Perm m.rows) : queryVector scan embedding limit filters = .ok (some q) := by
  obtain ⟨hcast, hlimit, hsized⟩ := h
  have hall : (scan.filter filters.accepts).all (·.embedding.length = q.length) = true :=
    List.all_eq_true.mpr fun r hr =>
      decide_eq_true (hsized r ((hscan.filter filters.accepts).subset hr))
  rw [queryVector, hcast]
  change (if limit < 0 then _ else _) = _
  rw [if_neg hlimit.not_gt, if_neg hlimit.ne', if_pos hall]
  rfl

theorem ranked_of_queryVector {scan : List (MemoryRow F)} (hscan : scan.Perm m.rows)
    (h : queryVector scan embedding limit filters = .ok (some q)) :
    m.Ranked embedding limit filters q := by
  rw [queryVector] at h
  cases hcast : castVector embedding with
  | error e =>
    rw [hcast] at h
    cases h
  | ok q' =>
    rw [hcast] at h
    change (if limit < 0 then _ else _) = _ at h
    by_cases hneg : limit < 0
    · rw [if_pos hneg] at h
      cases h
    by_cases hzero : limit = 0
    · rw [if_neg hneg, if_pos hzero] at h
      cases h
    by_cases hall : (scan.filter filters.accepts).all (·.embedding.length = q'.length) = true
    · rw [if_neg hneg, if_neg hzero, if_pos hall] at h
      cases h
      refine ⟨hcast, by omega, fun r hr => ?_⟩
      exact of_decide_eq_true
        (List.all_eq_true.mp hall r ((hscan.filter filters.accepts).symm.subset hr))
    · rw [if_neg hneg, if_neg hzero, if_neg hall] at h
      cases h

/-- Searches that rank memories may return what their rankings show. -/
theorem exists_searchBy_iff {κ : Type} [LinearOrder κ] {key : List F → MemoryRow F → κ}
    {result : Except Error (List MemoryEntry)} (h : m.Ranked embedding limit filters q) :
    (∃ scan : List (MemoryRow F), scan.Perm m.rows ∧
      searchBy key scan embedding limit filters = result) ↔
    ∃ ys, Ranks (key q) limit.toNat (m.candidates filters) ys ∧
      .ok (ys.map MemoryRow.toMemoryEntry) = result := by
  have hsearch : ∀ {scan : List (MemoryRow F)}, scan.Perm m.rows →
      searchBy key scan embedding limit filters = .ok ((firstBy (key q) limit.toNat
        (scan.filter filters.accepts)).map MemoryRow.toMemoryEntry) := by
    intro scan hscan
    rw [searchBy, queryVector_of_ranked h hscan]
    rfl
  constructor
  · rintro ⟨scan, hscan, rfl⟩
    exact ⟨_, exists_scan_iff.mp ⟨scan, hscan, rfl⟩, (hsearch hscan).symm⟩
  · rintro ⟨ys, hys, rfl⟩
    obtain ⟨scan, hscan, rfl⟩ := exists_scan_iff.mpr hys
    exact ⟨scan, hscan, hsearch hscan⟩

/-- Searches that rank no memories return the same for every scan. -/
theorem searchBy_congr {κ κ' : Type} [LinearOrder κ] [LinearOrder κ']
    (key : List F → MemoryRow F → κ) (key' : List F → MemoryRow F → κ')
    (h : ∀ q, ¬ m.Ranked embedding limit filters q) {scan : List (MemoryRow F)}
    (hscan : scan.Perm m.rows) :
    searchBy key scan embedding limit filters = searchBy key' scan embedding limit filters := by
  rw [searchBy, searchBy]
  cases hq : queryVector scan embedding limit filters with
  | error e => rfl
  | ok v =>
    cases v with
    | none => rfl
    | some q => exact absurd (ranked_of_queryVector hscan hq) (h q)

/-- Rows of the table with one entry are one row. -/
theorem Memories.eq_of_entry {r r' : MemoryRow F} (hr : r ∈ m.rows) (hr' : r' ∈ m.rows)
    (h : r.toMemoryEntry = r'.toMemoryEntry) : r = r' :=
  List.inj_on_of_nodup_map m.nodup hr hr' (congrArg MemoryEntry.id h)

end Results

/-! ### Falling back to the order of distances -/

section Fallback

variable {F : Type} [Field F] [LinearOrder F] {cosine : CosineDistance F}
  {tsRank : String → String → F} {m : Memories F} {text : String} {embedding : List (Option F)}
  {limit : ℤ} {filters : MemoryFilters} {q : List F}

theorem exists_searchMemoryByVector_iff (hranked : m.Ranked embedding limit filters q)
    {result : Except Error (List MemoryEntry)} :
    (∃ scan : List (MemoryRow F), scan.Perm m.rows ∧
      searchMemoryByVector cosine scan embedding limit filters = result) ↔
    ∃ ys, Ranks (fun r => cosine.dist r.embedding q) limit.toNat (m.candidates filters) ys ∧
      .ok (ys.map MemoryRow.toMemoryEntry) = result := exists_searchBy_iff hranked

/-- What the searches rank by, without a match of the text. -/
theorem exists_hybridSearch_iff (hranked : m.Ranked embedding limit filters q)
    (hrank : ∀ r ∈ m.rows, tsRank r.content text = 0) {result : Except Error (List MemoryEntry)} :
    (∃ scan : List (MemoryRow F), scan.Perm m.rows ∧
      hybridSearch cosine tsRank scan text embedding limit filters = result) ↔
    ∃ ys, Ranks (fun r => OrderDual.toDual (hybridScore (cosine.dist r.embedding q) 0)) limit.toNat
      (m.candidates filters) ys ∧ .ok (ys.map MemoryRow.toMemoryEntry) = result := by
  refine (exists_searchBy_iff hranked).trans (exists_congr fun ys => and_congr_left fun _ => ?_)
  refine ranks_congr fun a ha b hb => ?_
  rw [hrank a (List.mem_filter.mp ha).1, hrank b (List.mem_filter.mp hb).1]

variable (cosine) in
/-- A zero memory among others comes first in one search, and not in the other. -/
theorem not_fallsBack (hranked : m.Ranked embedding limit filters q)
    (hrank : ∀ r ∈ m.rows, tsRank r.content text = 0) (hq : ¬ IsZero q) {z a : MemoryRow F}
    (hz : z ∈ m.candidates filters) (hzero : IsZero z.embedding) (ha : a ∈ m.candidates filters)
    (hnonzero : ¬ IsZero a.embedding) :
    ¬ FallsBack cosine tsRank m text embedding limit filters := by
  intro h
  have hpos : 0 < limit.toNat := by have := hranked.2.1; omega
  have htop : ∀ r ∈ m.candidates filters, cosine.dist r.embedding q = ⊤ ↔ IsZero r.embedding := by
    intro r hr
    rw [cosine.eq_top_iff _ _ (hranked.2.2 r hr), or_iff_left hq]
  obtain ⟨ys, hys⟩ : ∃ ys, Ranks (fun r => OrderDual.toDual
      (hybridScore (cosine.dist r.embedding q) 0)) limit.toNat (m.candidates filters) ys :=
    ⟨_, ranks_firstBy ..⟩
  obtain ⟨ys', hys', hentries⟩ := (exists_searchMemoryByVector_iff hranked).mp
    ((h _).mp ((exists_hybridSearch_iff hranked hrank).mpr ⟨_, hys, rfl⟩))
  have hmap := Except.ok.inj hentries
  match ys, ys' with
  | [], _ => exact hys.ne_nil hpos ha rfl
  | _ :: _, [] => exact hys'.ne_nil hpos ha rfl
  | y :: ys, y' :: ys' =>
    -- both searches come to this one row first
    have hy := hys.mem List.mem_cons_self
    have hy' := hys'.mem List.mem_cons_self
    obtain rfl : y' = y := Memories.eq_of_entry (List.mem_filter.mp hy').1 (List.mem_filter.mp hy).1
      (List.cons.inj hmap).1
    have hbest : hybridScore (cosine.dist z.embedding q) 0 ≤
        hybridScore (cosine.dist y'.embedding q) 0 := OrderDual.toDual_le_toDual.mp (hys.head_le hz)
    rw [(htop z hz).mpr hzero, hybridScore, WithTop.map_top, top_le_iff, hybridScore,
      WithTop.map_eq_top_iff, htop y' hy] at hbest
    have hnear := hys'.head_le ha
    rw [(htop y' hy).mpr hbest, top_le_iff, htop a ha] at hnear
    exact hnonzero hnear

section Ordered

variable [IsStrictOrderedRing F]

/-- Without a rank a score is the greater the smaller the distance is. -/
theorem hybridScore_le {d d' : F} (hd : 0 ≤ d) (hd' : 0 ≤ d') :
    hybridScore (d' : WithTop F) 0 ≤ hybridScore (d : WithTop F) 0 ↔ d ≤ d' := by
  have hpos : (0 : F) < 1 / 10 ^ 6 := by positivity
  rw [hybridScore, hybridScore, WithTop.map_coe, WithTop.map_coe, WithTop.coe_le_coe, zero_mul,
    add_zero, add_zero, mul_le_mul_iff_left₀ (by positivity),
    one_div_le_one_div (by positivity) (by positivity), add_le_add_iff_left]

/-- Both keys order two rows alike where neither distance is a number, or both are. -/
theorem keys_le_iff {r r' : MemoryRow F} (hsize : r.embedding.length = q.length)
    (hsize' : r'.embedding.length = q.length)
    (h : cosine.dist r.embedding q = ⊤ ↔ cosine.dist r'.embedding q = ⊤) :
    OrderDual.toDual (hybridScore (cosine.dist r.embedding q) 0) ≤
        OrderDual.toDual (hybridScore (cosine.dist r'.embedding q) 0) ↔
      cosine.dist r.embedding q ≤ cosine.dist r'.embedding q := by
  rw [OrderDual.toDual_le_toDual]
  by_cases htop : cosine.dist r.embedding q = ⊤
  · rw [htop, h.mp htop]
    exact iff_of_true (le_refl _) (le_refl _)
  · obtain ⟨d, hd⟩ := WithTop.ne_top_iff_exists.mp htop
    obtain ⟨d', hd'⟩ := WithTop.ne_top_iff_exists.mp fun htop' => htop (h.mpr htop')
    rw [← hd, ← hd', WithTop.coe_le_coe]
    have hd₀ := (cosine.bounds _ _ d hsize hd.symm).1
    have hd₀' := (cosine.bounds _ _ d' hsize' hd'.symm).1
    exact hybridScore_le hd₀ hd₀'

/-- Memories that are all zero, or none of them, are ranked alike. -/
theorem fallsBack_of_ranked (hranked : m.Ranked embedding limit filters q)
    (hrank : ∀ r ∈ m.rows, tsRank r.content text = 0)
    (h : IsZero q ∨ (∀ r ∈ m.candidates filters, ¬ IsZero r.embedding) ∨
      ∀ r ∈ m.candidates filters, IsZero r.embedding) :
    FallsBack cosine tsRank m text embedding limit filters := by
  intro result
  rw [exists_hybridSearch_iff hranked hrank, exists_searchMemoryByVector_iff hranked]
  refine exists_congr fun ys => and_congr_left fun _ => ranks_congr fun a ha b hb => ?_
  refine keys_le_iff (hranked.2.2 a ha) (hranked.2.2 b hb) ?_
  rw [cosine.eq_top_iff _ _ (hranked.2.2 a ha), cosine.eq_top_iff _ _ (hranked.2.2 b hb)]
  obtain hq | hnonzero | hzero := h
  · exact iff_of_true (.inr hq) (.inr hq)
  · exact or_congr_left (iff_of_false (hnonzero a ha) (hnonzero b hb))
  · exact iff_of_true (.inl (hzero a ha)) (.inl (hzero b hb))

/-- Where the query text matches no stored memory, hybrid search and vector search may return the
same memories in the same order exactly when no query but a zero one meets zero memories among
others. -/
theorem fallsBack_iff (hrank : ∀ r ∈ m.rows, tsRank r.content text = 0) :
    FallsBack cosine tsRank m text embedding limit filters ↔
      Comparable m embedding limit filters := by
  have hcandidates : ∀ {p : MemoryRow F → Prop}, (∀ r ∈ m.candidates filters, p r) ↔
      ∀ r ∈ m.rows, filters.accepts r = true → p r := by
    intro p
    simp only [Memories.candidates, List.mem_filter, and_imp]
  by_cases hranked : ∃ q, m.Ranked embedding limit filters q
  · obtain ⟨q, hranked⟩ := hranked
    constructor
    · intro h q' hcast _ _ hq
      cases hranked.1.symm.trans hcast
      by_contra hmixed
      rw [not_or, ← hcandidates, ← hcandidates] at hmixed
      push Not at hmixed
      obtain ⟨⟨z, hz, hzero⟩, a, ha, hnonzero⟩ := hmixed
      exact not_fallsBack _ hranked hrank hq hz hzero ha hnonzero h
    · intro h
      by_cases hempty : m.candidates filters = []
      · refine fallsBack_of_ranked hranked hrank (.inr (.inl fun r hr => ?_))
        rw [hempty] at hr
        cases hr
      · obtain ⟨r, hr⟩ := List.exists_mem_of_ne_nil _ hempty
        have hsize : q.length = dimensions :=
          (hranked.2.2 r hr).symm.trans (m.sized r (List.mem_filter.mp hr).1)
        refine fallsBack_of_ranked hranked hrank (or_iff_not_imp_left.mpr fun hq => ?_)
        rw [hcandidates, hcandidates]
        exact h q hranked.1 hsize hranked.2.1 hq
  -- no memory is ranked: the two searches agree on every scan
  · rw [not_exists] at hranked
    refine iff_of_true (fun result => ?_) fun q hcast hsize hlimit _ => ?_
    · exact exists_congr fun scan => and_congr_right fun hscan => by
        rw [hybridSearch, searchMemoryByVector,
          searchBy_congr _ (fun q r => cosine.dist r.embedding q) hranked hscan]
    · refine absurd ⟨hcast, hlimit, fun r hr => ?_⟩ (hranked q)
      exact (m.sized r (List.mem_filter.mp hr).1).trans hsize.symm

end Ordered

end Fallback

/-! ### Samples -/

section Samples

theorem castVector_map_some {F : Type} {v : List F} (hne : v ≠ []) (hlen : v.length ≤ 16000) :
    castVector (v.map some) = .ok v := by
  have hmap : (v.map some).mapM id = some v := by
    rw [List.mapM_map]
    exact List.mapM_pure (m := Option) (f := id) (l := v) |>.trans (by rw [List.map_id]; rfl)
  have hbad : ((v.map some).isEmpty || decide (16000 < (v.map some).length)) = false := by
    simp [hne, hlen]
  rw [castVector, hbad, hmap]
  rfl

/-- The inner product. -/
def dot (u v : List ℚ) : ℚ := ((u.zip v).map fun p => p.1 * p.2).sum

/-- The distance where square roots are rational. -/
def rationalCosine : CosineDistance ℚ where
  dist u v :=
    if IsZero u ∨ IsZero v then ⊤
    else ↑(1 - max (-1) (min 1 (dot u v / Rat.sqrt (dot u u * dot v v))))
  eq_top_iff u v _ := by
    by_cases h : IsZero u ∨ IsZero v
    · rw [if_pos h]
      exact iff_of_true rfl h
    · rw [if_neg h]
      exact iff_of_false (WithTop.coe_ne_top) h
  bounds u v d _ h := by
    by_cases hzero : IsZero u ∨ IsZero v
    · rw [if_pos hzero] at h
      exact absurd h WithTop.top_ne_coe
    · rw [if_neg hzero, WithTop.coe_inj] at h
      have hlow := le_max_left (-1) (min 1 (dot u v / Rat.sqrt (dot u u * dot v v)))
      have hhigh : max (-1) (min 1 (dot u v / Rat.sqrt (dot u u * dot v v))) ≤ 1 :=
        max_le (by norm_num) (min_le_left _ _)
      constructor <;> linarith

/-- A vector of the dimensions of the column. -/
def sampleVector (f : ℕ → ℚ) : List ℚ := (List.range dimensions).map f

@[simp] theorem length_sampleVector (f : ℕ → ℚ) : (sampleVector f).length = dimensions := by
  rw [sampleVector, List.length_map, List.length_range]

theorem castVector_sample (f : ℕ → ℚ) :
    castVector ((sampleVector f).map some) = .ok (sampleVector f) := by
  have hsize : 0 < dimensions ∧ dimensions ≤ 16000 := by
    rw [dimensions]
    decide
  refine castVector_map_some (List.ne_nil_of_length_pos ?_) ?_ <;> rw [length_sampleVector]
  · exact hsize.1
  · exact hsize.2

theorem isZero_sampleVector {f : ℕ → ℚ} :
    IsZero (sampleVector f) ↔ ∀ i < dimensions, f i = 0 := by
  simp [IsZero, sampleVector]

/-- The vector along an axis. -/
def axis (a : ℕ) : ℕ → ℚ := fun i => if i = a then 1 else 0

theorem not_isZero_axis {a : ℕ} (ha : a < dimensions) : ¬ IsZero (sampleVector (axis a)) := by
  rw [isZero_sampleVector]
  intro h
  exact absurd (h a ha) (by simp [axis])

def sampleMemory (content : String) (f : ℕ → ℚ) : NewMemory ℚ where
  content := content
  memoryType := "relational"
  source := none
  metadata := .obj []
  embedding := (sampleVector f).map some

/-- Two memories, stored one after the other. -/
def storedTwo (f g : ℕ → ℚ) : Memories ℚ :=
  (storeMemory (storeMemory Memories.initial (sampleMemory "Kelly prefers tea" f) {}).2
    (sampleMemory "Alex prefers coffee" g) { chance := { now := 1 } }).2

theorem insert_sample (m : Memories ℚ) (content : String) (f : ℕ → ℚ) (ch : Chance) :
    m.insert (sampleMemory content f) ch = (.ok m.nextId,
      m.add (sampleMemory content f) (sampleVector f) ch (length_sampleVector f)) :=
  m.insert_of_cast ch (castVector_sample f) (length_sampleVector f)

theorem storedTwo_rows (f g : ℕ → ℚ) : ∃ a b : MemoryRow ℚ, (storedTwo f g).rows = [a, b] ∧
    (a.content = "Kelly prefers tea" ∧ a.embedding = sampleVector f) ∧
    b.content = "Alex prefers coffee" ∧ b.embedding = sampleVector g := by
  have hrows : ∀ (m : Memories ℚ) content h ch,
      (storeMemory m (sampleMemory content h) { chance := ch }).2.rows =
        m.rows ++ [m.newRow (sampleMemory content h) (sampleVector h) ch] := by
    intro m content h ch
    rw [storeMemory_ok rfl, insert_sample]
    rfl
  refine ⟨Memories.initial.newRow (sampleMemory "Kelly prefers tea" f) (sampleVector f) {},
    (storeMemory Memories.initial (sampleMemory "Kelly prefers tea" f) {}).2.newRow
      (sampleMemory "Alex prefers coffee" g) (sampleVector g) { now := 1 }, ?_, ?_, ?_⟩
  · rw [storedTwo, hrows, hrows]
    rfl
  · simp [sampleMemory]
  · simp [sampleMemory]

theorem mem_storedTwo {f g : ℕ → ℚ} {r : MemoryRow ℚ} (h : r ∈ (storedTwo f g).rows) :
    (r.content = "Kelly prefers tea" ∧ r.embedding = sampleVector f) ∨
      r.content = "Alex prefers coffee" ∧ r.embedding = sampleVector g := by
  obtain ⟨a, b, hrows, ha, hb⟩ := storedTwo_rows f g
  rw [hrows] at h
  obtain rfl | rfl := List.mem_pair.mp h
  · exact .inl ha
  · exact .inr hb

/-- A rank that only whole contents have. -/
def contentRank (content text : String) : ℚ := if content = text then 1 / 10 else 0

theorem contentRank_storedTwo (f g : ℕ → ℚ) :
    ∀ r ∈ (storedTwo f g).rows, contentRank r.content "holidays" = 0 := by
  intro r hr
  obtain ⟨hcontent, -⟩ | ⟨hcontent, -⟩ := mem_storedTwo hr <;> rw [hcontent, contentRank] <;>
    exact if_neg (by decide)

theorem zero_lt_dimensions : 0 < dimensions := by
  rw [dimensions]
  decide

theorem one_lt_dimensions : 1 < dimensions := by
  rw [dimensions]
  decide

/-- Two memories along two axes, and a query along one of them. -/
theorem fallsBack_iff_axes :
    FallsBack rationalCosine contentRank (storedTwo (axis 0) (axis 1)) "holidays"
      ((sampleVector (axis 0)).map some) 1 {} := by
  refine (fallsBack_iff (contentRank_storedTwo _ _)).mpr fun q _ _ _ _ => .inl fun r hr _ => ?_
  obtain ⟨-, hvector⟩ | ⟨-, hvector⟩ := mem_storedTwo hr <;> rw [hvector]
  · exact not_isZero_axis zero_lt_dimensions
  · exact not_isZero_axis one_lt_dimensions

/-- With a limit of one a zero memory hides the one the query is about. -/
theorem zero_memory_first : ¬ ∀ (cosine : CosineDistance ℚ) (tsRank : String → String → ℚ)
    (m : Memories ℚ) (text : String) (embedding : List (Option ℚ)) (limit : ℤ)
    (filters : MemoryFilters), (∀ r ∈ m.rows, tsRank r.content text = 0) →
      FallsBack cosine tsRank m text embedding limit filters := by
  intro h
  obtain ⟨a, b, hrows, ⟨-, ha⟩, -, hb⟩ := storedTwo_rows (fun _ => 0) (axis 0)
  have hmem : ∀ r, r ∈ (storedTwo (fun _ => 0) (axis 0)).candidates {} ↔ r = a ∨ r = b := by
    intro r
    rw [Memories.candidates, hrows, List.mem_filter, List.mem_pair]
    exact and_iff_left rfl
  have hranked : (storedTwo (fun _ => 0) (axis 0)).Ranked ((sampleVector (axis 0)).map some) 1 {}
      (sampleVector (axis 0)) := by
    refine ⟨castVector_sample _, Int.one_pos, fun r hr => ?_⟩
    obtain rfl | rfl := (hmem r).mp hr
    · rw [ha, length_sampleVector, length_sampleVector]
    · rw [hb]
  refine not_fallsBack rationalCosine hranked (contentRank_storedTwo _ _)
    (not_isZero_axis zero_lt_dimensions) ((hmem a).mpr (.inl rfl)) ?_ ((hmem b).mpr (.inr rfl)) ?_
    (h _ _ _ _ _ _ _ (contentRank_storedTwo _ _))
  · rw [ha]
    exact isZero_sampleVector.mpr fun _ _ => rfl
  · rw [hb]
    exact not_isZero_axis zero_lt_dimensions

end Samples

end Animus
