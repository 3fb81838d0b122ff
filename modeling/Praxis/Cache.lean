import Praxis.Json
import Mathlib.Data.List.AList

/-!
# The cache of tool results

An entry is good for a `get` with the dependencies it was put with as long as none of them has been
invalidated since. `put` notes the version of every dependency and `invalidate_dependency` moves
the version on.
-/

namespace Praxis

/-- A map from dependencies to their versions. -/
abbrev Versions := AList fun _ : Str => UInt64

structure CacheEntry where
  value : Json
  dependencies : List Str
  dep_versions : Versions
  cacheable : Bool

structure Cache where
  entries : AList fun _ : Str => CacheEntry := ∅
  dep_versions : Versions := ∅
  hits_per_key : AList fun _ : Str => UInt64 := ∅
  hits : UInt64 := 0
  misses : UInt64 := 0

namespace Cache

def is_valid (cache : Cache) (entry : CacheEntry) (current : List Str) : Bool :=
  entry.cacheable && current == entry.dependencies
    && entry.dep_versions.entries.all fun noted =>
      cache.dep_versions.lookup noted.1 == some noted.2

/-- The loop of `put`: the cache's versions and those the entry notes. A dependency the cache has
no version of starts at 1. -/
def noteVersions : List Str → Versions → Versions → Versions × Versions
  | [], versions, noted => (versions, noted)
  | d :: dependencies, versions, noted =>
    match versions.lookup d with
    | none => noteVersions dependencies (versions.insert d 1) (noted.insert d 1)
    | some v => noteVersions dependencies versions (noted.insert d v)

/-- An entry that is there already is overwritten field by field, which makes it a new one. -/
def put (cache : Cache) (key : Str) (value : Json) (dependencies : List Str) (cacheable : Bool) :
    Cache :=
  let versions := noteVersions dependencies cache.dep_versions ∅
  { cache with
    entries := cache.entries.insert key
      { value := value, dependencies := dependencies, dep_versions := versions.2,
        cacheable := cacheable }
    dep_versions := versions.1 }

def hits_for (cache : Cache) (key : Str) : UInt64 := (cache.hits_per_key.lookup key).getD 0

/-- `++misses_`. -/
def countMiss (cache : Cache) : Cache := { cache with misses := cache.misses + 1 }

/-- `++hits_` and `++hits_per_key_[key]`. -/
def countHit (cache : Cache) (key : Str) : Cache :=
  { cache with
    hits := cache.hits + 1
    hits_per_key := cache.hits_per_key.insert key (cache.hits_for key + 1) }

def get (cache : Cache) (key : Str) (current : List Str) : Option Json × Cache :=
  match cache.entries.lookup key with
  | none => (none, cache.countMiss)
  | some entry =>
    if cache.is_valid entry current then (some entry.value, cache.countHit key)
    else (none, cache.countMiss)

@[simp] theorem get_entries (cache : Cache) (key : Str) (current : List Str) :
    (cache.get key current).2.entries = cache.entries := by
  unfold get
  cases cache.entries.lookup key with
  | none => rfl
  | some entry => dsimp only; split_ifs <;> rfl

@[simp] theorem get_dep_versions (cache : Cache) (key : Str) (current : List Str) :
    (cache.get key current).2.dep_versions = cache.dep_versions := by
  unfold get
  cases cache.entries.lookup key with
  | none => rfl
  | some entry => dsimp only; split_ifs <;> rfl

def invalidate_dependency (cache : Cache) (dep : Str) : Cache :=
  { cache with
    dep_versions := match cache.dep_versions.lookup dep with
      | none => cache.dep_versions.insert dep 1
      | some v => cache.dep_versions.insert dep (v + 1) }

def clear (cache : Cache) : Cache := { cache with entries := ∅, dep_versions := ∅ }

def size (cache : Cache) : ℕ := cache.entries.keys.length

/-- What `get` would answer. -/
def answer (cache : Cache) (key : Str) (current : List Str) : Option Json :=
  (cache.get key current).1

/-- The calls a client can make. -/
inductive Op
  | put (key : Str) (value : Json) (dependencies : List Str) (cacheable : Bool)
  | get (key : Str) (current : List Str)
  | invalidate_dependency (dep : Str)
  | clear
  deriving DecidableEq

def step (cache : Cache) : Op → Cache
  | .put key value dependencies cacheable => cache.put key value dependencies cacheable
  | .get key current => (cache.get key current).2
  | .invalidate_dependency dep => cache.invalidate_dependency dep
  | .clear => cache.clear

/-- A new cache after a history of calls. -/
def run (ops : List Op) : Cache := ops.foldl step {}

example : (run [.put "k" .null ["d"] true]).answer "k" ["d"] = some .null := by decide

end Cache

end Praxis
