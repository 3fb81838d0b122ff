import Praxis.Cache
import Mathlib.Algebra.BigOperators.Group.Finset.Basic
import Mathlib.Data.UInt

/-!
# What a cache answers, from the calls made on it

A dependency's version is created by the first `put` or invalidation that names it, so the number
itself says nothing of the history. What the calls since a put determine is by how much the version
now differs from the one the put noted (`entry_of_lastPut`): by the number of invalidations since.
-/

namespace Praxis.Cache

theorem run_snoc (ops : List Op) (op : Op) : run (ops ++ [op]) = (run ops).step op := by
  simp [run]

/-- The call neither clears the cache nor puts to the key. -/
def Op.Keeps (key : Str) : Op → Prop
  | .put k _ _ _ => k ≠ key
  | .clear => False
  | _ => True

/-- The last put to `key` since the last `clear`, with the calls made since that put. -/
structure LastPut (ops : List Op) (key : Str) (value : Json) (deps : List Str) (cacheable : Bool)
    (since : List Op) : Prop where
  split : ∃ before, ops = before ++ .put key value deps cacheable :: since
  keeps : ∀ op ∈ since, op.Keeps key

theorem LastPut.put (ops : List Op) (key : Str) (value : Json) (deps : List Str)
    (cacheable : Bool) :
    LastPut (ops ++ [.put key value deps cacheable]) key value deps cacheable [] where
  split := ⟨ops, rfl⟩
  keeps := by simp

theorem LastPut.snoc {ops since : List Op} {key : Str} {value : Json} {deps : List Str}
    {cacheable : Bool} (h : LastPut ops key value deps cacheable since) {op : Op}
    (hop : op.Keeps key) :
    LastPut (ops ++ [op]) key value deps cacheable (since ++ [op]) where
  split := by
    obtain ⟨before, rfl⟩ := h.split
    exact ⟨before, by simp⟩
  keeps := by
    intro o ho
    rcases List.mem_append.1 ho with ho | ho
    · exact h.keeps o ho
    · rw [List.mem_singleton] at ho
      exact ho ▸ hop

/-- The first has no version that the second does not have. -/
def Agrees (noted versions : Versions) : Prop :=
  ∀ d v, noted.lookup d = some v → versions.lookup d = some v

theorem Agrees.insert {noted versions : Versions} (h : Agrees noted versions) {x : Str}
    {v : UInt64} (hv : versions.lookup x = some v) : Agrees (noted.insert x v) versions := by
  intro d w hd
  by_cases hdx : d = x
  · subst hdx
    rw [AList.lookup_insert] at hd
    rw [hv, hd]
  · rw [AList.lookup_insert_ne hdx] at hd
    exact h d w hd

theorem agrees_insert_new {versions : Versions} {x : Str} (hx : versions.lookup x = none)
    (v : UInt64) : Agrees versions (versions.insert x v) := by
  intro d w hd
  have hdx : d ≠ x := by
    rintro rfl
    rw [hx] at hd
    cases hd
  rwa [AList.lookup_insert_ne hdx]

/-- What the loop of `put` does: no version it finds is changed, every dependency has a version
afterwards, and the noted versions are those. -/
theorem noteVersions_spec :
    ∀ (deps : List Str) (versions noted : Versions), Agrees noted versions →
      Agrees versions (noteVersions deps versions noted).1
        ∧ Agrees (noteVersions deps versions noted).2 (noteVersions deps versions noted).1
        ∧ ∀ d, ((noteVersions deps versions noted).2.lookup d).isSome
            ↔ d ∈ deps ∨ (noted.lookup d).isSome
  | [], versions, noted, hnoted => ⟨fun _ _ h => h, hnoted, by simp [noteVersions]⟩
  | x :: deps, versions, noted, hnoted => by
    have hsome : ∀ (v : UInt64) (d : Str),
        ((noted.insert x v).lookup d).isSome ↔ d = x ∨ (noted.lookup d).isSome := by
      intro v d
      rw [AList.lookup_isSome, AList.mem_insert, AList.lookup_isSome]
    cases hx : versions.lookup x with
    | none =>
      have hnew := agrees_insert_new hx 1
      have hnoted' : Agrees noted (versions.insert x 1) := fun d v hd => hnew d v (hnoted d v hd)
      obtain ⟨h1, h2, h3⟩ := noteVersions_spec deps (versions.insert x 1) (noted.insert x 1)
        (hnoted'.insert (AList.lookup_insert _))
      simp only [noteVersions, hx]
      refine ⟨fun d v hd => h1 d v (hnew d v hd), h2, fun d => ?_⟩
      rw [h3 d, hsome, List.mem_cons]
      tauto
    | some v =>
      obtain ⟨h1, h2, h3⟩ := noteVersions_spec deps versions (noted.insert x v) (hnoted.insert hx)
      simp only [noteVersions, hx]
      refine ⟨h1, h2, fun d => ?_⟩
      rw [h3 d, hsome, List.mem_cons]
      tauto

theorem agrees_empty (versions : Versions) : Agrees ∅ versions := by simp [Agrees]

theorem is_valid_iff (cache : Cache) (entry : CacheEntry) (current : List Str) :
    cache.is_valid entry current = true
      ↔ entry.cacheable = true ∧ current = entry.dependencies
        ∧ Agrees entry.dep_versions cache.dep_versions := by
  simp only [is_valid, Bool.and_eq_true, beq_iff_eq, List.all_eq_true, and_assoc]
  refine and_congr_right fun _ => and_congr_right fun _ => ?_
  refine ⟨fun h d v hd => h ⟨d, v⟩ (AList.mem_lookup_iff.1 hd), fun h noted hnoted => ?_⟩
  exact h noted.1 noted.2 (AList.mem_lookup_iff.2 hnoted)

theorem answer_eq_some_iff (cache : Cache) (key : Str) (current : List Str) (value : Json) :
    cache.answer key current = some value
      ↔ ∃ entry, cache.entries.lookup key = some entry ∧ cache.is_valid entry current = true
        ∧ entry.value = value := by
  unfold answer get
  cases cache.entries.lookup key with
  | none => simp
  | some entry =>
    by_cases hv : cache.is_valid entry current = true
    · simp [hv]
    · simp [hv]

/-- A version comes back to where it was after each `2 ^ 64` invalidations. -/
theorem version_moved_iff {v : UInt64} {n : ℕ} : v + UInt64.ofNat n = v ↔ 2 ^ 64 ∣ n := by
  rw [← UInt64.toNat_inj, UInt64.toNat_add, UInt64.toNat_ofNat']
  have := v.toNat_lt
  omega

/-- What a put has left in the cache after the calls `since`. -/
structure Entry (cache : Cache) (key : Str) (value : Json) (deps : List Str) (cacheable : Bool)
    (since : List Op) (entry : CacheEntry) : Prop where
  lookup : cache.entries.lookup key = some entry
  value_eq : entry.value = value
  dependencies_eq : entry.dependencies = deps
  cacheable_eq : entry.cacheable = cacheable
  noted : ∀ d, (entry.dep_versions.lookup d).isSome ↔ d ∈ deps
  versions : ∀ d v, entry.dep_versions.lookup d = some v →
    cache.dep_versions.lookup d
      = some (v + UInt64.ofNat (since.count (.invalidate_dependency d)))

theorem entry_put (cache : Cache) (key : Str) (value : Json) (deps : List Str)
    (cacheable : Bool) :
    ∃ entry, Entry (cache.put key value deps cacheable) key value deps cacheable [] entry := by
  obtain ⟨-, h2, h3⟩ := noteVersions_spec deps cache.dep_versions ∅ (agrees_empty _)
  refine ⟨_, AList.lookup_insert _, rfl, rfl, rfl, fun d => ?_, fun d v hd => ?_⟩
  · simpa using h3 d
  · simpa [put] using h2 d v hd

theorem Entry.step {cache : Cache} {key : Str} {value : Json} {deps : List Str}
    {cacheable : Bool} {since : List Op} {entry : CacheEntry}
    (h : Entry cache key value deps cacheable since entry) {op : Op} (hop : op.Keeps key) :
    Entry (cache.step op) key value deps cacheable (since ++ [op]) entry := by
  cases op with
  | put k v ds c =>
    obtain ⟨h1, -, -⟩ := noteVersions_spec ds cache.dep_versions ∅ (agrees_empty _)
    refine { h with lookup := ?_, versions := fun d w hd => ?_ }
    · exact (AList.lookup_insert_ne (Ne.symm hop)).trans h.lookup
    · simpa [Cache.step, put] using h1 d _ (h.versions d w hd)
  | get k ds =>
    refine { h with lookup := ?_, versions := fun d w hd => ?_ }
    · exact (congrArg (AList.lookup key) (get_entries cache k ds)).trans h.lookup
    · simpa [Cache.step] using h.versions d w hd
  | invalidate_dependency x =>
    refine { h with lookup := h.lookup, versions := fun d w hd => ?_ }
    have hv := h.versions d w hd
    simp only [Cache.step, invalidate_dependency]
    by_cases hdx : d = x
    · subst hdx
      rw [hv, AList.lookup_insert, List.count_append, List.count_singleton_self, add_assoc,
        UInt64.ofNat_add]
      rfl
    · have hcount : (since ++ [Op.invalidate_dependency x]).count (.invalidate_dependency d)
          = since.count (.invalidate_dependency d) := by
        simp [List.count_append, Ne.symm hdx]
      rw [hcount]
      cases cache.dep_versions.lookup x with
      | none => exact (AList.lookup_insert_ne hdx).trans hv
      | some v => exact (AList.lookup_insert_ne hdx).trans hv
  | clear => exact hop.elim

theorem entry_of_lastPut {key : Str} {value : Json} {deps : List Str} {cacheable : Bool} :
    ∀ {since ops : List Op}, LastPut ops key value deps cacheable since →
      ∃ entry, Entry (run ops) key value deps cacheable since entry := by
  intro since
  induction since using List.reverseRecOn with
  | nil =>
    intro ops h
    obtain ⟨before, rfl⟩ := h.split
    rw [run_snoc]
    exact entry_put _ key value deps cacheable
  | append_singleton since op ih =>
    intro ops h
    obtain ⟨before, rfl⟩ := h.split
    have hsince : LastPut (before ++ .put key value deps cacheable :: since) key value deps
        cacheable since := ⟨⟨before, rfl⟩, fun o ho => h.keeps o (List.mem_append_left _ ho)⟩
    obtain ⟨entry, he⟩ := ih hsince
    refine ⟨entry, ?_⟩
    rw [← List.cons_append, ← List.append_assoc, run_snoc]
    exact he.step (h.keeps op (by simp))

/-- The versions that an entry noted are those of now if each dependency has been invalidated a
multiple of `2 ^ 64` times since. -/
theorem Entry.is_valid_iff {cache : Cache} {key : Str} {value : Json} {deps : List Str}
    {cacheable : Bool} {since : List Op} {entry : CacheEntry}
    (h : Entry cache key value deps cacheable since entry) (current : List Str) :
    cache.is_valid entry current = true
      ↔ cacheable = true ∧ current = deps
        ∧ ∀ d ∈ deps, 2 ^ 64 ∣ since.count (.invalidate_dependency d) := by
  rw [Cache.is_valid_iff, h.cacheable_eq, h.dependencies_eq]
  refine and_congr_right fun _ => and_congr_right fun _ => ⟨fun hversions d hd => ?_,
    fun hcount d v hv => ?_⟩
  · obtain ⟨v, hv⟩ := Option.isSome_iff_exists.1 ((h.noted d).2 hd)
    have hsame : some v = some _ := (hversions d v hv).symm.trans (h.versions d v hv)
    exact version_moved_iff.1 (Option.some.inj hsame).symm
  · have hd : d ∈ deps := (h.noted d).1 (by rw [hv]; rfl)
    rw [h.versions d v hv, version_moved_iff.2 (hcount d hd)]

/-- What has just been put is what a `get` answers. -/
theorem answer_put_self (cache : Cache) (key : Str) (value : Json) (deps : List Str) :
    (cache.put key value deps true).answer key deps = some value := by
  obtain ⟨entry, hentry⟩ := entry_put cache key value deps true
  exact (answer_eq_some_iff _ _ _ _).2
    ⟨entry, hentry.lookup, (hentry.is_valid_iff deps).2 ⟨rfl, rfl, by simp⟩, hentry.value_eq⟩

/-- An entry stems from a put. -/
theorem exists_lastPut {key : Str} {entry : CacheEntry} :
    ∀ {ops : List Op}, (run ops).entries.lookup key = some entry →
      ∃ value deps cacheable since, LastPut ops key value deps cacheable since := by
  intro ops
  induction ops using List.reverseRecOn generalizing entry with
  | nil => intro h; simp [run] at h
  | append_singleton ops op ih =>
    intro h
    rw [run_snoc] at h
    have hkeep : op.Keeps key → (run ops).entries.lookup key = some entry →
        ∃ value deps cacheable since, LastPut (ops ++ [op]) key value deps cacheable since := by
      intro hop hentry
      obtain ⟨value, deps, cacheable, since, hl⟩ := ih hentry
      exact ⟨value, deps, cacheable, since ++ [op], hl.snoc hop⟩
    cases op with
    | put k v ds c =>
      by_cases hk : k = key
      · subst hk
        exact ⟨v, ds, c, [], LastPut.put ops k v ds c⟩
      · exact hkeep hk ((AList.lookup_insert_ne (Ne.symm hk)).symm.trans h)
    | get k ds =>
      exact hkeep trivial ((congrArg (AList.lookup key) (get_entries _ k ds)).symm.trans h)
    | invalidate_dependency d => exact hkeep trivial h
    | clear => simp [step, clear] at h

/-- `get` answers with the value of the last put to the key, if that put was cacheable, had the
dependencies asked for and none of them has been invalidated since. -/
theorem answer_iff_lastPut (ops : List Op)
    (hfew : ∀ d, ops.count (.invalidate_dependency d) < 2 ^ 64) (key : Str) (current : List Str)
    (value : Json) :
    (run ops).answer key current = some value
      ↔ ∃ since, LastPut ops key value current true since
        ∧ ∀ d ∈ current, .invalidate_dependency d ∉ since := by
  rw [answer_eq_some_iff]
  constructor
  · rintro ⟨entry, hentry, hvalid, rfl⟩
    obtain ⟨value, deps, cacheable, since, hl⟩ := exists_lastPut hentry
    obtain ⟨entry', he⟩ := entry_of_lastPut hl
    obtain rfl : entry' = entry := Option.some.inj (he.lookup.symm.trans hentry)
    obtain ⟨rfl, rfl, hcount⟩ := (he.is_valid_iff _).1 hvalid
    rw [he.value_eq]
    refine ⟨since, hl, fun d hd => List.count_eq_zero.1 ?_⟩
    have hle : since.count (.invalidate_dependency d) ≤ ops.count (.invalidate_dependency d) := by
      obtain ⟨before, rfl⟩ := hl.split
      rw [List.count_append, List.count_cons]
      omega
    exact Nat.eq_zero_of_dvd_of_lt (hcount d hd) (hle.trans_lt (hfew d))
  · rintro ⟨since, hl, hnone⟩
    obtain ⟨entry, he⟩ := entry_of_lastPut hl
    refine ⟨entry, he.lookup, (he.is_valid_iff _).2 ⟨rfl, rfl, fun d hd => ?_⟩, he.value_eq⟩
    rw [List.count_eq_zero.2 (hnone d hd)]
    exact dvd_zero _

theorem get_counters (cache : Cache) (key : Str) (current : List Str) :
    (cache.get key current).2
      = if (cache.answer key current).isSome then cache.countHit key else cache.countMiss := by
  unfold answer get
  cases cache.entries.lookup key with
  | none => rfl
  | some entry => dsimp only; split_ifs <;> simp_all

theorem hits_for_countHit (cache : Cache) (key k : Str) :
    (cache.countHit key).hits_for k
      = if k = key then cache.hits_for key + 1 else cache.hits_for k := by
  unfold countHit
  simp only [hits_for]
  split_ifs with h
  · rw [h, AList.lookup_insert]
    rfl
  · rw [AList.lookup_insert_ne h]

theorem sum_hits_countHit (cache : Cache) (key : Str)
    (hsum : ∀ K : Finset Str, (∀ k ∉ K, cache.hits_for k = 0) →
      ∑ k ∈ K, cache.hits_for k = cache.hits)
    (K : Finset Str) (hK : ∀ k ∉ K, (cache.countHit key).hits_for k = 0) :
    ∑ k ∈ K, (cache.countHit key).hits_for k = cache.hits + 1 := by
  have hother : ∀ k ≠ key, (cache.countHit key).hits_for k = cache.hits_for k := by
    intro k hk
    rw [hits_for_countHit, if_neg hk]
  -- the key may be outside of `K` where its own counter has just wrapped to zero
  have hwide : ∑ k ∈ K, (cache.countHit key).hits_for k
      = ∑ k ∈ insert key K, (cache.countHit key).hits_for k :=
    Finset.sum_subset (Finset.subset_insert key K) fun k _ hk => hK k hk
  have hcover : ∀ k ∉ insert key K, cache.hits_for k = 0 := by
    intro k hk
    rw [Finset.mem_insert, not_or] at hk
    rw [← hother k hk.1]
    exact hK k hk.2
  have hkey := Finset.mem_insert_self key K
  have hrest : ∑ k ∈ (insert key K).erase key, (cache.countHit key).hits_for k
      = ∑ k ∈ (insert key K).erase key, cache.hits_for k :=
    Finset.sum_congr rfl fun k hk => hother k (Finset.ne_of_mem_erase hk)
  rw [hwide, ← Finset.add_sum_erase _ _ hkey, hrest, hits_for_countHit, if_pos rfl,
    ← hsum _ hcover, ← Finset.add_sum_erase _ cache.hits_for hkey]
  ac_rfl

/-- The hits counted key by key add up to the hits counted altogether, in 64 bits. -/
theorem sum_hits_for (ops : List Op) :
    ∀ K : Finset Str, (∀ k ∉ K, (run ops).hits_for k = 0) →
      ∑ k ∈ K, (run ops).hits_for k = (run ops).hits := by
  induction ops using List.reverseRecOn with
  | nil => exact fun K _ => Finset.sum_eq_zero fun k _ => rfl
  | append_singleton ops op ih =>
    rw [run_snoc]
    cases op with
    | put => exact ih
    | invalidate_dependency => exact ih
    | clear => exact ih
    | get key current =>
      simp only [step, get_counters]
      split_ifs
      · exact sum_hits_countHit _ key ih
      · exact ih

/-- The answers to come depend on the entries and the versions only. -/
theorem answer_congr {c c' : Cache} (hentries : c.entries = c'.entries)
    (hversions : c.dep_versions = c'.dep_versions) :
    ∀ (later : List Op) (key : Str) (current : List Str),
      (later.foldl step c).answer key current = (later.foldl step c').answer key current
  | [], key, current => by
    refine Option.ext fun value => ?_
    simp only [List.foldl_nil, answer_eq_some_iff, is_valid, hentries, hversions]
  | op :: later, key, current => by
    refine answer_congr ?_ ?_ later key current <;> cases op
    · simp only [step, put, hentries, hversions]
    · simp only [step, get_entries, hentries]
    · simp only [step, invalidate_dependency, hentries]
    · rfl
    · simp only [step, put, hversions]
    · simp only [step, get_dep_versions, hversions]
    · simp only [step, invalidate_dependency, hversions]
    · rfl

/-- The cache as its clients see it: its answers are determined by the last puts and the
invalidations since, and a `get` counts itself, as a hit of its key or as a miss, and changes
nothing else that can be seen. -/
theorem cache_observed (ops : List Op)
    (hfew : ∀ d, ops.count (.invalidate_dependency d) < 2 ^ 64) :
    (∀ key current value, (run ops).answer key current = some value
        ↔ ∃ since, LastPut ops key value current true since
          ∧ ∀ d ∈ current, .invalidate_dependency d ∉ since)
      ∧ (∀ key current,
          (run (ops ++ [.get key current])).hits
              = (run ops).hits + (if ((run ops).answer key current).isSome then 1 else 0)
            ∧ (run (ops ++ [.get key current])).misses
              = (run ops).misses + (if ((run ops).answer key current).isSome then 0 else 1))
      ∧ (∀ K : Finset Str, (∀ key ∉ K, (run ops).hits_for key = 0) →
          ∑ key ∈ K, (run ops).hits_for key = (run ops).hits)
      ∧ ∀ key current later key' current',
          (run (ops ++ .get key current :: later)).answer key' current'
            = (run (ops ++ later)).answer key' current' := by
  refine ⟨answer_iff_lastPut ops hfew, fun key current => ?_, sum_hits_for ops,
    fun key current later key' current' => ?_⟩
  · rw [run_snoc]
    simp only [step, get_counters]
    split_ifs <;> simp [countHit, countMiss]
  · simp only [run, List.foldl_append, List.foldl_cons]
    exact answer_congr (get_entries _ key current) (get_dep_versions _ key current) later _ _

theorem cache_observed_repeat :
    let ops : List Op := [.put "k" .null ["d"] true, .get "k" ["d"], .invalidate_dependency "d"]
    (∀ d, ops.count (.invalidate_dependency d) < 2 ^ 64)
      ∧ ((run ops).answer "k" ["d"] = some .null
        ↔ ∃ since, LastPut ops "k" .null ["d"] true since
          ∧ ∀ d ∈ [lit "d"], .invalidate_dependency d ∉ since)
      ∧ (run ops).answer "k" ["d"] = none := by
  have hfew : ∀ d, [Op.put "k" .null ["d"] true, .get "k" ["d"],
      .invalidate_dependency "d"].count (.invalidate_dependency d) < 2 ^ 64 :=
    fun d => lt_of_le_of_lt List.count_le_length (by decide)
  exact ⟨hfew, (cache_observed _ hfew).1 _ _ _, by decide⟩

end Praxis.Cache
