import Praxis.Builtin
import Praxis.Proofs.FactStore
import Praxis.SideEffect

/-!
# What the observer reports

A tree is the contents of the regular files below a directory. `diff` reports the paths at which
the tree of the snapshot and the tree now differ, but for those whose modification time and size
are still the same: it is exact if these have kept their contents (`diff_exact_iff`).
-/

namespace Praxis

namespace SideEffectObserver

variable {W U : Type} {P : Platform W U} {w w' : W} {root path : Str} {paths paths' : List Str}
  {observer : SideEffectObserver}

/-- The content of a regular file below a directory, if there is one; the content itself is `none`
where the file cannot be read. -/
def tree (P : Platform W U) (w : W) (root path : Str) : Option (Option Str) :=
  match walk P w root with
  | .ok paths => if path ∈ paths then some (P.read w path) else none
  | .error _ => none

/-- The walk lists the regular files, and the attributes of each can be read. -/
structure Seen (P : Platform W U) (w : W) (root : Str) (paths : List Str) : Prop where
  walked : walk P w root = .ok paths
  stated : ∀ path ∈ paths, (stat P w path).isSome

/-- The contents of a file in the two states are not hashed alike unless they are the same. -/
def NoCollision (P : Platform W U) (w w' : W) (root : Str) : Prop :=
  ∀ path content content', tree P w root path = some (some content) →
    tree P w' root path = some (some content') → fnv1a content = fnv1a content' →
    content = content'

namespace Seen

theorem tree_eq (h : Seen P w root paths) (path : Str) :
    tree P w root path = if path ∈ paths then some (P.read w path) else none := by
  rw [tree, h.walked]

theorem mem_iff (h : Seen P w root paths) : path ∈ paths ↔ tree P w root path ≠ none := by
  rw [h.tree_eq]
  split_ifs with hpath
  · exact iff_of_true hpath (by simp)
  · exact iff_of_false hpath (by simp)

end Seen

/-- What a snapshot notes of a file. -/
def noted (P : Platform W U) (w : W) (path : Str) : Option FileSnapshot :=
  (stat P w path).map fun at_ => { mtime := at_.1, size := at_.2, hash := hash_file P w path }

theorem lookup_foldl_note (path : Str) : ∀ (paths : List Str)
    (before : AList fun _ : Str => FileSnapshot),
    (paths.foldl (fun before path => match stat P w path with
      | none => before
      | some (mtime, size) =>
        before.insert path { mtime := mtime, size := size, hash := hash_file P w path })
      before).lookup path
        = if path ∈ paths then (noted P w path).or (before.lookup path) else before.lookup path
  | [], before => rfl
  | p :: paths, before => by
    rw [List.foldl_cons, lookup_foldl_note path paths, noted]
    rcases hstat : stat P w p with _ | ⟨mtime, size⟩
    · by_cases hp : path = p
      · subst hp
        simp [hstat]
      · simp [hp]
    · by_cases hp : path = p
      · subst hp
        simp [hstat]
      · simp [hp, AList.lookup_insert_ne]

theorem snapshot_eq_ok (h : walk P w root = .ok paths) : ∃ observer,
    snapshot P w root = .ok observer
      ∧ ∀ path, observer.before.lookup path = if path ∈ paths then noted P w path else none := by
  unfold snapshot
  rw [h]
  refine ⟨_, rfl, fun path => (lookup_foldl_note path paths ∅).trans ?_⟩
  rw [AList.lookup_empty, Option.or_none]

theorem holds_of_snapshot (h : snapshot P w root = .ok observer) : ∃ paths,
    walk P w root = .ok paths
      ∧ ∀ path, observer.before.lookup path = if path ∈ paths then noted P w path else none := by
  rcases hwalk : walk P w root with e | paths
  · rw [snapshot, hwalk] at h
    cases h
  · obtain ⟨observer', h', hlookup⟩ := snapshot_eq_ok hwalk
    obtain rfl := Except.ok.inj (h.symm.trans h')
    exact ⟨paths, rfl, hlookup⟩

/-- The observer holds the snapshot of the files in `paths`. -/
def Holds (P : Platform W U) (observer : SideEffectObserver) (w : W) (paths : List Str) : Prop :=
  ∀ path, observer.before.lookup path = if path ∈ paths then noted P w path else none

/-- The path is regular in both states and its attributes are the same. -/
def SameStat (P : Platform W U) (w w' : W) (root path : Str) : Prop :=
  tree P w root path ≠ none ∧ tree P w' root path ≠ none ∧ stat P w path = stat P w' path

theorem Holds.mem_keys_iff (h : Holds P observer w paths) (hseen : Seen P w root paths) :
    path ∈ observer.before.keys ↔ path ∈ paths := by
  rw [← AList.mem_keys, ← AList.lookup_isSome, h path]
  split_ifs with hpath
  · rw [noted, Option.isSome_map]
    exact iff_of_true (hseen.stated path hpath) hpath
  · exact iff_of_false (by simp) hpath

theorem hash_file_eq_iff (hcollision : ∀ content content', P.read w path = some content →
    P.read w' path = some content' → fnv1a content = fnv1a content' → content = content') :
    hash_file P w' path = hash_file P w path ↔ P.read w path = P.read w' path := by
  have hlength : ∀ h : UInt64, hex16 h ≠ [] := fun h hnil => by
    have hlen := length_hex16 h
    rw [hnil] at hlen
    cases hlen
  rw [hash_file, hash_file]
  rcases hread : P.read w path with _ | content <;>
    rcases hread' : P.read w' path with _ | content'
  · simp
  · simpa using hlength _
  · simpa using (hlength _).symm
  · have hinj := fun h => hcollision _ _ hread hread' (hex16_inj h).symm
    refine ⟨fun h => congrArg some (hinj h), fun h => ?_⟩
    rw [Option.some.inj h]

theorem isChanged_iff (h : Holds P observer w paths) (hseen : Seen P w root paths)
    (hseen' : Seen P w' root paths') (hcollision : NoCollision P w w' root)
    (hpath' : path ∈ paths') :
    observer.isChanged P w' path = true
      ↔ tree P w root path ≠ tree P w' root path ∧ ¬ SameStat P w w' root path := by
  obtain ⟨⟨mtime', size'⟩, hstat'⟩ := Option.isSome_iff_exists.1 (hseen'.stated path hpath')
  rw [isChanged, hstat', h path, SameStat, hseen.tree_eq, hseen'.tree_eq, if_pos hpath']
  by_cases hpath : path ∈ paths
  · obtain ⟨⟨mtime, size⟩, hstat⟩ := Option.isSome_iff_exists.1 (hseen.stated path hpath)
    have hhash := hash_file_eq_iff fun content content' hread hread' =>
      hcollision path content content' (by rw [hseen.tree_eq, if_pos hpath, hread])
        (by rw [hseen'.tree_eq, if_pos hpath', hread'])
    rw [if_pos hpath, if_pos hpath, noted, hstat, hstat']
    simp only [Option.map_some]
    split_ifs with heq
    · simp [heq]
    · simp [heq, hhash]
  · rw [if_neg hpath, if_neg hpath]
    simp

theorem diff_eq_ok (hseen' : Seen P w' root paths') : observer.diff P w' root
    = .ok (paths'.filter (observer.isChanged P w')
      ++ observer.before.keys.filter fun path => !paths'.contains path) := by
  rw [diff, hseen'.walked]
  rfl

/-- The paths that are reported: those where the trees differ, but for those whose attributes are
still the same. -/
theorem mem_diff_iff (h : Holds P observer w paths) (hseen : Seen P w root paths)
    (hseen' : Seen P w' root paths') (hcollision : NoCollision P w w' root) {changed : List Str}
    (hdiff : observer.diff P w' root = .ok changed) (path : Str) :
    path ∈ changed ↔ tree P w root path ≠ tree P w' root path ∧ ¬ SameStat P w w' root path := by
  obtain rfl := Except.ok.inj ((diff_eq_ok hseen').symm.trans hdiff)
  rw [List.mem_append, List.mem_filter, List.mem_filter, h.mem_keys_iff hseen]
  by_cases hpath' : path ∈ paths'
  · rw [isChanged_iff h hseen hseen' hcollision hpath']
    simp [hpath']
  · have hgone : tree P w' root path = none := by rw [hseen'.tree_eq, if_neg hpath']
    rw [SameStat, hgone, ← hseen.mem_iff]
    simp [hpath']

theorem walk_of_diff {changed : List Str} (h : observer.diff P w' root = .ok changed) :
    ∃ paths', walk P w' root = .ok paths' := by
  rcases hwalk : walk P w' root with e | paths'
  · rw [diff, hwalk] at h
    cases h
  · exact ⟨paths', rfl⟩

theorem nodup_diff (hnodup : paths'.Nodup) (hseen' : Seen P w' root paths') {changed : List Str}
    (hdiff : observer.diff P w' root = .ok changed) : changed.Nodup := by
  obtain rfl := Except.ok.inj ((diff_eq_ok hseen').symm.trans hdiff)
  refine List.Nodup.append (hnodup.filter _) (observer.before.nodupKeys.filter _) ?_
  intro path hpath hgone
  have hnot := (List.mem_filter.1 hgone).2
  simp [(List.mem_filter.1 hpath).1] at hnot

/-- The report is exact if and only if no file has other contents under the same attributes. -/
theorem diff_exact_iff (hseen : Seen P w root paths) (hseen' : Seen P w' root paths')
    (hnodup : paths'.Nodup) (hcollision : NoCollision P w w' root) :
    ∃ observer changed, snapshot P w root = .ok observer
      ∧ observer.diff P w' root = .ok changed
      ∧ ((changed.Nodup ∧ ∀ path, path ∈ changed ↔ tree P w root path ≠ tree P w' root path)
        ↔ ∀ path, path ∈ paths → path ∈ paths' → stat P w path = stat P w' path →
          P.read w path = P.read w' path) := by
  obtain ⟨observer, hsnapshot, hholds⟩ := snapshot_eq_ok hseen.walked
  refine ⟨observer, _, hsnapshot, diff_eq_ok hseen', ?_⟩
  have hmem := mem_diff_iff hholds hseen hseen' hcollision (diff_eq_ok hseen')
  constructor
  · rintro ⟨-, hexact⟩ path hpath hpath' hstat
    by_contra hread
    have hdiffers : tree P w root path ≠ tree P w' root path := by
      rw [hseen.tree_eq, hseen'.tree_eq, if_pos hpath, if_pos hpath']
      exact fun h => hread (Option.some.inj h)
    exact ((hmem path).1 ((hexact path).2 hdiffers)).2
      ⟨hseen.mem_iff.1 hpath, hseen'.mem_iff.1 hpath', hstat⟩
  · intro hsame
    refine ⟨nodup_diff hnodup hseen' (diff_eq_ok hseen'), fun path => ?_⟩
    rw [hmem path, and_iff_left_iff_imp]
    rintro hdiffers ⟨hpath, hpath', hstat⟩
    rw [← hseen.mem_iff] at hpath
    rw [← hseen'.mem_iff] at hpath'
    rw [hseen.tree_eq, hseen'.tree_eq, if_pos hpath, if_pos hpath'] at hdiffers
    exact hdiffers (congrArg some (hsame path hpath hpath' hstat))

/-! ## A file that is written -/

/-- A directory `ws` with one file. No write changes the modification time. -/
def wsPlatform : Platform FlatFs Empty :=
  { flatPlatform fun _ _ => ["ws/a"] with file_exists := fun _ _ => .ok true }

/-- The file holds this. -/
def wsHolds (content : Str) : FlatFs := Function.update (fun _ => none) "ws/a" (some content)

theorem seen_wsHolds (content : Str) : Seen wsPlatform (wsHolds content) "ws" ["ws/a"] where
  walked := rfl
  stated := List.forall_mem_singleton.2 (by simp [stat, wsPlatform, flatPlatform, wsHolds])

theorem tree_wsHolds {content c : Str} {path : Str}
    (h : tree wsPlatform (wsHolds content) "ws" path = some (some c)) : content = c := by
  rw [(seen_wsHolds content).tree_eq] at h
  split_ifs at h with hpath
  obtain rfl := List.mem_singleton.1 hpath
  simpa [wsPlatform, flatPlatform, wsHolds] using h

theorem noCollision_wsHolds {content content' : Str}
    (h : fnv1a content = fnv1a content' → content = content') :
    NoCollision wsPlatform (wsHolds content) (wsHolds content') "ws" := by
  intro path c c' htree htree'
  obtain rfl := tree_wsHolds htree
  obtain rfl := tree_wsHolds htree'
  exact h

theorem diff_exact_grown : ∃ observer changed,
    snapshot wsPlatform (wsHolds "1") "ws" = .ok observer
      ∧ observer.diff wsPlatform (wsHolds "22") "ws" = .ok changed ∧ changed.Nodup
      ∧ ∀ path, path ∈ changed
        ↔ tree wsPlatform (wsHolds "1") "ws" path ≠ tree wsPlatform (wsHolds "22") "ws" path := by
  obtain ⟨observer, changed, hsnapshot, hdiff, hexact⟩ := diff_exact_iff (seen_wsHolds "1")
    (seen_wsHolds "22") (by decide) (noCollision_wsHolds (by decide))
  refine ⟨observer, changed, hsnapshot, hdiff, hexact.2 fun path hpath _ hstat => ?_⟩
  obtain rfl := List.mem_singleton.1 hpath
  exact absurd hstat (by decide)

/-- Another byte in the file goes unnoticed. -/
theorem diff_misses : ¬ ∀ (w w' : FlatFs) (paths paths' : List Str),
    Seen wsPlatform w "ws" paths → Seen wsPlatform w' "ws" paths' → paths'.Nodup →
    NoCollision wsPlatform w w' "ws" →
    ∃ observer changed, snapshot wsPlatform w "ws" = .ok observer
      ∧ observer.diff wsPlatform w' "ws" = .ok changed ∧ changed.Nodup
      ∧ ∀ path, path ∈ changed ↔ tree wsPlatform w "ws" path ≠ tree wsPlatform w' "ws" path := by
  intro h
  obtain ⟨observer, changed, hsnapshot, hdiff, -, hexact⟩ := h _ _ _ _ (seen_wsHolds "1")
    (seen_wsHolds "2") (by decide) (noCollision_wsHolds (by decide))
  have hnone : (snapshot wsPlatform (wsHolds "1") "ws").bind
      (fun observer => observer.diff wsPlatform (wsHolds "2") "ws") = .ok [] := by decide
  rw [hsnapshot] at hnone
  obtain rfl := Except.ok.inj (hdiff.symm.trans hnone)
  exact absurd ((hexact (lit "ws/a")).2 (by decide)) (by simp)

end SideEffectObserver

end Praxis
