import Praxis.Tool
import Praxis.Context

/-!
# The side effect observer

`snapshot` notes the files below a directory and `diff` names those that have changed since. The
files removed come in the order of the hash map that holds the snapshot, which the model leaves to
its association list.
-/

namespace Praxis

structure FileSnapshot where
  mtime : ℤ
  size : UInt64
  hash : Str
  deriving DecidableEq

structure SideEffectObserver where
  before : AList fun _ : Str => FileSnapshot := ∅

namespace SideEffectObserver

variable {W U : Type} (P : Platform W U)

def hash_file (w : W) (path : Str) : Str :=
  match P.read w path with
  | none => []
  | some content => hex16 (fnv1a content)

/-- The regular files below a directory. -/
def walk (w : W) (root : Str) : Except Exn (List Str) := do
  let there ← P.file_exists w root
  if there then
    let entries ← P.entries_below w root
    pure ((entries.filter (·.2)).map (·.1))
  else pure []

/-- `last_write_time` and `file_size` of a path, if neither fails. -/
def stat (w : W) (path : Str) : Option (ℤ × UInt64) :=
  (P.last_write_time w path).bind fun mtime => (P.file_size w path).map fun size => (mtime, size)

def snapshot (w : W) (root : Str) : Except Exn SideEffectObserver := do
  let paths ← walk P w root
  pure ⟨paths.foldl (fun before path => match stat P w path with
    | none => before
    | some (mtime, size) =>
      before.insert path { mtime := mtime, size := size, hash := hash_file P w path }) ∅⟩

/-- Whether `diff` reports a file that is there. -/
def isChanged (observer : SideEffectObserver) (w : W) (path : Str) : Bool :=
  match stat P w path with
  | none => false
  | some (mtime, size) =>
    match observer.before.lookup path with
    | none => true
    | some snap =>
      if snap.mtime = mtime ∧ snap.size = size then false else hash_file P w path != snap.hash

def diff (observer : SideEffectObserver) (w : W) (root : Str) : Except Exn (List Str) := do
  let paths ← walk P w root
  pure (paths.filter (observer.isChanged P w)
    ++ observer.before.keys.filter fun path => !paths.contains path)

end SideEffectObserver

end Praxis
