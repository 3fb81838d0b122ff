import Praxis.Context
import Praxis.Lib.Text

/-!
# The file behind a fact store

A `FactStore` that is made with a path loads the facts of the file there and appends each new fact
to it as a line: the type and the content, both escaped, with a tab between them.
-/

namespace Praxis

namespace FactStore

/-- Backslash, newline, carriage return and tab are written as a backslash and a letter. -/
def escaping : Text.Escaping UInt8 where
  mark := 92
  letter c :=
    if c = 92 then some 92
    else if c = 10 then some 110
    else if c = 13 then some 114
    else if c = 9 then some 116
    else none
  special l :=
    if l = 92 then some 92
    else if l = 110 then some 10
    else if l = 114 then some 13
    else if l = 116 then some 9
    else none
  special_iff c l := by grind
  letter_mark := rfl

def escape (s : Str) : Str := escaping.escape s

def unescape (s : Str) : Str := escaping.unescape s

/-- The line of a fact. -/
def line (type content : Str) : Str := escape type ++ "\t" ++ escape content

/-- The type and content that a line is read as; a line without a tab is passed over. -/
def readLine (line : Str) : Option (Str × Str) :=
  let line := if line.getLast? = some 13 then line.dropLast else line
  match line.idxOf? 9 with
  | none => none
  | some pos => some (unescape (line.take pos), unescape (line.drop (pos + 1)))

/-- `entries_[id] = Fact{..}`. -/
def assign (store : FactStore) (type content : Str) : FactStore :=
  let id := digest_hex type content
  ⟨store.entries.insert id { id := id, type := type, content := content }⟩

def loadLine (store : FactStore) (line : Str) : FactStore :=
  match readLine line with
  | some (type, content) => store.assign type content
  | none => store

/-- The store that the constructor reads from the text of a file. -/
def load (text : Str) : FactStore := (Text.lines 10 text).foldl loadLine {}

end FactStore

/-- A `FactStore` with its path: whether `out_` is open, and the file at the path. -/
structure FactFile where
  store : FactStore := {}
  is_open : Bool := false
  file : Option Str := none

namespace FactFile

/-- The constructor. `file` is what the path holds, `opens` whether it can be opened for writing. -/
def new (path : Str) (file : Option Str) (opens : Bool) : FactFile :=
  if path.isEmpty then { file := file }
  else
    { store := FactStore.load (file.getD [])
      is_open := opens
      file := if opens then some (file.getD []) else file }

def append (self : FactFile) (type content : Str) : Str × FactFile :=
  let id := FactStore.digest_hex type content
  match self.store.entries.lookup id with
  | some _ => (id, self)
  | none =>
    (id,
      { self with
        store := self.store.assign type content
        file :=
          if self.is_open then self.file.map (· ++ (FactStore.line type content ++ "\n"))
          else self.file })

def get (self : FactFile) (id : Str) : Option Fact := self.store.get id

/-- The destructor and a constructor on the same path; each append has flushed its line. -/
def reopen (path : Str) (self : FactFile) : FactFile := new path self.file true

/-- Appends facts, given as type and content. -/
def appendAll (self : FactFile) (facts : List (Str × Str)) : FactFile :=
  facts.foldl (fun f fact => (f.append fact.1 fact.2).2) self

end FactFile

example : FactStore.readLine (FactStore.line "a\tb" "c\n") = some (lit "a\tb", lit "c\n") := by
  decide

end Praxis
