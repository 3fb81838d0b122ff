import Praxis.Builtin

/-!
# Contexts with a state of their own

A user's context is an instance of a class: it has a state, and its methods act on that state and on
the machine's world. The instances are numbered as they are made, and the uses of each are counted.
-/

namespace Praxis

open Interleave (Proc)

/-- A subclass of `ToolContext` whose instances have states `S`. Where `fork` is not overridden it
makes a `StatelessContext`. -/
structure ContextClass (W S : Type) where
  read_file : Str → ToolM (W × S) Str
  file_exists : Str → ToolM (W × S) Bool
  exec_argv : Str → List Str → ToolM (W × S) Str
  fork : S → Option S

/-- An instance: its state, and how often one of its methods has been called. -/
structure Instance (S : Type) where
  state : S
  uses : ℕ := 0
  deriving DecidableEq

/-- A machine's world with the instances of a class, those from `next` on not made yet. -/
structure Instances (W S : Type) where
  world : W
  cells : ℕ → Instance S
  next : ℕ

variable {W S A B R : Type}

/-- A process over a part of the world. -/
def zoom (get : B → A) (put : A → B → B) : Proc A R → Proc B R
  | .ret r => .ret r
  | .act f k => .act (fun b => put (f (get b)) b) fun b => zoom get put (k (get b))

namespace Instances

def setWorld (world : W) (w : Instances W S) : Instances W S := { w with world := world }

def setCell (c : ℕ) (cell : Instance S) (w : Instances W S) : Instances W S :=
  { w with cells := Function.update w.cells c cell }

/-- The part of the world that a method of the instance acts on. -/
def partOf (c : ℕ) (w : Instances W S) : W × S := (w.world, (w.cells c).state)

def setPart (c : ℕ) (part : W × S) (w : Instances W S) : Instances W S :=
  (w.setWorld part.1).setCell c { w.cells c with state := part.2 }

/-- A method of the instance with that number: the use is counted, then its actions are done. -/
def call (c : ℕ) (x : ToolM (W × S) R) : ToolM (Instances W S) R :=
  ExceptT.mk (.act (fun w => w.setCell c { w.cells c with uses := (w.cells c).uses + 1 })
    fun _ => zoom (partOf c) (setPart c) x.run)

/-- A fork is a new instance, unless the class has no `fork` of its own. -/
def fork (C : ContextClass W S) (c : ℕ) (w : Instances W S) : Ctx ℕ × Instances W S :=
  match C.fork (w.cells c).state with
  | none => (.stateless, w)
  | some state => (.user w.next, { w.setCell w.next { state := state } with next := w.next + 1 })

end Instances

open Instances

end Praxis
