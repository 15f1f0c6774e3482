import WasmFS.Lib.Vec
import Mathlib.Logic.Function.Basic

/-!
# Shared files with cursors

Files are lists of elements, and each is open any number of times.  Every
description of an open file has a cursor of its own, at which it reads and writes
and which it moves.  One that appends writes at the end of the file wherever its
cursor stands.  `step` carries out one operation and answers it.
-/

namespace Cursors

open Lists

variable {φ δ α : Type}

/-- What the descriptions `δ` are: the files `φ` they are on, and which of them append. -/
structure Opening (φ δ : Type) where
  file : δ → φ
  append : δ → Bool

/-- The contents of the files and the cursors of the descriptions. -/
@[ext] structure Shared (φ δ α : Type) where
  contents : φ → List α
  cursor : δ → Nat

/-- Where a cursor is moved from: the start, its place, or the end of the file. -/
inductive Whence where
  | set | cur | stop
deriving DecidableEq, Repr

inductive Op (α : Type) where
  | write (xs : List α)
  | writeAt (o : Nat) (xs : List α)
  | read (n : Nat)
  | readAt (o n : Nat)
  | seek (whence : Whence) (distance : Int)
  | tell

inductive Answer (α : Type) where
  | count (n : Nat)
  | elements (xs : List α)
  | offset (o : Nat)
  /-- The cursor would stand before the start. -/
  | refused

section

variable (k : Opening φ δ) (m : Shared φ δ α) (d : δ)

/-- Where a write through the description starts. -/
def start : Nat := if k.append d then (m.contents (k.file d)).length else m.cursor d

/-- Where a move of the cursor ends. -/
def target (whence : Whence) (distance : Int) : Int :=
  match whence with
  | .set => distance
  | .cur => m.cursor d + distance
  | .stop => (m.contents (k.file d)).length + distance

end

variable [DecidableEq φ] [DecidableEq δ]

/-- `xs` is put into a file, with `fill` in the gap before it. -/
def Shared.put (fill : α) (m : Shared φ δ α) (f : φ) (o : Nat) (xs : List α) : Shared φ δ α :=
  { m with contents := Function.update m.contents f (overlay fill (m.contents f) o xs) }

/-- The cursor is set. -/
def Shared.move (m : Shared φ δ α) (d : δ) (o : Nat) : Shared φ δ α :=
  { m with cursor := Function.update m.cursor d o }

/-- A cursor and the contents do not depend on each other. -/
theorem Shared.move_put (fill : α) (m : Shared φ δ α) (d : δ) (o : Nat) (f : φ) (o' : Nat)
    (xs : List α) : (m.move d o).put fill f o' xs = (m.put fill f o' xs).move d o := rfl

omit [DecidableEq φ] in
/-- The last of two moves counts. -/
@[simp] theorem Shared.move_move (m : Shared φ δ α) (d : δ) (o o' : Nat) :
    (m.move d o).move d o' = m.move d o' := by
  simp only [move, Function.update_idem]

/-- One operation through a description. -/
def step (fill : α) (k : Opening φ δ) (m : Shared φ δ α) : δ × Op α → Shared φ δ α × Answer α
  | (d, .write xs) =>
      ((m.put fill (k.file d) (start k m d) xs).move d (start k m d + xs.length), .count xs.length)
  | (d, .writeAt o xs) => (m.put fill (k.file d) o xs, .count xs.length)
  | (d, .read n) =>
      let xs := slice (m.contents (k.file d)) (m.cursor d) n
      (m.move d (m.cursor d + xs.length), .elements xs)
  | (d, .readAt o n) => (m, .elements (slice (m.contents (k.file d)) o n))
  | (d, .seek whence distance) =>
      let o := target k m d whence distance
      if o < 0 then (m, .refused) else (m.move d o.toNat, .offset o.toNat)
  | (d, .tell) => (m, .offset (m.cursor d))

end Cursors
