import YHAudioLink.Foundation.ByteStore
import Mathlib.Logic.Function.Basic

/-!
# Blocks of cells

An array an allocator handed out: `room` cells, with the accesses of a program that does not check
its indices. An access outside the block has no meaning, so it is `none`; that a program makes none
is then part of every statement that says what the program computes.
-/

namespace Blocks

open ByteStore

variable {α : Type*}

/-- A block of `room` cells. What `cells` says beyond them is nothing. -/
structure Block (α : Type*) where
  room : ℕ
  cells : ℕ → α

namespace Block

/-- The cell `i`. -/
def read (b : Block α) (i : ℕ) : Option α := if i < b.room then some (b.cells i) else none

/-- The block with `v` put into the cell `i`. -/
def write (b : Block α) (i : ℕ) (v : α) : Option (Block α) :=
  if i < b.room then some { b with cells := Function.update b.cells i v } else none

/-- `memcpy`: `n` cells of `src` from `i` on, put into `dst` from `j` on. -/
def copy (dst : Block α) (j : ℕ) (src : Block α) (i n : ℕ) : Option (Block α) :=
  if j + n ≤ dst.room ∧ i + n ≤ src.room then
    some { dst with cells := store dst.cells j (load src.cells i n) }
  else none

variable {b dst src : Block α} {i j n : ℕ} {v : α}

theorem read_of_lt (h : i < b.room) : b.read i = some (b.cells i) := if_pos h

theorem write_of_lt (h : i < b.room) :
    b.write i v = some { b with cells := Function.update b.cells i v } := if_pos h

theorem copy_of_le (hdst : j + n ≤ dst.room) (hsrc : i + n ≤ src.room) :
    dst.copy j src i n = some { dst with cells := store dst.cells j (load src.cells i n) } :=
  if_pos ⟨hdst, hsrc⟩

end Block

end Blocks
