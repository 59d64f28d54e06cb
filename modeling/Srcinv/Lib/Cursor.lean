import Srcinv.Lib.Layout

/-!
# Writing a text through a pointer

A text is written piece by piece through a pointer that moves on by the length of each piece.  A
piece may be written with one cell more than the pointer moves by, which the next piece overwrites:
the final zero of a C string.

* `Wrote.append` — a piece is added to the text that is there.
* `Wrote.finish` — **what the last piece leaves is the whole text, and the cells written are those
  of the text.**
-/

namespace Srcinv.Lib

variable {α : Type*}

/-- Memory with a pointer into it; `top` is one past the last cell that was written. -/
structure Cursor (α : Type*) where
  mem : Nat → α
  pos : Nat
  top : Nat

namespace Cursor

/-- Before anything is written. -/
def start (mem : Nat → α) : Cursor α := ⟨mem, 0, 0⟩

/-- Write at the pointer. -/
def put (c : Cursor α) (src : List α) : Cursor α where
  mem := blit c.mem c.pos src
  pos := c.pos
  top := max c.top (c.pos + src.length)

/-- Move the pointer. -/
def skip (c : Cursor α) (n : Nat) : Cursor α := { c with pos := c.pos + n }

end Cursor

/-- The text stands before the pointer, and at most one more cell was written. -/
structure Wrote (c : Cursor α) (text : List α) : Prop where
  pos_eq : c.pos = text.length
  text_eq : readRange c.mem 0 text.length = text
  le_top : text.length ≤ c.top
  top_le : c.top ≤ text.length + 1

variable {c : Cursor α} {text src extra : List α}

theorem Wrote.start (mem : Nat → α) : Wrote (Cursor.start mem) [] where
  pos_eq := rfl
  text_eq := rfl
  le_top := Nat.le_refl 0
  top_le := Nat.zero_le 1

/-- A write at the pointer stands behind the text. -/
theorem Wrote.put (h : Wrote c text) (src : List α) :
    readRange (c.put src).mem 0 (text ++ src).length = text ++ src := by
  have hend := readRange_blit_end h.text_eq src
  rw [Nat.zero_add, ← h.pos_eq] at hend
  exact hend

/-- One more piece. -/
theorem Wrote.append (h : Wrote c text) (src : List α) (hextra : extra.length ≤ 1) :
    Wrote ((c.put (src ++ extra)).skip src.length) (text ++ src) := by
  have hput := h.put (src ++ extra)
  have hlo := h.le_top
  have hhi := h.top_le
  have hpos := h.pos_eq
  refine ⟨?_, ?_, ?_, ?_⟩
  · simp only [Cursor.skip, Cursor.put, hpos, List.length_append]
  · rw [← List.append_assoc, List.length_append, readRange_add] at hput
    exact (List.append_inj hput (by rw [readRange_length])).1
  · simp only [Cursor.skip, Cursor.put, List.length_append]
    omega
  · simp only [Cursor.skip, Cursor.put, List.length_append]
    omega

/-- A piece without a cell more. -/
theorem Wrote.append_exact (h : Wrote c text) (src : List α) :
    Wrote ((c.put src).skip src.length) (text ++ src) := by
  have happ := @Wrote.append _ _ _ [] h src (Nat.zero_le 1)
  rwa [List.append_nil] at happ

/-- **The last piece.** -/
theorem Wrote.finish (h : Wrote c text) (hsrc : 0 < src.length) :
    (c.put src).top = (text ++ src).length ∧
      readRange (c.put src).mem 0 (text ++ src).length = text ++ src := by
  have hhi := h.top_le
  have hpos := h.pos_eq
  refine ⟨?_, h.put src⟩
  simp only [Cursor.put, List.length_append]
  omega

end Srcinv.Lib
