import Mathlib.Data.Fin.Basic
import Mathlib.Logic.Function.Basic

/-!
A terminal with `h` lines of `w` cells, the cells counted line by line. It scrolls when the cursor
would leave it.
-/

structure Terminal (w h : Nat) (α : Type) where
  cell : Fin (w * h) → α
  cursor : Fin (w * h)

namespace Terminal

variable {w h : Nat} {α : Type} (blank : α) (t : Terminal w h α)

def scroll : Fin (w * h) → α := fun i => if hi : i + w < w * h then t.cell ⟨i + w, hi⟩ else blank

theorem lastLine_lt (i : Fin (w * h)) : w * h - w < w * h := by
  have hpos := Nat.zero_lt_of_lt i.isLt
  have hw : 0 < w := Nat.pos_of_mul_pos_right hpos
  omega

def goTo (n : Nat) : Terminal w h α :=
  if hn : n < w * h then
    { t with cursor := ⟨n, hn⟩ }
  else
    ⟨t.scroll blank, ⟨w * h - w, lastLine_lt t.cursor⟩⟩

def put (c : α)
    : Terminal w h α := goTo blank { t with cell := Function.update t.cell t.cursor c }
        (t.cursor + 1)

def newline : Terminal w h α := t.goTo blank ((t.cursor / w + 1) * w)

def backspace : Terminal w h α :=
  if t.cursor.val = 0 then
    t
  else
    let i : Fin (w * h) := ⟨t.cursor - 1, Nat.lt_of_le_of_lt (Nat.sub_le _ _) t.cursor.isLt⟩
    ⟨Function.update t.cell i blank, i⟩

end Terminal
