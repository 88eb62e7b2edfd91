import Mathlib.Data.Int.Cast.Lemmas
import Mathlib.Logic.Function.Basic

/-!
# A row of a terminal

What a terminal shows of the bytes that are printed on one row: a visible character is written at
the cursor and moves it on, a backspace moves the cursor to the left, and the sequences `ESC [ C` and
`ESC [ D` move it to the right and to the left. Columns are counted from the place where a line of
text begins, so that what is left of it, such as a prompt, has negative columns.

## Main definitions

* `Terminal.Row`, `Terminal.Row.feed` — a row, and the row after some bytes.
* `Terminal.Row.line` — the row that shows a line of text, with blanks after it.

## Main results

* `Terminal.feed_visible` — visible characters overwrite the text.
* `Terminal.feed_back`, `Terminal.feed_right`, `Terminal.feed_left` — the moves of the cursor.
-/

namespace Terminal

/-- How much of an escape sequence has been read. -/
inductive Mode
  | ground
  | escape
  | bracket

/-- A row of a terminal. -/
structure Row where
  cell : ℤ → BitVec 8
  cursor : ℤ
  mode : Mode

/-- The visible characters. -/
def Visible (c : BitVec 8) : Prop := 32#8 ≤ c ∧ c ≤ 126#8

instance (c : BitVec 8) : Decidable (Visible c) := inferInstanceAs (Decidable (_ ∧ _))

/-- The row after one more byte. -/
def Row.put (r : Row) (c : BitVec 8) : Row :=
  match r.mode with
  | .escape => { r with mode := if c = 91#8 then .bracket else .ground }
  | .bracket =>
    { r with
      cursor := if c = 67#8 then r.cursor + 1 else if c = 68#8 then r.cursor - 1 else r.cursor
      mode := .ground }
  | .ground =>
    if c = 27#8 then { r with mode := .escape }
    else if c = 8#8 then { r with cursor := r.cursor - 1 }
    else if Visible c then
      { r with cell := Function.update r.cell r.cursor c, cursor := r.cursor + 1 }
    else r

/-- The row after the bytes `l`. -/
def Row.feed (r : Row) (l : List (BitVec 8)) : Row := l.foldl Row.put r

/-- The row that shows `text` and blanks after it, to the right of what `left` says. -/
def Row.line (left : ℤ → BitVec 8) (text : List (BitVec 8)) (cursor : ℕ) : Row where
  cell := fun i => if i < 0 then left i else text[i.toNat]?.getD 32#8
  cursor := cursor
  mode := .ground

variable {left : ℤ → BitVec 8} {text l m : List (BitVec 8)} {c : BitVec 8} {p n : ℕ} {r : Row}

@[simp] lemma feed_nil : r.feed [] = r := rfl

@[simp] lemma feed_append : r.feed (l ++ m) = (r.feed l).feed m := List.foldl_append

lemma feed_cons : r.feed (c :: l) = (r.put c).feed l := rfl

/-- Blanks at the end of the text do not show. -/
lemma line_append_blank (left : ℤ → BitVec 8) (text : List (BitVec 8)) (n p : ℕ) :
    Row.line left (text ++ List.replicate n 32#8) p = Row.line left text p := by
  unfold Row.line
  congr 1
  funext i
  split_ifs with hi
  · rfl
  rw [List.getElem?_append]
  split_ifs with hlt
  · rfl
  · rw [List.getElem?_eq_none (Nat.not_lt.mp hlt), List.getElem?_replicate]
    split_ifs <;> rfl

lemma Visible.not_special (h : Visible c) : c ≠ 27#8 ∧ c ≠ 8#8 ∧ c ≠ 0#8 := by
  unfold Visible at h
  refine ⟨?_, ?_, ?_⟩ <;>
  · rintro rfl
    exact absurd h (by decide)

/-- A visible character is written at the cursor. -/
lemma put_visible (hc : Visible c) (hp : p ≤ text.length) : (Row.line left text p).put c =
    Row.line left (text.take p ++ c :: text.drop (p + 1)) (p + 1) := by
  obtain ⟨h27, h8, -⟩ := hc.not_special
  unfold Row.put Row.line
  simp only [if_neg h27, if_neg h8, if_pos hc]
  congr 1
  funext i
  by_cases hi : i = (p : ℤ)
  · subst hi
    have hlen : (text.take p).length = p := by rw [List.length_take, min_eq_left hp]
    rw [Function.update_self, if_neg (by omega), Int.toNat_natCast,
      List.getElem?_append_right (by rw [hlen]), hlen, Nat.sub_self]
    rfl
  rw [Function.update_of_ne hi]
  split_ifs with hneg
  · rfl
  congr 1
  have hne : i.toNat ≠ p := by omega
  rw [List.getElem?_append, List.length_take, min_eq_left hp]
  split_ifs with hlt
  · rw [List.getElem?_take_of_lt hlt]
  · obtain ⟨k, hk⟩ : ∃ k, i.toNat - p = k + 1 := ⟨i.toNat - p - 1, by omega⟩
    rw [hk, List.getElem?_cons_succ, List.getElem?_drop, show p + 1 + k = i.toNat by omega]

/-- **Visible characters overwrite the text** from the cursor on. -/
theorem feed_visible (hl : ∀ c ∈ l, Visible c) (hp : p ≤ text.length) :
    (Row.line left text p).feed l =
      Row.line left (text.take p ++ l ++ text.drop (p + l.length)) (p + l.length) := by
  induction l generalizing text p with
  | nil => simp
  | cons c l ih =>
    rw [feed_cons, put_visible (hl c List.mem_cons_self) hp,
      ih (fun c' hc' => hl c' (List.mem_cons_of_mem c hc')) ?_]
    · have hlen : (text.take p).length = p := by rw [List.length_take, min_eq_left hp]
      have htake : (text.take p ++ c :: text.drop (p + 1)).take (p + 1) = text.take p ++ [c] := by
        rw [List.take_append, hlen, Nat.add_sub_cancel_left, List.take_of_length_le (by omega)]
        rfl
      have hdrop : (text.take p ++ c :: text.drop (p + 1)).drop (p + 1 + l.length) =
          text.drop (p + (c :: l).length) := by
        rw [List.drop_append, hlen, List.drop_eq_nil_of_le (by omega), List.nil_append,
          show p + 1 + l.length - p = l.length + 1 by omega, List.drop_succ_cons, List.drop_drop,
          List.length_cons, show p + 1 + l.length = p + (l.length + 1) by omega]
      rw [htake, hdrop, List.length_cons, show p + 1 + l.length = p + (l.length + 1) by omega]
      simp
    · rw [List.length_append, List.length_cons, List.length_take, List.length_drop]
      omega

/-- Backspaces move the cursor to the left. -/
lemma feed_back (hn : n ≤ p) :
    (Row.line left text p).feed (List.replicate n 8#8) = Row.line left text (p - n) := by
  induction n generalizing p with
  | zero => rfl
  | succ n ih =>
    have hput : (Row.line left text p).put 8#8 = Row.line left text (p - 1) := by
      change (⟨_, (p : ℤ) - 1, _⟩ : Row) = ⟨_, ((p - 1 : ℕ) : ℤ), _⟩
      rw [Nat.cast_sub (by omega), Nat.cast_one]
      rfl
    rw [List.replicate_succ, feed_cons, hput, ih (by omega), show p - 1 - n = p - (n + 1) by omega]

lemma feed_right : (Row.line left text p).feed [27#8, 91#8, 67#8] = Row.line left text (p + 1) := by
  change (⟨_, (p : ℤ) + 1, _⟩ : Row) = ⟨_, ((p + 1 : ℕ) : ℤ), _⟩
  rw [Nat.cast_add, Nat.cast_one]
  rfl

lemma feed_left (hp : 0 < p) :
    (Row.line left text p).feed [27#8, 91#8, 68#8] = Row.line left text (p - 1) := by
  change (⟨_, (p : ℤ) - 1, _⟩ : Row) = ⟨_, ((p - 1 : ℕ) : ℤ), _⟩
  rw [Nat.cast_sub (by omega), Nat.cast_one]
  rfl

end Terminal
