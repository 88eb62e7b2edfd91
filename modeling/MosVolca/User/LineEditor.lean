import Mathlib.Tactic.IntervalCases
import MosVolca.Library.Terminal
import MosVolca.User.Readline

/-!
# The line editor is a line with a cursor

What `readline` keeps in memory and shows on the terminal, against a reference editor that has a
text and a cursor. The two agree after every sequence of keys on a line that starts after Enter,
while the text is shorter than 1023 characters.

## Main definitions

* `MosVolca.TextLine`, `MosVolca.TextLine.type` — the reference editor.
* `MosVolca.Key` — the keys, with the bytes they send.
* `MosVolca.Editor.Refines` — the editor keeps and shows a line.

## Main results

* `MosVolca.Editor.Refines.press` — a key keeps the two editors in step.
* `MosVolca.readline_refines` — every sequence of keys does.
-/

namespace MosVolca

open CString Terminal

/-! ## The reference editor -/

/-- A text with a cursor. -/
@[ext] structure TextLine where
  text : List (BitVec 8)
  cursor : ℕ
  le : cursor ≤ text.length

/-- A string that `history_next` may give: `len` visible characters at the start of the buffer. -/
structure Recalled where
  buf : Chars
  len : ℕ
  visible : ∀ c ∈ bytes buf len, isVisable c

/-- The keys. -/
inductive Key
  | char (c : BitVec 8) (h : isVisable c)
  | backspace (c : BitVec 8) (h : c = 8#8 ∨ c = 0x7f#8)
  | delete
  | left
  | right
  | up (reply : Option Recalled)
  | down (reply : Option Recalled)

/-- The bytes that the console gives for a key. -/
def Key.bytes : Key → List (BitVec 8)
  | .char c _ => [c]
  | .backspace c _ => [c]
  | .delete => [27#8, 91#8, 51#8, 126#8]
  | .left => [27#8, 91#8, 68#8]
  | .right => [27#8, 91#8, 67#8]
  | .up _ => [27#8, 91#8, 65#8]
  | .down _ => [27#8, 91#8, 66#8]

/-- What `history_next` does for a key. -/
def Key.replies : Key → List Recall
  | .up reply | .down reply => [reply.map fun r => (r.buf, r.len)]
  | _ => []

namespace TextLine

/-- The empty line. -/
def empty : TextLine := ⟨[], 0, le_rfl⟩

/-- A character is inserted at the cursor. -/
def insert (l : TextLine) (c : BitVec 8) : TextLine where
  text := l.text.take l.cursor ++ c :: l.text.drop l.cursor
  cursor := l.cursor + 1
  le := by
    have := l.le
    rw [List.length_append, List.length_take, List.length_cons, min_eq_left this]
    omega

/-- The character after the cursor is deleted. -/
def delete (l : TextLine) : TextLine where
  text := l.text.take l.cursor ++ l.text.drop (l.cursor + 1)
  cursor := l.cursor
  le := by
    rw [List.length_append, List.length_take, min_eq_left l.le]
    exact Nat.le_add_right _ _

/-- The cursor is moved to the left. -/
def left (l : TextLine) : TextLine := ⟨l.text, l.cursor - 1, (Nat.sub_le _ _).trans l.le⟩

/-- The cursor is moved to the right. -/
def right (l : TextLine) : TextLine :=
  ⟨l.text, min (l.cursor + 1) l.text.length, min_le_right _ _⟩

/-- The line is replaced, with the cursor at its end. -/
def replace (l : TextLine) : Option Recalled → TextLine
  | some r => ⟨bytes r.buf r.len, r.len, (length_bytes _ _).ge⟩
  | none => l

/-- What a key does. -/
def type (l : TextLine) : Key → TextLine
  | .char c _ => l.insert c
  | .backspace _ _ => if l.cursor = 0 then l else l.left.delete
  | .delete => l.delete
  | .left => l.left
  | .right => l.right
  | .up reply | .down reply => l.replace reply

/-- The line after the keys, from an empty one on. -/
def typed (keys : List Key) : TextLine := keys.foldl type empty

variable {l : TextLine} {c : BitVec 8}

lemma length_take_cursor (l : TextLine) : (l.text.take l.cursor).length = l.cursor := by
  rw [List.length_take, min_eq_left l.le]

lemma length_insert (l : TextLine) (c : BitVec 8) :
    (l.insert c).text.length = l.text.length + 1 := by
  have := l.le
  rw [insert, List.length_append, length_take_cursor, List.length_cons, List.length_drop]
  omega

lemma insert_take (l : TextLine) (c : BitVec 8) :
    (l.insert c).text.take (l.cursor + 1) = l.text.take l.cursor ++ [c] := by
  have hlen := l.length_take_cursor
  rw [insert, List.take_append, hlen, Nat.add_sub_cancel_left, List.take_of_length_le]
  · rfl
  · exact hlen.le.trans (Nat.le_succ _)

lemma insert_drop (l : TextLine) (c : BitVec 8) :
    (l.insert c).text.drop (l.cursor + 1) = l.text.drop l.cursor := by
  have hlen := l.length_take_cursor
  rw [insert, List.drop_append, hlen, Nat.add_sub_cancel_left, List.drop_eq_nil_of_le]
  · rfl
  · exact hlen.le.trans (Nat.le_succ _)

lemma length_delete (h : l.cursor < l.text.length) :
    l.delete.text.length + 1 = l.text.length := by
  rw [delete, List.length_append, length_take_cursor, List.length_drop]
  omega

lemma delete_take (l : TextLine) : l.delete.text.take l.cursor = l.text.take l.cursor := by
  have hlen := l.length_take_cursor
  rw [delete, List.take_append_of_le_length hlen.ge, List.take_of_length_le hlen.le]

lemma delete_drop (l : TextLine) : l.delete.text.drop l.cursor = l.text.drop (l.cursor + 1) := by
  have hlen := l.length_take_cursor
  rw [delete, List.drop_append, hlen, Nat.sub_self, List.drop_eq_nil_of_le hlen.le]
  rfl

lemma delete_visible (h : ∀ c ∈ l.text, isVisable c) : ∀ c ∈ l.delete.text, isVisable c := by
  intro c hc
  rcases List.mem_append.mp hc with hc | hc
  · exact h c (List.mem_of_mem_take hc)
  · exact h c (List.mem_of_mem_drop hc)

/-- There is nothing to delete at the end of the text. -/
lemma delete_of_end (h : l.cursor = l.text.length) : l.delete = l := by
  refine TextLine.ext ?_ rfl
  change l.text.take l.cursor ++ l.text.drop (l.cursor + 1) = l.text
  rw [List.take_of_length_le h.ge, List.drop_eq_nil_of_le (by omega), List.append_nil]

lemma right_of_end (h : l.cursor = l.text.length) : l.right = l := by
  refine TextLine.ext rfl ?_
  change min (l.cursor + 1) l.text.length = l.cursor
  rw [h]
  exact min_eq_right (Nat.le_succ _)

lemma right_cursor (h : l.cursor ≠ l.text.length) : l.right.cursor = l.cursor + 1 := by
  have := l.le
  exact min_eq_left (by omega)

end TextLine

/-! ## What the editor keeps and shows -/

namespace Editor

/-- The characters before the cursor. -/
def before (e : Editor) : List (BitVec 8) := bytes e.beforeCur e.beforeLen

/-- The characters after the cursor. -/
def after (e : Editor) : List (BitVec 8) := (bytes e.afterCur e.afterLen).reverse

/-- The arrays `back` and `space` are as `initBS` makes them. -/
structure Ready (e : Editor) : Prop where
  back : ∀ i < 1024, e.back i = 8#8
  space : ∀ i < 1024, e.space i = 32#8

/-- The terminal shows `text` with its cursor at `p`. -/
def Screen (e : Editor) (left : ℤ → BitVec 8) (text : List (BitVec 8)) (p : ℕ) : Prop :=
  (Row.line left [] 0).feed e.printed = Row.line left text p

/-- **The editor keeps the line `l` and shows it.** -/
structure Refines (left : ℤ → BitVec 8) (l : TextLine) (e : Editor) : Prop where
  ready : e.Ready
  visible : ∀ c ∈ l.text, isVisable c
  beforeLen : e.beforeLen = l.cursor
  before : e.before = l.text.take l.cursor
  after : e.after = l.text.drop l.cursor
  inputLen : e.inputLen = l.text.length
  cursor : e.cursor = l.cursor
  screen : e.Screen left l.text l.cursor

/-- `e'` is `e` after the terminal has been brought up to date. -/
structure Redrawn (left : ℤ → BitVec 8) (e e' : Editor) : Prop where
  ready : e'.Ready
  beforeLen : e'.beforeLen = e.beforeLen
  before : e'.before = e.before
  after : e'.after = e.after
  inputLen : e'.inputLen = e.beforeLen + e.after.length
  cursor : e'.cursor = e.beforeLen
  screen : e'.Screen left (e.before ++ e.after) e.beforeLen

variable {e e' : Editor} {left : ℤ → BitVec 8} {l : TextLine} {s : List (BitVec 8)} {p : ℕ}

lemma length_before (e : Editor) : e.before.length = e.beforeLen := length_bytes _ _

lemma length_after (e : Editor) : e.after.length = e.afterLen := by
  rw [after, List.length_reverse, length_bytes]

lemma visible_ne_zero {t : List (BitVec 8)} (h : ∀ c ∈ t, isVisable c) : ∀ c ∈ t, c ≠ 0 :=
  fun c hc => (Visible.not_special (h c hc)).2.2

/-- `loadBuf` stores the text, and the null byte behind it. -/
lemma exists_loadBuf (e : Editor) (buf : Chars) : ∃ b,
    e.loadBuf buf = Function.update b (e.beforeLen + e.afterLen) 0 ∧
      bytes b (e.beforeLen + e.afterLen) = e.before ++ e.after := by
  obtain ⟨b1, h1, hbytes1⟩ := foldl_put e.beforeCur (List.range e.beforeLen) buf 0
  rw [List.length_range, Nat.zero_add] at h1 hbytes1
  obtain ⟨b2, h2, hbytes2⟩ := foldl_put e.afterCur (List.range e.afterLen).reverse b1 e.beforeLen
  rw [List.length_reverse, List.length_range] at h2 hbytes2
  refine ⟨b2, ?_, ?_⟩
  · unfold loadBuf
    simp only [h1, h2]
  · rw [hbytes1] at hbytes2
    simpa [before, after, bytes] using hbytes2

/-- `loadBuf` gives the text. -/
lemma cstr_loadBuf (e : Editor) (buf : Chars) (hb : ∀ c ∈ e.before, isVisable c)
    (ha : ∀ c ∈ e.after, isVisable c) (hlen : e.beforeLen + e.afterLen < 1024) :
    cstr (e.loadBuf buf) 1024 = e.before ++ e.after := by
  obtain ⟨b, hload, hbytes⟩ := e.exists_loadBuf buf
  rw [hload, cstr_update_zero _ hlen, hbytes]
  rw [hbytes]
  refine visible_ne_zero fun c hc => ?_
  rcases List.mem_append.mp hc with hc | hc
  · exact hb c hc
  · exact ha c hc

/-! ## Printing -/

lemma bytes_const {a : Chars} {c : BitVec 8} (h : ∀ i < 1024, a i = c) {n : ℕ} (hn : n < 1024) :
    bytes a n = List.replicate n c := by
  rw [bytes, List.eq_replicate_iff, List.length_map, List.length_range]
  refine ⟨rfl, fun b hb => ?_⟩
  obtain ⟨i, hi, rfl⟩ := List.mem_map.mp hb
  exact h i ((List.mem_range.mp hi).trans hn)

/-- The string that `printBack` and `printSpace` print. -/
lemma cstr_const {a : Chars} {c : BitVec 8} (h : ∀ i < 1024, a i = c) (hc : c ≠ 0) {n : ℕ}
    (hn : n < 1024) : cstr (Function.update a n 0) 1024 = List.replicate n c ∧
      Function.update (Function.update a n 0) n c = a := by
  refine ⟨?_, ?_⟩
  · rw [cstr_update_zero _ hn, bytes_const h hn]
    rw [bytes_const h hn]
    intro b hb
    rwa [List.eq_of_mem_replicate hb]
  · rw [Function.update_idem, ← h n hn, Function.update_eq_self]

lemma print_nil (e : Editor) : e.print [] = e := by
  rw [print, List.append_nil]

lemma printBack_eq (h : e.Ready) {num : ℤ} (hn : num < 1024) :
    e.printBack num = e.print (List.replicate num.toNat 8#8) := by
  unfold printBack
  split_ifs with hle
  · rw [Int.toNat_of_nonpos hle, List.replicate_zero, print_nil]
  · obtain ⟨hstr, hback⟩ := cstr_const h.back (by decide) (show num.toNat < 1024 by omega)
    simp only [print, hstr, hback]

lemma printSpace_eq (h : e.Ready) {num : ℤ} (hn : num < 1024) :
    e.printSpace num = e.print (List.replicate num.toNat 32#8) := by
  unfold printSpace
  split_ifs with hle
  · rw [Int.toNat_of_nonpos hle, List.replicate_zero, print_nil]
  · obtain ⟨hstr, hspace⟩ := cstr_const h.space (by decide) (show num.toNat < 1024 by omega)
    simp only [print, hstr, hspace]

lemma printAfter_eq (e : Editor) : e.printAfter = e.print e.after := by
  rw [printAfter, after, bytes, List.map_reverse]

/-! ## Bringing the terminal up to date -/

/-- The end of `updateCons`: the text after the cursor is printed, blanks where the text was longer,
and the cursor goes back. -/
lemma feed_rest {d : ℕ} (hb : e.beforeLen ≤ s.length) (hs : s.take e.beforeLen = e.before)
    (ha : ∀ c ∈ e.after, isVisable c) (hd : s.length ≤ e.beforeLen + e.afterLen + d) :
    (Row.line left s e.beforeLen).feed
        (e.after ++ (List.replicate d 32#8 ++ List.replicate (d + e.afterLen) 8#8)) =
      Row.line left (e.before ++ e.after) e.beforeLen := by
  have halen := e.length_after
  have hvis : ∀ c ∈ e.after ++ List.replicate d 32#8, Visible c := by
    intro c hc
    rcases List.mem_append.mp hc with hc | hc
    · exact ha c hc
    · rw [List.eq_of_mem_replicate hc]
      decide
  have hdrop : s.drop (e.beforeLen + (e.after ++ List.replicate d 32#8).length) = [] := by
    rw [List.drop_eq_nil_iff, List.length_append, List.length_replicate]
    omega
  rw [← List.append_assoc, feed_append, feed_visible hvis hb, hdrop, hs,
    List.append_nil, ← List.append_assoc, line_append_blank, List.length_append,
    List.length_replicate, feed_back (by omega),
    show e.beforeLen + (e.after.length + d) - (d + e.afterLen) = e.beforeLen by omega]

/-- Nothing has to be drawn if the lengths agree. -/
lemma updateCons_same (hr : e.Ready) (hlen : e.inputLen = e.beforeLen + e.after.length)
    (hs : e.Screen left (e.before ++ e.after) e.beforeLen) :
    Redrawn left e (e.updateCons false) := by
  have hupd : e.updateCons false = { e with
      beforeCur := Function.update e.beforeCur e.beforeLen 0
      afterCur := Function.update e.afterCur e.afterLen 0
      cursor := e.beforeLen } := by
    rw [length_after] at hlen
    unfold updateCons
    rw [if_neg Bool.false_ne_true, if_pos (by omega)]
  rw [hupd]
  refine ⟨⟨hr.back, hr.space⟩, rfl, bytes_update le_rfl, ?_, hlen, rfl, hs⟩
  exact congrArg List.reverse (bytes_update le_rfl)

lemma Ready.print (hr : e.Ready) (t : List (BitVec 8)) : (e.print t).Ready := ⟨hr.back, hr.space⟩

lemma print_print (e : Editor) (t u : List (BitVec 8)) :
    (e.print t).print u = e.print (t ++ u) := by
  simp only [print, List.append_assoc]

@[simp] lemma print_afterLen (e : Editor) (t : List (BitVec 8)) :
    (e.print t).afterLen = e.afterLen := rfl

/-- What is printed at the end of `updateCons`. -/
lemma printRest_eq (hr : e.Ready) {d : ℤ} {n : ℕ} (hd : (if d < 0 then 0 else d) = (n : ℤ))
    (hlen : n + e.afterLen < 1024) :
    (e.printAfter.printSpace (if d < 0 then 0 else d)).printBack
        ((if d < 0 then 0 else d) + (e.printAfter.printSpace (if d < 0 then 0 else d)).afterLen) =
      e.print (e.after ++ (List.replicate n 32#8 ++ List.replicate (n + e.afterLen) 8#8)) := by
  rw [hd, printAfter_eq, printSpace_eq (hr.print _) (by omega), print_afterLen, print_afterLen,
    printBack_eq ((hr.print _).print _) (by omega), print_print, print_print, Int.toNat_natCast,
    show ((n : ℤ) + e.afterLen).toNat = n + e.afterLen by omega]

/-- The line is drawn from the place `p` on, where the terminal shows `s`. -/
lemma redrawn_of_printed {n : ℕ} (hr : e.Ready) (hb : e.beforeLen ≤ s.length)
    (hs : s.take e.beforeLen = e.before) (ha : ∀ c ∈ e.after, isVisable c)
    (hn : s.length ≤ e.beforeLen + e.afterLen + n) (hscreen : e.Screen left s e.beforeLen)
    (he' : e' = { e with
      inputLen := e.beforeLen + e.afterLen
      cursor := e.beforeLen
      printed := e.printed ++
        (e.after ++ (List.replicate n 32#8 ++ List.replicate (n + e.afterLen) 8#8)) }) :
    Redrawn left e e' := by
  subst he'
  refine ⟨⟨hr.back, hr.space⟩, rfl, rfl, rfl, ?_, rfl, ?_⟩
  · rw [length_after]
  · rw [Screen, feed_append, hscreen]
    exact feed_rest hb hs ha hn

lemma Redrawn.congr {e1 : Editor} (h : Redrawn left e1 e') (hlen : e1.beforeLen = e.beforeLen)
    (hbefore : e1.before = e.before) (hafter : e1.after = e.after) : Redrawn left e e' := by
  refine ⟨h.ready, ?_, ?_, ?_, ?_, ?_, ?_⟩
  · rw [h.beforeLen, hlen]
  · rw [h.before, hbefore]
  · rw [h.after, hafter]
  · rw [h.inputLen, hlen, hafter]
  · rw [h.cursor, hlen]
  · rw [← hbefore, ← hafter, ← hlen]
    exact h.screen

/-- The whole line is drawn. -/
lemma updateCons_all (hr : e.Ready) (hlen : e.beforeLen + e.afterLen < 1023)
    (hb : ∀ c ∈ e.before, isVisable c) (ha : ∀ c ∈ e.after, isVisable c)
    (hin : e.inputLen = s.length) (hslen : s.length < 1023) (hcur : e.cursor ≤ s.length)
    (hs : e.Screen left s e.cursor) : Redrawn left e (e.updateCons true) := by
  obtain ⟨n, hn⟩ : ∃ n, n = s.length - (e.beforeLen + e.afterLen) := ⟨_, rfl⟩
  obtain ⟨e1, he1⟩ : ∃ e1 : Editor, e1 = { e with
    beforeCur := Function.update e.beforeCur e.beforeLen 0
    printed := e.printed ++ List.replicate e.cursor 8#8 ++ e.before } := ⟨_, rfl⟩
  have hlens : e1.beforeLen = e.beforeLen ∧ e1.afterLen = e.afterLen := by
    rw [he1]
    exact ⟨rfl, rfl⟩
  have hbefore : e1.before = e.before := by
    rw [he1]
    exact bytes_update le_rfl
  have hafter : e1.after = e.after := by rw [he1]; rfl
  have hr1 : e1.Ready := he1 ▸ ⟨hr.back, hr.space⟩
  have hrest := printRest_eq hr1 (d := (e.inputLen : ℤ) - e.beforeLen - e.afterLen) (n := n)
    (by split_ifs <;> omega) (by omega)
  have hstr : cstr (Function.update e.beforeCur e.beforeLen 0) 1024 = e.before :=
    cstr_update_zero (visible_ne_zero hb) (by omega)
  obtain ⟨e2, he2⟩ : ∃ e2, e2 = e1.print
    (e1.after ++ (List.replicate n 32#8 ++ List.replicate (n + e1.afterLen) 8#8)) := ⟨_, rfl⟩
  have hupd : e.updateCons true =
      { e2 with inputLen := e2.beforeLen + e2.afterLen, cursor := e2.beforeLen } := by
    rw [he2, ← hrest, he1, ← hstr]
    unfold updateCons
    rw [if_pos rfl, printBack_eq hr (by omega), Int.toNat_natCast]
    rfl
  have hscreen : e1.Screen left (e.before ++ s.drop e.beforeLen) e1.beforeLen := by
    have hfeed : (Row.line left [] 0).feed e1.printed =
        ((Row.line left s e.cursor).feed (List.replicate e.cursor 8#8)).feed e.before := by
      rw [he1, ← hs, ← feed_append, ← feed_append, List.append_assoc]
    rw [Screen, hfeed, feed_back le_rfl, Nat.sub_self, feed_visible hb (Nat.zero_le _), hlens.1,
      length_before, Nat.zero_add, List.take_zero, List.nil_append]
  have hred : Redrawn left e1 (e.updateCons true) := by
    refine redrawn_of_printed (n := n) hr1 ?_ ?_ ?_ ?_ hscreen ?_
    · rw [List.length_append, length_before]
      omega
    · rw [hlens.1, hbefore, List.take_append_of_le_length (length_before e).ge,
        List.take_of_length_le (length_before e).le]
    · rwa [hafter]
    · rw [List.length_append, length_before, List.length_drop]
      omega
    · rw [hupd, he2]
      rfl
  exact hred.congr hlens.1 hbefore hafter

/-- The part of the line from the first change on is drawn. -/
lemma updateCons_changed (hr : e.Ready) (hlen : e.beforeLen + e.afterLen < 1023)
    (hb : ∀ c ∈ e.before, isVisable c) (ha : ∀ c ∈ e.after, isVisable c)
    (hin : e.inputLen = s.length) (hslen : s.length < 1023) (hcur : e.cursor ≤ s.length)
    (hs : e.Screen left s e.cursor) (hne : s.length ≠ e.beforeLen + e.afterLen)
    (hpre : s.take (min e.cursor e.beforeLen) = e.before.take (min e.cursor e.beforeLen)) :
    Redrawn left e (e.updateCons false) := by
  obtain ⟨n, hn⟩ : ∃ n, n = s.length - (e.beforeLen + e.afterLen) := ⟨_, rfl⟩
  have hblen := length_before e
  -- the cursor goes to its place: over blanks to come, or over characters that are printed
  obtain ⟨e1, t, he1, hup, hbefore, hscreen, htlen, htake⟩ : ∃ (e1 : Editor) (t : List (BitVec 8)),
      e1 = { e with
        beforeCur := e1.beforeCur
        printed := e1.printed } ∧
      e1 = (if e.cursor > e.beforeLen then e.printBack (e.cursor - e.beforeLen)
        else
          let e := { e with beforeCur := Function.update e.beforeCur e.beforeLen 0 }
          e.print (cstr (fun i => e.beforeCur (e.cursor + i)) (1024 - e.cursor))) ∧
      e1.before = e.before ∧ e1.Screen left t e.beforeLen ∧
      t.length = max s.length e.beforeLen ∧ t.take e.beforeLen = e.before := by
    by_cases hc : e.cursor > e.beforeLen
    · rw [min_eq_right hc.le, List.take_of_length_le hblen.le] at hpre
      refine ⟨e.print (List.replicate (e.cursor - e.beforeLen) 8#8), s, rfl, ?_, rfl, ?_, ?_, hpre⟩
      · rw [if_pos hc, printBack_eq hr (by omega),
          show ((e.cursor : ℤ) - e.beforeLen).toNat = e.cursor - e.beforeLen by omega]
      · rw [Screen, print, feed_append, hs, feed_back (by omega),
          show e.cursor - (e.cursor - e.beforeLen) = e.beforeLen by omega]
      · omega
    · have hc : e.cursor ≤ e.beforeLen := Nat.not_lt.mp hc
      rw [min_eq_left hc] at hpre
      have hstr := cstr_update_zero_drop (n := 1024) (visible_ne_zero hb) (by omega) hc
      refine ⟨{ e with
          beforeCur := Function.update e.beforeCur e.beforeLen 0
          printed := e.printed ++ e.before.drop e.cursor }, e.before ++ s.drop e.beforeLen, rfl, ?_,
        bytes_update le_rfl, ?_, ?_, ?_⟩
      · rw [if_neg (by omega), before, ← hstr]
        rfl
      · have hvis : ∀ c ∈ e.before.drop e.cursor, Visible c := fun c hc =>
          hb c (List.mem_of_mem_drop hc)
        rw [Screen, feed_append, hs, feed_visible hvis hcur, hpre, List.take_append_drop,
          List.length_drop, hblen, show e.cursor + (e.beforeLen - e.cursor) = e.beforeLen by omega]
      · rw [List.length_append, List.length_drop, hblen]
        omega
      · rw [List.take_append_of_le_length hblen.ge, List.take_of_length_le hblen.le]
  have hlens : e1.beforeLen = e.beforeLen ∧ e1.afterLen = e.afterLen := by
    rw [he1]
    exact ⟨rfl, rfl⟩
  have hafter : e1.after = e.after := by
    rw [he1]
    rfl
  obtain ⟨e2, he2⟩ : ∃ e2 : Editor, e2 = { e1 with cursor := e1.beforeLen } := ⟨_, rfl⟩
  have hr2 : e2.Ready := by
    rw [he2, he1]
    exact ⟨hr.back, hr.space⟩
  have hlens2 : e2.beforeLen = e1.beforeLen ∧ e2.afterLen = e1.afterLen := by
    rw [he2]
    exact ⟨rfl, rfl⟩
  have hrest := printRest_eq hr2 (d := (e.inputLen : ℤ) - e.beforeLen - e.afterLen) (n := n)
    (by split_ifs <;> omega) (by omega)
  obtain ⟨e3, he3⟩ : ∃ e3, e3 = e2.print
    (e2.after ++ (List.replicate n 32#8 ++ List.replicate (n + e2.afterLen) 8#8)) := ⟨_, rfl⟩
  have hupd : e.updateCons false = { e3 with inputLen := e3.beforeLen + e3.afterLen } := by
    rw [he3, ← hrest, he2]
    unfold updateCons
    rw [if_neg Bool.false_ne_true, if_neg (by omega), ← hup]
  have hred : Redrawn left e1 (e.updateCons false) := by
    refine redrawn_of_printed (n := n) (s := t) ⟨?_, ?_⟩ ?_ ?_ ?_ ?_ ?_ ?_
    · rw [he1]
      exact hr.back
    · rw [he1]
      exact hr.space
    · omega
    · rw [hlens.1, hbefore, htake]
    · rwa [hafter]
    · omega
    · rwa [hlens.1]
    · rw [hupd, he3, he2]
      rfl
  exact hred.congr hlens.1 hbefore hafter

/-! ## The keys -/

/-- What the loop of `readline` does on a key. -/
def press (dealTab : Editor → Editor) (e : Editor) : Key → Editor
  | .char c _ | .backspace c _ => (e.readChar dealTab c).updateCons false
  | .delete => (e.readDirection none .del).updateCons false
  | .left => (e.readDirection none .left).updateCons false
  | .right => (e.readDirection none .right).updateCons false
  | .up reply => (e.readDirection (reply.map fun r => (r.buf, r.len)) .up).updateCons false
  | .down reply => (e.readDirection (reply.map fun r => (r.buf, r.len)) .down).updateCons false

/-- A line that has been drawn is kept and shown. -/
lemma Redrawn.refines (h : Redrawn left e e') (hlen : e.beforeLen = l.cursor)
    (hb : e.before = l.text.take l.cursor) (ha : e.after = l.text.drop l.cursor)
    (hvis : ∀ c ∈ l.text, isVisable c) : Refines left l e' := by
  refine ⟨h.ready, hvis, ?_, ?_, ?_, ?_, ?_, ?_⟩
  · rw [h.beforeLen, hlen]
  · rw [h.before, hb]
  · rw [h.after, ha]
  · have := l.le
    rw [h.inputLen, hlen, ha, List.length_drop]
    omega
  · rw [h.cursor, hlen]
  · have hscreen := h.screen
    rwa [hb, ha, List.take_append_drop, hlen] at hscreen

namespace Refines

variable (h : Refines left l e)

include h

lemma before_visible : ∀ c ∈ e.before, isVisable c := fun c hc =>
  h.visible c (List.mem_of_mem_take (h.before ▸ hc))

lemma after_visible : ∀ c ∈ e.after, isVisable c := fun c hc =>
  h.visible c (List.mem_of_mem_drop (h.after ▸ hc))

lemma afterLen : e.afterLen = l.text.length - l.cursor := by
  rw [← length_after, h.after, List.length_drop]

/-- There is nothing to do for a line that is shown. -/
lemma same : Refines left l (e.updateCons false) := by
  have := l.le
  refine (updateCons_same h.ready ?_ ?_).refines h.beforeLen h.before h.after h.visible
  · rw [h.inputLen, h.beforeLen, h.after, List.length_drop]
    omega
  · have hscreen := h.screen
    rwa [← List.take_append_drop l.cursor l.text, ← h.before, ← h.after, ← h.beforeLen] at hscreen

/-- The line after a change that `updateCons` has to draw: the new text has another length, and the
part before both cursors is as it was. -/
lemma changed {e1 : Editor} {l' : TextLine} (hr : e1.Ready) (hin : e1.inputLen = e.inputLen)
    (hcur : e1.cursor = e.cursor) (hprinted : e1.printed = e.printed)
    (hlen : e1.beforeLen = l'.cursor) (hb : e1.before = l'.text.take l'.cursor)
    (ha : e1.after = l'.text.drop l'.cursor) (hvis : ∀ c ∈ l'.text, isVisable c)
    (hfit : l.text.length < 1023) (hfit' : l'.text.length < 1023)
    (hne : l.text.length ≠ l'.text.length)
    (hpre : l.text.take (min l.cursor l'.cursor) = l'.text.take (min l.cursor l'.cursor)) :
    Refines left l' (e1.updateCons false) := by
  have hle := l.le
  have hle' := l'.le
  have halen : e1.afterLen = l'.text.length - l'.cursor := by
    rw [← length_after, ha, List.length_drop]
  refine (updateCons_changed (s := l.text) hr ?_ ?_ ?_ ?_ hfit ?_ ?_ ?_ ?_).refines hlen hb ha hvis
  · omega
  · exact fun c hc => hvis c (List.mem_of_mem_take (hb ▸ hc))
  · exact fun c hc => hvis c (List.mem_of_mem_drop (ha ▸ hc))
  · rw [hin, h.inputLen]
  · rw [hcur, h.cursor]
    exact hle
  · rw [Screen, hprinted, hcur, h.cursor]
    exact h.screen
  · omega
  · rw [hcur, h.cursor, hlen, hb, List.take_take, min_assoc, min_self]
    exact hpre

/-- A visible character is inserted at the cursor. -/
lemma char (dealTab : Editor → Editor) {c : BitVec 8} (hc : isVisable c)
    (hfit : l.text.length < 1023) (hfit' : (l.insert c).text.length < 1023) :
    Refines left (l.insert c) ((e.readChar dealTab c).updateCons false) := by
  have hle := l.le
  obtain ⟨-, h8, -⟩ := Visible.not_special hc
  have hread : e.readChar dealTab c = { e with
      beforeCur := Function.update e.beforeCur e.beforeLen c
      beforeLen := e.beforeLen + 1 } := by
    have h7f : c ≠ 0x7f#8 := by
      rintro rfl
      exact absurd hc (by decide)
    have h9 : c ≠ 9#8 := by
      rintro rfl
      exact absurd hc (by decide)
    rw [readChar, if_neg (by simp [h8, h7f]), if_neg h9, if_pos hc]
  have hlength := l.length_insert c
  rw [hread]
  refine h.changed ⟨h.ready.back, h.ready.space⟩ rfl rfl rfl ?_ ?_ ?_ ?_ hfit hfit' ?_ ?_
  · exact congrArg (· + 1) h.beforeLen
  · change CString.bytes (Function.update e.beforeCur e.beforeLen c) (e.beforeLen + 1) =
      (l.insert c).text.take (l.cursor + 1)
    rw [bytes_update_succ, l.insert_take, ← h.before]
    rfl
  · change e.after = (l.insert c).text.drop (l.cursor + 1)
    rw [l.insert_drop, h.after]
  · intro b hb
    rcases List.mem_append.mp hb with hb | hb
    · exact h.visible b (List.mem_of_mem_take hb)
    · rcases List.mem_cons.mp hb with rfl | hb
      · exact hc
      · exact h.visible b (List.mem_of_mem_drop hb)
  · omega
  · have hlen := l.length_take_cursor
    change l.text.take (min l.cursor (l.cursor + 1)) =
      (l.insert c).text.take (min l.cursor (l.cursor + 1))
    rw [min_eq_left (Nat.le_succ _), TextLine.insert, List.take_append_of_le_length hlen.ge,
      List.take_of_length_le hlen.le]

/-- **Backspace** deletes the character in front of the cursor, if there is one. -/
lemma backspace (hfit : l.text.length < 1023) :
    Refines left (if l.cursor = 0 then l else l.left.delete)
      ((e.backOrDelete false).updateCons false) := by
  have hle := l.le
  by_cases hc : l.cursor = 0
  · have hback : e.backOrDelete false = e := by
      rw [backOrDelete, if_neg Bool.false_ne_true, if_pos (h.beforeLen.trans hc), ite_self]
    rw [if_pos hc, hback]
    exact h.same
  have hin := h.inputLen
  have hblen := h.beforeLen
  have hleft : l.left.cursor = l.cursor - 1 := rfl
  have hlength : l.left.delete.text.length + 1 = l.text.length :=
    TextLine.length_delete (show l.cursor - 1 < l.text.length by omega)
  have hback : e.backOrDelete false =
      { e with beforeLen := e.beforeLen - 1 }.updateCons false := by
    rw [backOrDelete, if_neg Bool.false_ne_true, if_neg (by omega), if_neg (by omega)]
  rw [if_neg hc, hback]
  refine Refines.same
    (h.changed ⟨h.ready.back, h.ready.space⟩ rfl rfl rfl ?_ ?_ ?_ ?_ hfit ?_ ?_ ?_)
  · exact congrArg (· - 1) h.beforeLen
  · change CString.bytes e.beforeCur (e.beforeLen - 1) = l.left.delete.text.take l.left.cursor
    have hbefore : CString.bytes e.beforeCur e.beforeLen = _ := h.before
    rw [l.left.delete_take, ← bytes_take e.beforeCur (Nat.sub_le _ 1), hbefore, List.take_take,
      hblen, min_eq_left (Nat.sub_le _ 1)]
    rfl
  · change e.after = l.left.delete.text.drop l.left.cursor
    rw [l.left.delete_drop, hleft, show l.cursor - 1 + 1 = l.cursor by omega]
    exact h.after
  · exact TextLine.delete_visible (l := l.left) h.visible
  · omega
  · omega
  · change l.text.take (min l.cursor (l.cursor - 1)) =
      l.left.delete.text.take (min l.cursor (l.cursor - 1))
    rw [min_eq_right (Nat.sub_le _ 1), ← hleft, l.left.delete_take]
    rfl

/-- **Delete** deletes the character at the cursor. -/
lemma delete (hfit : l.text.length < 1023) :
    Refines left l.delete ((e.readDirection none .del).updateCons false) := by
  have hle := l.le
  have hin := h.inputLen
  have halen := h.afterLen
  by_cases hc : l.cursor = l.text.length
  · have ha0 : e.afterLen = 0 := by omega
    have hback : e.readDirection none .del = e := by
      rw [readDirection, if_pos rfl, backOrDelete, if_pos rfl, if_pos ha0, ite_self]
    rw [TextLine.delete_of_end hc, hback]
    exact h.same
  have hlength := TextLine.length_delete (l := l) (by omega)
  have hback : e.readDirection none .del =
      { e with afterLen := e.afterLen - 1 }.updateCons false := by
    rw [readDirection, if_pos rfl, backOrDelete, if_pos rfl, if_neg (by omega), if_neg (by omega)]
  rw [hback]
  refine Refines.same
    (h.changed ⟨h.ready.back, h.ready.space⟩ rfl rfl rfl ?_ ?_ ?_ ?_ hfit ?_ ?_ ?_)
  · exact h.beforeLen
  · change e.before = l.delete.text.take l.cursor
    rw [l.delete_take, h.before]
  · change (CString.bytes e.afterCur (e.afterLen - 1)).reverse = l.delete.text.drop l.cursor
    have hafter : (CString.bytes e.afterCur (e.afterLen - 1 + 1)).reverse =
        l.text.drop l.cursor := by
      rw [Nat.sub_add_cancel (by omega)]
      exact h.after
    rw [bytes_succ, List.reverse_append, List.reverse_singleton, List.singleton_append] at hafter
    rw [l.delete_drop, ← List.drop_drop, ← hafter]
    rfl
  · exact TextLine.delete_visible h.visible
  · omega
  · omega
  · change l.text.take (min l.cursor l.cursor) = l.delete.text.take (min l.cursor l.cursor)
    rw [min_self, l.delete_take]

/-- A line whose cursor has been moved, on the screen too. -/
lemma moved {e1 : Editor} {l' : TextLine} (hr : e1.Ready) (htext : l'.text = l.text)
    (hin : e1.inputLen = e.inputLen) (hscreen : e1.Screen left l.text l'.cursor)
    (hlen : e1.beforeLen = l'.cursor) (hb : e1.before = l'.text.take l'.cursor)
    (ha : e1.after = l'.text.drop l'.cursor) :
    Refines left l' ((e1.updateCons false).updateCons false) := by
  have hle := l'.le
  refine Refines.same ((updateCons_same hr ?_ ?_).refines hlen hb ha (htext ▸ h.visible))
  · rw [hin, h.inputLen, hlen, ha, List.length_drop, ← htext]
    omega
  · rwa [hb, ha, List.take_append_drop, hlen, htext]

/-- **Right** moves the cursor on by one. -/
lemma right : Refines left l.right ((e.readDirection none .right).updateCons false) := by
  have hle := l.le
  have hin := h.inputLen
  have hblen := h.beforeLen
  have halen := h.afterLen
  by_cases hc : l.cursor = l.text.length
  · have hmove : e.readDirection none .right = e := by
      rw [readDirection, if_neg (by decide), moveCursor, if_pos (by omega)]
    rw [TextLine.right_of_end hc, hmove]
    exact h.same
  have hcur := TextLine.right_cursor hc
  have hmove : e.readDirection none .right =
      { e.print [27#8, 91#8, 67#8] with
        beforeCur := Function.update e.beforeCur e.beforeLen (e.afterCur (e.afterLen - 1))
        beforeLen := e.beforeLen + 1
        afterLen := e.afterLen - 1 }.updateCons false := by
    rw [readDirection, if_neg (by decide), moveCursor, if_neg (by omega)]
    rfl
  have hafter : (CString.bytes e.afterCur (e.afterLen - 1 + 1)).reverse = l.text.drop l.cursor := by
    rw [Nat.sub_add_cancel (by omega)]
    exact h.after
  rw [bytes_succ, List.reverse_append, List.reverse_singleton, List.singleton_append] at hafter
  rw [hmove]
  refine h.moved ⟨h.ready.back, h.ready.space⟩ rfl rfl ?_ ?_ ?_ ?_
  · change (Row.line left [] 0).feed (e.printed ++ _) = _
    rw [feed_append, h.screen, hcur]
    exact feed_right
  · rw [hcur]
    exact congrArg (· + 1) h.beforeLen
  · change CString.bytes (Function.update e.beforeCur e.beforeLen _) (e.beforeLen + 1) = _
    rw [bytes_update_succ, hcur]
    change e.before ++ _ = l.text.take (l.cursor + 1)
    rw [List.take_add, ← hafter, h.before]
    rfl
  · change (CString.bytes e.afterCur (e.afterLen - 1)).reverse = l.text.drop l.right.cursor
    rw [hcur, ← List.drop_drop, ← hafter]
    rfl

/-- **Left** moves the cursor back by one. -/
lemma left_key : Refines left l.left ((e.readDirection none .left).updateCons false) := by
  have hle := l.le
  have hblen := h.beforeLen
  by_cases hc : l.cursor = 0
  · have hmove : e.readDirection none .left = e := by
      rw [readDirection, if_neg (by decide), moveCursor, if_pos (by omega)]
    have hleft : l.left = l := TextLine.ext rfl (by
      change l.cursor - 1 = l.cursor
      omega)
    rw [hleft, hmove]
    exact h.same
  have hmove : e.readDirection none .left =
      { e.print [27#8, 91#8, 68#8] with
        afterCur := Function.update e.afterCur e.afterLen (e.beforeCur (e.beforeLen - 1))
        afterLen := e.afterLen + 1
        beforeLen := e.beforeLen - 1 }.updateCons false := by
    rw [readDirection, if_neg (by decide), moveCursor, if_neg (by omega)]
    rfl
  have htext : l.text = CString.bytes e.beforeCur (e.beforeLen - 1) ++
      e.beforeCur (e.beforeLen - 1) :: e.after := by
    have hbefore : CString.bytes e.beforeCur (e.beforeLen - 1 + 1) = l.text.take l.cursor := by
      rw [Nat.sub_add_cancel (by omega)]
      exact h.before
    rw [← List.take_append_drop l.cursor l.text, ← hbefore, ← h.after, bytes_succ,
      List.append_assoc]
    rfl
  have hlen : (CString.bytes e.beforeCur (e.beforeLen - 1)).length = l.left.cursor := by
    rw [length_bytes, hblen]
    rfl
  rw [hmove]
  refine h.moved ⟨h.ready.back, h.ready.space⟩ rfl rfl ?_ ?_ ?_ ?_
  · change (Row.line left [] 0).feed (e.printed ++ _) = _
    rw [feed_append, h.screen]
    exact feed_left (by omega)
  · exact congrArg (· - 1) h.beforeLen
  · change CString.bytes e.beforeCur (e.beforeLen - 1) = l.text.take l.left.cursor
    rw [htext, List.take_left' hlen]
  · change (CString.bytes (Function.update e.afterCur e.afterLen _) (e.afterLen + 1)).reverse =
      l.text.drop l.left.cursor
    rw [bytes_update_succ, List.reverse_append, htext, List.drop_left' hlen]
    rfl

/-- What `history_next` gives replaces the line. -/
lemma replaced (reply : Option Recalled) {dir : Direction} (hdir : dir = .up ∨ dir = .down)
    (hfit : l.text.length < 1023) (hfit' : (l.replace reply).text.length < 1023) :
    Refines left (l.replace reply)
      ((e.readDirection (reply.map fun r => (r.buf, r.len)) dir).updateCons false) := by
  have hle := l.le
  have hin := h.inputLen
  have hcur := h.cursor
  have hblen := h.beforeLen
  have halen := h.afterLen
  have hmove : e.readDirection (reply.map fun r => (r.buf, r.len)) dir =
      (e.fromHistory (reply.map fun r => (r.buf, r.len))).updateCons true := by
    rcases hdir with rfl | rfl <;> rfl
  rw [hmove]
  refine Refines.same ?_
  cases reply with
  | none =>
    refine (updateCons_all (s := l.text) h.ready ?_ h.before_visible h.after_visible hin hfit ?_ ?_
      ).refines h.beforeLen h.before h.after h.visible
    · omega
    · omega
    · rw [Screen, h.cursor]
      exact h.screen
  | some r =>
    have hlen : (CString.bytes r.buf r.len).length < 1023 := hfit'
    rw [length_bytes] at hlen
    have hred : Redrawn left (e.fromHistory (some (r.buf, r.len)))
        ((e.fromHistory (some (r.buf, r.len))).updateCons true) := by
      refine updateCons_all (s := l.text) ⟨h.ready.back, h.ready.space⟩ hlen r.visible ?_ hin hfit
        (hcur.le.trans hle) ?_
      · exact fun c hc => absurd hc List.not_mem_nil
      · change (Row.line left [] 0).feed e.printed = Row.line left l.text e.cursor
        rw [hcur]
        exact h.screen
    refine hred.refines rfl ?_ ?_ r.visible
    · exact (List.take_of_length_le (length_bytes _ _).le).symm
    · exact (List.drop_eq_nil_of_le (length_bytes _ _).le).symm

/-- **A key keeps the two editors in step.** -/
theorem press (dealTab : Editor → Editor) (k : Key) (hfit : l.text.length < 1023)
    (hfit' : (l.type k).text.length < 1023) : Refines left (l.type k) (e.press dealTab k) := by
  cases k with
  | char c hc => exact h.char dealTab hc hfit hfit'
  | backspace c hc =>
    have hread : e.readChar dealTab c = e.backOrDelete false := if_pos hc
    rw [Editor.press, hread]
    exact h.backspace hfit
  | delete => exact h.delete hfit
  | left => exact h.left_key
  | right => exact h.right
  | up reply => exact h.replaced reply (Or.inl rfl) hfit hfit'
  | down reply => exact h.replaced reply (Or.inr rfl) hfit hfit'

end Refines

end Editor

/-! ## The loop -/

section Loop

variable {dealTab : Editor → Editor} {n : ℕ} {e : Editor} {buf : Chars} {replies : List Recall}
  {input rest : List (BitVec 8)} {left : ℤ → BitVec 8} {l : TextLine}

lemma consRead_cons {c : BitVec 8} (h0 : c ≠ 0#8) (h4 : c ≠ 4#8) :
    consRead (c :: input) = some (some c, input) := by
  have h0 : ¬ c = 0 := h0
  rw [consRead, if_neg h0, if_neg h4]

/-- A byte other than `ESC`: Enter returns the line, and the others go to `readChar`. -/
lemma readLoop_byte {c : BitVec 8} (hn : e.inputLen < n) (h0 : c ≠ 0#8) (h4 : c ≠ 4#8)
    (hesc : c ≠ 27#8) :
    readLoop dealTab n e buf replies (c :: input) =
      if c = 13#8 ∨ c = 10#8 then
        .returned ({ e with cursor := 0, inputLen := 0 }.print [10#8]) (e.loadBuf buf) input
      else readLoop dealTab n ((e.readChar dealTab c).updateCons false) buf replies input := by
  rw [readLoop, if_pos hn]
  split
  · rename_i heq
    rw [consRead_cons h0 h4] at heq
    cases heq
  · rename_i heq
    rw [consRead_cons h0 h4] at heq
    cases heq
  · rename_i heq
    rw [consRead_cons h0 h4] at heq
    cases heq
    rw [if_neg hesc]
    rfl

/-- A byte that is neither `ESC` nor Enter. -/
lemma readLoop_char {c : BitVec 8} (hn : e.inputLen < n) (hc : isVisable c ∨ c = 8#8 ∨ c = 0x7f#8) :
    readLoop dealTab n e buf replies (c :: input) =
      readLoop dealTab n ((e.readChar dealTab c).updateCons false) buf replies input := by
  have hother : ∀ b ∈ [0#8, 4#8, 27#8, 13#8, 10#8], c ≠ b := by
    intro b hb
    rintro rfl
    revert hb hc
    simp only [List.mem_cons, List.not_mem_nil, or_false]
    rintro hc (rfl | rfl | rfl | rfl | rfl) <;> exact absurd hc (by decide)
  rw [readLoop_byte hn (hother _ (by simp)) (hother _ (by simp)) (hother _ (by simp)), if_neg]
  rintro (hb | hb)
  · exact hother _ (by simp) hb
  · exact hother _ (by simp) hb

/-- An escape sequence. -/
lemma readLoop_direction {dir : Direction} (hn : e.inputLen < n)
    (hdir : readDir input = some (.inl dir, rest)) :
    readLoop dealTab n e buf replies (27#8 :: input) =
      readLoop dealTab n ((e.readDirection (nextReply replies dir).1 dir).updateCons false) buf
        (nextReply replies dir).2 rest := by
  have hread : consRead (27#8 :: input) = some (some 27#8, input) :=
    consRead_cons (by decide) (by decide)
  rw [readLoop, if_pos hn]
  split
  · rename_i heq
    rw [hread] at heq
    cases heq
  · rename_i heq
    rw [hread] at heq
    cases heq
  · rename_i heq
    rw [hread] at heq
    cases heq
    rw [if_pos rfl]
    split
    · rename_i heq
      rw [hdir] at heq
      cases heq
    · rename_i heq
      rw [hdir] at heq
      cases heq
    · rename_i heq
      rw [hdir] at heq
      cases heq
      rfl

/-- The loop on a key. -/
lemma readLoop_key (hn : e.inputLen < n) (k : Key) :
    readLoop dealTab n e buf (k.replies ++ replies) (k.bytes ++ input) =
      readLoop dealTab n (e.press dealTab k) buf replies input := by
  cases k with
  | char c hc => exact readLoop_char hn (Or.inl hc)
  | backspace c hc => exact readLoop_char hn (Or.inr hc)
  | delete =>
    have hdir : readDir ([91#8, 51#8, 126#8] ++ input) = some (.inl .del, input) := rfl
    exact readLoop_direction hn hdir
  | left => exact readLoop_direction hn rfl
  | right => exact readLoop_direction hn rfl
  | up reply => exact readLoop_direction hn rfl
  | down reply => exact readLoop_direction hn rfl

/-- **The loop on any number of keys.** -/
lemma readLoop_keys (dealTab : Editor → Editor) (buf : Chars) (replies : List Recall)
    (input : List (BitVec 8)) (h : e.Refines left l) (keys : List Key)
    (hfit : ∀ pre, pre <+: keys → (pre.foldl TextLine.type l).text.length < 1023) :
    ∃ e', e'.Refines left (keys.foldl TextLine.type l) ∧
      readLoop dealTab 1024 e buf (keys.flatMap Key.replies ++ replies)
          (keys.flatMap Key.bytes ++ input) =
        readLoop dealTab 1024 e' buf replies input := by
  induction keys generalizing e l with
  | nil => exact ⟨e, h, rfl⟩
  | cons k keys ih =>
    have hlen : l.text.length < 1023 := hfit [] (List.nil_prefix)
    have hlen' : (l.type k).text.length < 1023 := hfit [k] ⟨keys, rfl⟩
    obtain ⟨e', he', hrun⟩ := ih (h.press dealTab k hlen hlen') fun pre hpre =>
      hfit (k :: pre) (List.cons_prefix_cons.mpr ⟨rfl, hpre⟩)
    refine ⟨e', he', ?_⟩
    rw [List.flatMap_cons, List.flatMap_cons, List.append_assoc, List.append_assoc,
      readLoop_key (h.inputLen.trans_lt (by omega)), hrun]

end Loop

/-- The editor at the start of a line, right after Enter, where the terminal shows a blank row. -/
structure Editor.AfterEnter (left : ℤ → BitVec 8) (e : Editor) : Prop where
  ready : e.Ready
  cursor : e.cursor = 0
  screen : e.Screen left [] 0

/-- `initBS` fills the arrays. -/
lemma Editor.initBS_ready {e : Editor} (hb : e.back 0 = 0) (hs : e.space 0 = 0) :
    e.initBS.Ready := by
  have hinit : ¬ (e.back 0 = 8#8 ∨ e.space 0 = 32#8) := by
    rw [hb, hs]
    decide
  rw [Editor.initBS, if_neg hinit]
  exact ⟨fun i hi => if_pos hi, fun i hi => if_pos hi⟩

/-- The variables that `readline` sets at the start are those of the empty line. -/
lemma Editor.AfterEnter.refines {e : Editor} {left : ℤ → BitVec 8} (h : e.AfterEnter left) :
    { e with beforeLen := 0, afterLen := 0, inputLen := 0 }.Refines left TextLine.empty :=
  ⟨⟨h.ready.back, h.ready.space⟩, fun _ hc => absurd hc List.not_mem_nil, rfl, rfl, rfl, rfl,
    h.cursor, h.screen⟩

/-- **The line editor refines a line with a cursor.** On a line that starts right after Enter, after
any sequence of keys that keeps the text below 1023 characters, `readline` waits for the next key,
`loadBuf` gives the text of the reference editor, `beforeLen` is its cursor, `inputLen` is
`beforeLen + afterLen`, and the terminal shows the text, with blanks after it and its cursor at
`beforeLen`. -/
theorem readline_refines (dealTab : Editor → Editor) (e : Editor) (buf : Chars)
    (left : ℤ → BitVec 8) (keys : List Key) (he : e.AfterEnter left)
    (hfit : ∀ pre, pre <+: keys → (TextLine.typed pre).text.length < 1023) :
    ∃ e', readline dealTab e buf 1024 (keys.flatMap Key.replies) (keys.flatMap Key.bytes) =
        .waiting e' ∧
      (∀ b, cstr (e'.loadBuf b) 1024 = (TextLine.typed keys).text) ∧
      e'.beforeLen = (TextLine.typed keys).cursor ∧
      e'.inputLen = e'.beforeLen + e'.afterLen ∧
      (Row.line left [] 0).feed e'.printed =
        Row.line left (TextLine.typed keys).text e'.beforeLen := by
  obtain ⟨e', h, hrun⟩ := readLoop_keys dealTab buf [] [] he.refines keys hfit
  have hle := (TextLine.typed keys).le
  have hlen : (TextLine.typed keys).text.length < 1023 := hfit keys List.prefix_rfl
  have hin : e'.inputLen = (TextLine.typed keys).text.length := h.inputLen
  have hblen : e'.beforeLen = (TextLine.typed keys).cursor := h.beforeLen
  have halen : e'.afterLen = (TextLine.typed keys).text.length - (TextLine.typed keys).cursor :=
    h.afterLen
  refine ⟨e', ?_, fun b => ?_, hblen, by omega, ?_⟩
  · rw [List.append_nil, List.append_nil] at hrun
    rw [readline, hrun, readLoop, if_pos (by omega)]
    rfl
  · rw [e'.cstr_loadBuf b h.before_visible h.after_visible (by omega), h.before, h.after]
    exact List.take_append_drop _ _
  · rw [hblen]
    exact h.screen

/-- The editor after `initBS`, at the first line. -/
def Editor.first : Editor :=
  (⟨0, 0, 0, 0, fun _ => 0, fun _ => 0, fun _ => 0, fun _ => 0, []⟩ : Editor).initBS

/-- `ls`, a step back and `c` make the line `lcs`, with the cursor after `c`. -/
theorem readline_refines_lcs : ∃ e',
    readline id Editor.first (fun _ => 0) 1024 [] [108#8, 115#8, 27#8, 91#8, 68#8, 99#8] =
        .waiting e' ∧
      (∀ b, cstr (e'.loadBuf b) 1024 = [108#8, 99#8, 115#8]) ∧ e'.beforeLen = 2 ∧
      e'.inputLen = e'.beforeLen + e'.afterLen ∧
      (Row.line (fun _ => 36#8) [] 0).feed e'.printed =
        Row.line (fun _ => 36#8) [108#8, 99#8, 115#8] e'.beforeLen := by
  refine readline_refines id Editor.first (fun _ => 0) (fun _ => 36#8)
    [.char 108#8 (by decide), .char 115#8 (by decide), .left, .char 99#8 (by decide)]
    ⟨Editor.initBS_ready rfl rfl, rfl, rfl⟩ fun pre hpre => ?_
  have htake := List.prefix_iff_eq_take.mp hpre
  have hlen : pre.length ≤ 4 := hpre.length_le
  generalize pre.length = m at htake hlen
  rw [htake]
  interval_cases m <;> decide

end MosVolca
