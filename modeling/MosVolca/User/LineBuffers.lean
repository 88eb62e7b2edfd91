import Mathlib.Data.Nat.PSub
import MosVolca.User.HistorySessions
import MosVolca.User.TabCompletion

/-!
# The buffers of the line editor

The functions of the line editor with the bounds of their arrays: each fails where it would use a
place that is not there. As long as the lengths of the line are below 1024, the keys stay in the
arrays; a completion does if it fits behind the text in front of it.

## Main definitions

* `MosVolca.Editor.Bounded.updateCons` and others — the functions with bounds.
* `MosVolca.Editor.Bounded.Short` — the lengths of the line stay below the size of the buffers.

## Main results

* `MosVolca.Editor.Bounded.updateCons_eq` — `updateCons` stays in the arrays.
* `MosVolca.Editor.Bounded.Short.complete_stays` — when a completion stays in the arrays.
-/

namespace MosVolca

open BoundedArray CString

/-- What `readline` finds outside of the editor in a round: the directories, `.history` with the
variables of `lib/history.c`, if it can be opened, what is on the stack, and `buf`. -/
structure Ambient where
  listing : Listing
  history : Option History
  stale : ℕ → Word
  nowBuf : Chars
  buf : Chars

/-- `history_next`. -/
def Ambient.recall (a : Ambient) (line : List (BitVec 8)) (beforeCur : Chars) (up : Bool) :
    Option Recall :=
  match a.history with
  | none => some none
  | some h => (h.next line beforeCur a.stale up).map Prod.fst

/-! ## The functions with bounds -/

namespace Editor.Bounded

/-- `loadBuf`. -/
def loadBuf (e : Editor) (buf : Chars) : Option Chars := do
  let x ← (List.range e.beforeLen).foldlM (copyStep 1024 1024 e.beforeCur) (buf, 0)
  let x ← (List.range e.afterLen).reverse.foldlM (copyStep 1024 1024 e.afterCur) x
  put 1024 x.1 x.2 0

/-- `printBack`. -/
def printBack (e : Editor) (num : ℤ) : Option Editor :=
  if num ≤ 0 then some e
  else do
    let back ← put 1024 e.back num.toNat 0
    let s ← str 1024 back
    let back ← put 1024 back num.toNat 8#8
    pure ({ e with back := back }.print s)

/-- `printSpace`. -/
def printSpace (e : Editor) (num : ℤ) : Option Editor :=
  if num ≤ 0 then some e
  else do
    let space ← put 1024 e.space num.toNat 0
    let s ← str 1024 space
    let space ← put 1024 space num.toNat 32#8
    pure ({ e with space := space }.print s)

/-- The loop that prints `afterCur`. -/
def printAfter (e : Editor) : Option Editor := do
  let s ← (List.range e.afterLen).reverse.mapM (get 1024 e.afterCur)
  pure (e.print s)

/-- The part of `updateCons` in front of the loop: the cursor goes back, or the new characters are
printed. -/
def drawFront (e : Editor) : Option Editor :=
  if e.cursor > e.beforeLen then printBack e (e.cursor - e.beforeLen)
  else do
    let beforeCur ← put 1024 e.beforeCur e.beforeLen 0
    let s ← str (1024 - e.cursor) fun i => beforeCur (e.cursor + i)
    pure ({ e with beforeCur := beforeCur }.print s)

/-- The part of `updateCons` from the loop on. -/
def drawRest (e : Editor) (distance : ℤ) : Option Editor := do
  let e ← printAfter e
  let distance := if distance < 0 then 0 else distance
  let e ← printSpace e distance
  printBack e (distance + e.afterLen)

/-- `updateCons`. -/
def updateCons (e : Editor) (flushAll : Bool) : Option Editor :=
  if flushAll then do
    let e ← printBack e e.cursor
    let distance : ℤ := e.inputLen - e.beforeLen - e.afterLen
    let beforeCur ← put 1024 e.beforeCur e.beforeLen 0
    let s ← str 1024 beforeCur
    let e ← drawRest ({ e with beforeCur := beforeCur }.print s) distance
    pure { e with inputLen := e.beforeLen + e.afterLen, cursor := e.beforeLen }
  else
    let distance : ℤ := e.inputLen - e.beforeLen - e.afterLen
    if distance = 0 then do
      let beforeCur ← put 1024 e.beforeCur e.beforeLen 0
      let afterCur ← put 1024 e.afterCur e.afterLen 0
      pure { e with beforeCur := beforeCur, afterCur := afterCur, cursor := e.beforeLen }
    else do
      let e ← drawFront e
      let e ← drawRest { e with cursor := e.beforeLen } distance
      pure { e with inputLen := e.beforeLen + e.afterLen }

/-- `backOrDelete`. -/
def backOrDelete (e : Editor) (del : Bool) : Option Editor :=
  if e.inputLen = 0 then some e
  else if del then
    if e.afterLen = 0 then some e
    else updateCons { e with afterLen := e.afterLen - 1 } false
  else
    if e.beforeLen = 0 then some e
    else updateCons { e with beforeLen := e.beforeLen - 1 } false

/-- The loop of `tabComplete` that takes away the word behind the cursor, over the places below
`i`. -/
def dropWord : ℕ → Editor → Option Editor
  | 0, e => some e
  | i + 1, e => do
    let c ← get 1024 e.afterCur i
    if c ≠ 32#8 ∧ c ≠ 0 then
      let afterCur ← put 1024 e.afterCur i 0
      dropWord i { e with afterCur := afterCur, afterLen := e.afterLen - 1 }
    else pure e

/-- `strcat(beforeCur, completion)` and what comes before and after it in `tabComplete`. -/
def complete (e : Editor) (beforeTab : ℕ) (completion : List (BitVec 8)) :
    Option Editor := do
  let e ← dropWord e.afterLen e
  let beforeCur ← put 1024 e.beforeCur beforeTab 0
  let e ← updateCons { e with beforeCur := beforeCur, beforeLen := beforeTab } false
  let beforeCur ← strcat 1024 e.beforeCur completion
  let s ← str 1024 beforeCur
  updateCons { e with beforeCur := beforeCur, beforeLen := s.length } false

/-- `moveCursor`. -/
def moveCursor (a : Ambient) (e : Editor) : Direction → Option Editor
  | .up => do
    let nowBuf ← loadBuf e a.nowBuf
    let line ← str 1024 nowBuf
    let r ← a.recall line e.beforeCur true
    updateCons (e.fromHistory r) true
  | .down => do
    let r ← a.recall [] e.beforeCur false
    updateCons (e.fromHistory r) true
  | .right =>
    if e.beforeLen = e.inputLen then some e
    else do
      let afterLen ← e.afterLen.ppred
      let c ← get 1024 e.afterCur afterLen
      let beforeCur ← put 1024 e.beforeCur e.beforeLen c
      updateCons { e.print [27#8, 91#8, 67#8] with
        beforeCur := beforeCur, beforeLen := e.beforeLen + 1, afterLen := afterLen } false
  | .left =>
    if e.beforeLen = 0 then some e
    else do
      let beforeLen ← e.beforeLen.ppred
      let c ← get 1024 e.beforeCur beforeLen
      let afterCur ← put 1024 e.afterCur e.afterLen c
      updateCons { e.print [27#8, 91#8, 68#8] with
        afterCur := afterCur, afterLen := e.afterLen + 1, beforeLen := beforeLen } false
  | .del => updateCons e false

end Editor.Bounded

namespace Editor.Bounded

/-! ## Staying in the arrays -/

variable {e e' : Editor} {buf : Chars} {num : ℤ}

/-- **`loadBuf`** of a line that is shorter than the buffer. -/
lemma loadBuf_eq (h : e.beforeLen + e.afterLen < 1024) (buf : Chars) :
    loadBuf e buf = some (e.loadBuf buf) := by
  obtain ⟨b1, h1, -⟩ := foldl_put e.beforeCur (List.range e.beforeLen) buf 0
  rw [List.length_range, Nat.zero_add] at h1
  obtain ⟨b2, h2, -⟩ := foldl_put e.afterCur (List.range e.afterLen).reverse b1 e.beforeLen
  rw [List.length_reverse, List.length_range] at h2
  have hbefore : ∀ i ∈ List.range e.beforeLen, i < 1024 := fun i hi => by
    have := List.mem_range.mp hi
    omega
  have hafter : ∀ i ∈ (List.range e.afterLen).reverse, i < 1024 := fun i hi => by
    have := List.mem_range.mp (List.mem_reverse.mp hi)
    omega
  have hload : e.loadBuf buf = Function.update b2 (e.beforeLen + e.afterLen) 0 := by
    unfold Editor.loadBuf
    simp only [h1, h2]
  unfold loadBuf
  rw [foldlM_copyStep hbefore (by rw [List.length_range]; omega), h1]
  simp only [Option.bind_eq_bind, Option.bind_some]
  rw [foldlM_copyStep hafter (by rw [List.length_reverse, List.length_range]; omega), h2, hload]
  exact put_of_lt h

lemma printBack_eq (h : num < 1024) : printBack e num = some (e.printBack num) := by
  unfold printBack Editor.printBack
  split_ifs with hle
  · rfl
  · have hlt : num.toNat < 1024 := by omega
    rw [put_of_lt hlt]
    simp only [Option.bind_eq_bind, Option.bind_some]
    rw [str_of_zero hlt (Function.update_self ..), put_of_lt hlt]
    rfl

lemma printSpace_eq (h : num < 1024) : printSpace e num = some (e.printSpace num) := by
  unfold printSpace Editor.printSpace
  split_ifs with hle
  · rfl
  · have hlt : num.toNat < 1024 := by omega
    rw [put_of_lt hlt]
    simp only [Option.bind_eq_bind, Option.bind_some]
    rw [str_of_zero hlt (Function.update_self ..), put_of_lt hlt]
    rfl

lemma printAfter_eq (h : e.afterLen ≤ 1024) : printAfter e = some e.printAfter := by
  unfold printAfter
  rw [mapM_get fun i hi => by
    have := List.mem_range.mp (List.mem_reverse.mp hi)
    omega]
  rfl

/-- **`drawRest`** stays in the arrays. -/
lemma drawRest_eq {d : ℤ} (hd : d + e.afterLen < 1024) (ha : e.afterLen < 1024) :
    drawRest e d = some ((e.printAfter.printSpace (if d < 0 then 0 else d)).printBack
      ((if d < 0 then 0 else d) +
        (e.printAfter.printSpace (if d < 0 then 0 else d)).afterLen)) := by
  unfold drawRest
  generalize hd' : (if d < 0 then 0 else d) = d'
  have hsum : d' + e.afterLen < 1024 ∧ 0 ≤ d' := by
    rw [← hd']
    split_ifs
    · omega
    · omega
  have hlen : (e.printAfter.printSpace d').afterLen = e.afterLen :=
    (sameLine_printSpace _ d').afterLen
  rw [printAfter_eq (by omega)]
  simp only [Option.bind_eq_bind, Option.bind_some]
  rw [printSpace_eq (by omega)]
  simp only [Option.bind_some]
  exact printBack_eq (by rw [hlen]; exact hsum.1)

/-- **`drawFront`** stays in the arrays. -/
lemma drawFront_eq (hc : e.cursor < 1024) (hb : e.beforeLen < 1024) :
    drawFront e = some (if e.cursor > e.beforeLen then e.printBack (e.cursor - e.beforeLen)
      else ({ e with beforeCur := Function.update e.beforeCur e.beforeLen 0 } : Editor).print
        (cstr (fun i => Function.update e.beforeCur e.beforeLen 0 (e.cursor + i))
          (1024 - e.cursor))) := by
  unfold drawFront
  split_ifs with hlt
  · exact printBack_eq (by omega)
  · rw [put_of_lt hb]
    simp only [Option.bind_eq_bind, Option.bind_some]
    rw [str_of_zero (i := e.beforeLen - e.cursor) (by omega)]
    · rfl
    · rw [Nat.add_sub_cancel' (by omega), Function.update_self]

/-- The line and what the terminal shows are short enough for `updateCons`. -/
structure Drawable (e : Editor) : Prop where
  cursor : e.cursor < 1024
  beforeLen : e.beforeLen < 1024
  afterLen : e.afterLen < 1024
  inputLen : e.inputLen < e.beforeLen + 1024

/-- **`updateCons`** stays in the arrays. -/
lemma updateCons_eq (h : Drawable e) (flushAll : Bool) :
    updateCons e flushAll = some (e.updateCons flushAll) := by
  obtain ⟨hcur, hb, ha, hin⟩ := h
  cases flushAll with
  | true =>
    have hsame := sameLine_printBack e e.cursor
    unfold updateCons Editor.updateCons
    rw [if_pos rfl, if_pos rfl, printBack_eq (by omega)]
    generalize e.printBack e.cursor = e1 at hsame
    simp only [Option.bind_eq_bind, Option.bind_some]
    rw [put_of_lt (by rw [hsame.beforeLen]; exact hb)]
    simp only [Option.bind_some]
    rw [str_of_zero (by rw [hsame.beforeLen]; exact hb) (Function.update_self ..)]
    simp only [Option.bind_some]
    rw [drawRest_eq]
    · rfl
    · change (e1.inputLen - e1.beforeLen - e1.afterLen : ℤ) + e1.afterLen < 1024
      rw [hsame.inputLen, hsame.beforeLen, hsame.afterLen]
      omega
    · exact hsame.afterLen.trans_lt ha
  | false =>
    unfold updateCons Editor.updateCons
    rw [if_neg Bool.false_ne_true, if_neg Bool.false_ne_true]
    by_cases h0 : (e.inputLen - e.beforeLen - e.afterLen : ℤ) = 0
    · rw [if_pos h0, if_pos h0, put_of_lt hb, put_of_lt ha]
      rfl
    rw [if_neg h0, if_neg h0, drawFront_eq hcur hb]
    simp only [Option.bind_eq_bind, Option.bind_some]
    obtain ⟨e1, he1, hlen⟩ : ∃ e1, e1 = (if e.cursor > e.beforeLen then
          e.printBack (e.cursor - e.beforeLen)
        else ({ e with beforeCur := Function.update e.beforeCur e.beforeLen 0 } : Editor).print
          (cstr (fun i => Function.update e.beforeCur e.beforeLen 0 (e.cursor + i))
            (1024 - e.cursor))) ∧ e1.afterLen = e.afterLen := by
      refine ⟨_, rfl, ?_⟩
      split_ifs
      · exact (sameLine_printBack e _).afterLen
      · rfl
    rw [← he1, drawRest_eq]
    · rw [he1]
      rfl
    · change (e.inputLen - e.beforeLen - e.afterLen : ℤ) + e1.afterLen < 1024
      rw [hlen]
      omega
    · exact hlen.trans_lt ha

/-- The lengths of the line stay below the size of the buffers. -/
structure Short (e : Editor) : Prop where
  count : e.inputLen = e.beforeLen + e.afterLen
  cursor : e.cursor < 1024
  beforeLen : e.beforeLen < 1024
  afterLen : e.afterLen < 1024

lemma Short.drawable (h : Short e) : Drawable e :=
  ⟨h.cursor, h.beforeLen, h.afterLen, by
    have := h.count
    have := h.afterLen
    omega⟩

/-- What `updateCons` does to the line if something has to be drawn: there may come a null byte
behind the characters before the cursor. -/
lemma exists_drawn (hd : (e.inputLen - e.beforeLen - e.afterLen : ℤ) ≠ 0) :
    ∃ e' beforeCur, e.updateCons false = { e' with inputLen := e'.beforeLen + e'.afterLen } ∧
      (beforeCur = e.beforeCur ∨ beforeCur = Function.update e.beforeCur e.beforeLen 0) ∧
      SameLine { e with beforeCur := beforeCur, cursor := e.beforeLen } e' := by
  unfold Editor.updateCons
  rw [if_neg Bool.false_ne_true, if_neg hd]
  extract_lets e1 e2 e3 e4 d e5 e6
  have h6 : SameLine e3 e6 := sameLine_rest e3 d _
  refine ⟨e6, e2.beforeCur, rfl, ?_, SameLine.trans ?_ h6⟩
  · unfold e2
    split_ifs
    · exact Or.inl (sameLine_printBack e _).beforeCur
    · exact Or.inr rfl
  · unfold e3 e2
    split_ifs
    · have hsame := sameLine_printBack e (e.cursor - e.beforeLen)
      exact ⟨hsame.inputLen, hsame.beforeLen, hsame.beforeLen, hsame.afterLen, rfl, hsame.afterCur⟩
    · exact ⟨rfl, rfl, rfl, rfl, rfl, rfl⟩

/-- `updateCons` leaves the cursor of the terminal behind the characters before the cursor. -/
lemma cursor_updateCons (e : Editor) (b : Bool) : (e.updateCons b).cursor = e.beforeLen := by
  cases b with
  | true => exact (updateCons_text e true).1.beforeLen
  | false =>
    by_cases hd : (e.inputLen - e.beforeLen - e.afterLen : ℤ) = 0
    · unfold Editor.updateCons
      rw [if_neg Bool.false_ne_true, if_pos hd]
    · obtain ⟨e', _, he', -, hsame⟩ := exists_drawn hd
      rw [he']
      exact hsame.cursor

/-- A null byte that is there already is stored again. -/
lemma beforeCur_updateCons (h0 : e.beforeCur e.beforeLen = 0) :
    (e.updateCons false).beforeCur = e.beforeCur := by
  have hput : Function.update e.beforeCur e.beforeLen 0 = e.beforeCur := by
    rw [← h0, Function.update_eq_self]
  by_cases hd : (e.inputLen - e.beforeLen - e.afterLen : ℤ) = 0
  · unfold Editor.updateCons
    rw [if_neg Bool.false_ne_true, if_pos hd]
    exact hput
  · obtain ⟨e', _, he', rfl | rfl, hsame⟩ := exists_drawn hd
    · rw [he']
      exact hsame.beforeCur
    · rw [he']
      exact hsame.beforeCur.trans hput

/-- **`updateCons`** stays in the arrays and leaves a short line. -/
lemma Drawable.updateCons (h : Drawable e) (b : Bool) :
    ∃ e', Bounded.updateCons e b = some e' ∧ Short e' ∧ e'.beforeLen = e.beforeLen ∧
      e'.afterLen = e.afterLen := by
  obtain ⟨⟨hb, ha, -, -⟩, hin⟩ := updateCons_text e b
  refine ⟨_, updateCons_eq h b, ⟨hin, ?_, ?_, ?_⟩, hb, ha⟩
  · rw [cursor_updateCons]
    exact h.beforeLen
  · rw [hb]
    exact h.beforeLen
  · rw [ha]
    exact h.afterLen

/-- The null byte behind 1024 characters is not in the array. -/
lemma updateCons_full (hb : e.beforeLen = 1024) (hc : e.cursor < 1024)
    (hd : (e.inputLen - e.beforeLen - e.afterLen : ℤ) ≠ 0) : updateCons e false = none := by
  unfold updateCons
  rw [if_neg Bool.false_ne_true, if_neg hd]
  have hfront : drawFront e = none := by
    unfold drawFront
    rw [if_neg (by omega), put_eq_none hb.ge]
    rfl
  rw [hfront]
  rfl

/-! ## The keys -/

section Keys

variable {a : Ambient}

variable (h : Short e) (hlen : e.inputLen < 1024)

include h hlen

/-- Deleting stays in the arrays. -/
lemma Short.backOrDelete (del : Bool) : ∃ e', backOrDelete e del = some e' ∧ Short e' := by
  unfold Bounded.backOrDelete
  have hcount := h.count
  have hb := h.beforeLen
  have ha := h.afterLen
  split_ifs with h0 hdel h1 h1
  · exact ⟨e, rfl, h⟩
  · exact ⟨e, rfl, h⟩
  · obtain ⟨e', he', hs, -⟩ := Drawable.updateCons (e := { e with afterLen := e.afterLen - 1 })
      ⟨h.cursor, hb, (Nat.sub_le _ _).trans_lt ha, Nat.lt_add_left _ hlen⟩ false
    exact ⟨e', he', hs⟩
  · exact ⟨e, rfl, h⟩
  · obtain ⟨e', he', hs, -⟩ := Drawable.updateCons (e := { e with beforeLen := e.beforeLen - 1 })
      ⟨h.cursor, (Nat.sub_le _ _).trans_lt hb, ha, Nat.lt_add_left _ hlen⟩ false
    exact ⟨e', he', hs⟩

/-- **Right** stays in the arrays. -/
lemma Short.right : ∃ e', moveCursor a e .right = some e' ∧ Short e' := by
  rw [moveCursor]
  have hcount := h.count
  split_ifs with h0
  · exact ⟨e, rfl, h⟩
  obtain ⟨k, hk⟩ : ∃ k, e.afterLen = k + 1 := ⟨e.afterLen - 1, by omega⟩
  have ha := h.afterLen
  rw [hk, Nat.ppred_succ]
  simp only [Option.bind_eq_bind, Option.bind_some]
  rw [get_of_lt (by omega)]
  simp only [Option.bind_some]
  rw [put_of_lt h.beforeLen]
  obtain ⟨e', he', hs, -⟩ := Drawable.updateCons (e := { e.print [27#8, 91#8, 67#8] with
    beforeCur := Function.update e.beforeCur e.beforeLen (e.afterCur k)
    beforeLen := e.beforeLen + 1, afterLen := k })
    ⟨h.cursor, by simp only; omega, by simp only; omega, Nat.lt_add_left _ hlen⟩ false
  exact ⟨e', he', hs⟩

/-- **Left** stays in the arrays. -/
lemma Short.left : ∃ e', moveCursor a e .left = some e' ∧ Short e' := by
  rw [moveCursor]
  have hcount := h.count
  split_ifs with h0
  · exact ⟨e, rfl, h⟩
  obtain ⟨k, hk⟩ : ∃ k, e.beforeLen = k + 1 := ⟨e.beforeLen - 1, by omega⟩
  have hb := h.beforeLen
  rw [hk, Nat.ppred_succ]
  simp only [Option.bind_eq_bind, Option.bind_some]
  rw [get_of_lt (by omega)]
  simp only [Option.bind_some]
  rw [put_of_lt h.afterLen]
  obtain ⟨e', he', hs, -⟩ := Drawable.updateCons (e := { e.print [27#8, 91#8, 68#8] with
    afterCur := Function.update e.afterCur e.afterLen (e.beforeCur k)
    afterLen := e.afterLen + 1, beforeLen := k })
    ⟨h.cursor, by simp only; omega, by simp only; omega, Nat.lt_add_left _ hlen⟩ false
  exact ⟨e', he', hs⟩

/-- A string of the history, or the line that is there. -/
lemma Short.recalled {r : Recall} (hr : ∀ b len, r = some (b, len) → len < 1024) :
    ∃ e', updateCons (e.fromHistory r) true = some e' ∧ Short e' := by
  rcases r with - | ⟨b, len⟩
  · obtain ⟨e', he', hs, -⟩ := h.drawable.updateCons true
    exact ⟨e', he', hs⟩
  · obtain ⟨e', he', hs, -⟩ := Drawable.updateCons (e := e.fromHistory (some (b, len)))
      ⟨h.cursor, hr b len rfl, (by decide : 0 < 1024), Nat.lt_add_left _ hlen⟩ true
    exact ⟨e', he', hs⟩

end Keys

/-- The loop of `tabComplete` makes the text behind the cursor shorter. -/
lemma dropWord_eq {n : ℕ} (hn : n ≤ 1024) (e : Editor) : ∃ afterCur k, k ≤ e.afterLen ∧
    dropWord n e = some { e with afterCur := afterCur, afterLen := k } := by
  induction n generalizing e with
  | zero => exact ⟨e.afterCur, e.afterLen, le_rfl, rfl⟩
  | succ n ih =>
    rw [dropWord, get_of_lt (show n < 1024 by omega)]
    simp only [Option.bind_eq_bind, Option.bind_some]
    split_ifs
    · rw [put_of_lt (show n < 1024 by omega)]
      simp only [Option.bind_some]
      obtain ⟨b, k, hk, hdrop⟩ := ih (by omega) { e with
        afterCur := Function.update e.afterCur n 0, afterLen := e.afterLen - 1 }
      exact ⟨b, k, hk.trans (Nat.sub_le _ _), hdrop⟩
    · exact ⟨e.afterCur, e.afterLen, le_rfl, rfl⟩

/-- **A completion** stays in the arrays exactly if it fits behind the text in front of it. -/
theorem Short.complete_stays (h : Short e) (hlen : e.inputLen < 1024) {t : ℕ}
    (hsum : t + e.afterLen < 1024) (c : List (BitVec 8)) :
    Stays (complete e t c)
      ((cstr (Function.update e.beforeCur t 0) 1024).length + c.length < 1024)
      fun e' => Short e' ∧ e'.afterLen ≤ e.afterLen := by
  have ht : t < 1024 := by omega
  have hzero : Function.update e.beforeCur t 0 t = 0 := Function.update_self ..
  obtain ⟨afterCur, k, hk, hdrop⟩ := dropWord_eq h.afterLen.le e
  -- the line up to `beforeTab` is drawn
  let e1 : Editor := { e with
    afterCur := afterCur, afterLen := k
    beforeCur := Function.update e.beforeCur t 0, beforeLen := t }
  have hdraw : Drawable e1 :=
    ⟨h.cursor, ht, hk.trans_lt h.afterLen, Nat.lt_add_left _ hlen⟩
  have hupd := updateCons_eq hdraw false
  obtain ⟨e2, he2, hshort, hb2, ha2⟩ := hdraw.updateCons false
  have hcur : e2.beforeCur = Function.update e.beforeCur t 0 := by
    cases hupd.symm.trans he2
    exact beforeCur_updateCons hzero
  have hcomplete : complete e t c = strcat 1024 (Function.update e.beforeCur t 0) c >>= fun b =>
      str 1024 b >>= fun s =>
        Bounded.updateCons { e2 with beforeCur := b, beforeLen := s.length } false := by
    unfold complete
    rw [hdrop]
    simp only [Option.bind_eq_bind, Option.bind_some]
    rw [put_of_lt ht]
    simp only [Option.bind_some]
    rw [show Bounded.updateCons _ false = some e2 from he2]
    simp only [Option.bind_some]
    rw [hcur]
  rw [hcomplete]
  refine (strcat_stays ht hzero c).bind_some fun b hb => ?_
  -- the line is drawn up to the null byte that `strcat` has stored
  obtain ⟨j, hj, h0⟩ := hb
  have hm : (cstr b 1024).length < 1024 := (length_cstr_le_of_zero hj h0).trans_lt hj
  rw [str_of_zero hj h0]
  generalize cstr b 1024 = line at hm
  have hin : e2.inputLen = t + k := hshort.count.trans (congrArg₂ _ hb2 ha2)
  obtain ⟨e3, he3, hshort3, -, ha3⟩ := Drawable.updateCons
    (e := { e2 with beforeCur := b, beforeLen := line.length })
    ⟨hshort.cursor, hm, hshort.afterLen, by simp only; omega⟩ false
  exact ⟨e3, he3, hshort3, (ha3.trans ha2).trans_le hk⟩

end Editor.Bounded

end MosVolca
