import MosVolca.Library.CString

/-!
# The line editor of the shell

`readline` of `user/sh.c` and the functions it is made of. The characters before the cursor are in
`beforeCur`, those after it are in `afterCur`, the last one first; `inputLen` and `cursor` say what
the terminal shows. The keys are the bytes that the console gives; `readline` waits when there are
no more. What `history_next` does is a list of replies, and the completion of file names is a
parameter.

## Main definitions

* `MosVolca.Editor` — the variables of the editor, and the bytes it has printed.
* `MosVolca.Editor.loadBuf`, `MosVolca.Editor.updateCons`, `MosVolca.Editor.backOrDelete`,
  `MosVolca.readDir`, `MosVolca.Editor.moveCursor` — the functions.
* `MosVolca.readline` — the editing of a line.
-/

namespace MosVolca

open CString

/-- An array of `char`. -/
abbrev Chars := ℕ → BitVec 8

/-- The bytes of a string literal. -/
def literal (s : String) : List (BitVec 8) := s.toList.map fun c => BitVec.ofNat 8 c.toNat

/-- The variables of the editor, and what has been printed. The arrays have 1024 places. -/
structure Editor where
  inputLen : ℕ
  cursor : ℕ
  beforeLen : ℕ
  afterLen : ℕ
  beforeCur : Chars
  afterCur : Chars
  back : Chars
  space : Chars
  printed : List (BitVec 8)

/-- What `history_next` does: it writes the buffer and returns the length of the string, or it
fails. -/
abbrev Recall := Option (Chars × ℕ)

/-- `UP`, `DOWN`, `RIGHT`, `LEFT` and `DEL`. -/
inductive Direction
  | up
  | down
  | right
  | left
  | del
  deriving DecidableEq

/-! ## The buffer and the terminal -/

namespace Editor

/-- `printf`, of bytes that are known. -/
def print (e : Editor) (l : List (BitVec 8)) : Editor := { e with printed := e.printed ++ l }

/-- `loadBuf`. -/
def loadBuf (e : Editor) (buf : Chars) : Chars :=
  let (buf, bufp) := (List.range e.beforeLen).foldl
    (fun (b, p) i => (Function.update b p (e.beforeCur i), p + 1)) (buf, 0)
  let (buf, bufp) := (List.range e.afterLen).reverse.foldl
    (fun (b, p) i => (Function.update b p (e.afterCur i), p + 1)) (buf, bufp)
  Function.update buf bufp 0

/-- `initBS`. -/
def initBS (e : Editor) : Editor :=
  if e.back 0 = 8#8 ∨ e.space 0 = 32#8 then e
  else { e with
    back := fun i => if i < 1024 then 8#8 else e.back i
    space := fun i => if i < 1024 then 32#8 else e.space i }

/-- `printBack`. -/
def printBack (e : Editor) (num : ℤ) : Editor :=
  if num ≤ 0 then e
  else
    let e := { e with back := Function.update e.back num.toNat 0 }
    let e := e.print (cstr e.back 1024)
    { e with back := Function.update e.back num.toNat 8#8 }

/-- `printSpace`. -/
def printSpace (e : Editor) (num : ℤ) : Editor :=
  if num ≤ 0 then e
  else
    let e := { e with space := Function.update e.space num.toNat 0 }
    let e := e.print (cstr e.space 1024)
    { e with space := Function.update e.space num.toNat 32#8 }

/-- The loop that prints `afterCur`, from `afterLen - 1` to 0. -/
def printAfter (e : Editor) : Editor := e.print ((List.range e.afterLen).reverse.map e.afterCur)

/-- `updateCons`. -/
def updateCons (e : Editor) (flushAll : Bool) : Editor :=
  if flushAll then
    let e := e.printBack e.cursor
    let distance : ℤ := e.inputLen - e.beforeLen - e.afterLen
    let e := { e with beforeCur := Function.update e.beforeCur e.beforeLen 0 }
    let e := e.print (cstr e.beforeCur 1024)
    let e := e.printAfter
    let distance := if distance < 0 then 0 else distance
    let e := e.printSpace distance
    let e := e.printBack (distance + e.afterLen)
    { e with inputLen := e.beforeLen + e.afterLen, cursor := e.beforeLen }
  else
    let distance : ℤ := e.inputLen - e.beforeLen - e.afterLen
    if distance = 0 then
      { e with
        beforeCur := Function.update e.beforeCur e.beforeLen 0
        afterCur := Function.update e.afterCur e.afterLen 0
        cursor := e.beforeLen }
    else
      let e :=
        if e.cursor > e.beforeLen then e.printBack (e.cursor - e.beforeLen)
        else
          let e := { e with beforeCur := Function.update e.beforeCur e.beforeLen 0 }
          e.print (cstr (fun i => e.beforeCur (e.cursor + i)) (1024 - e.cursor))
      let e := { e with cursor := e.beforeLen }
      let e := e.printAfter
      let distance := if distance < 0 then 0 else distance
      let e := e.printSpace distance
      let e := e.printBack (distance + e.afterLen)
      { e with inputLen := e.beforeLen + e.afterLen }

/-- `backOrDelete`, with `DEL` or with a character. -/
def backOrDelete (e : Editor) (del : Bool) : Editor :=
  if e.inputLen = 0 then e
  else if del then
    if e.afterLen = 0 then e
    else { e with afterLen := e.afterLen - 1 }.updateCons false
  else
    if e.beforeLen = 0 then e
    else { e with beforeLen := e.beforeLen - 1 }.updateCons false

/-- The buffer and the counters after `history_next`. -/
def fromHistory (e : Editor) : Recall → Editor
  | some (buf, len) => { e with beforeCur := buf, beforeLen := len, afterLen := 0 }
  | none => e

/-- `moveCursor`, with what `history_next` does if it is called. -/
def moveCursor (e : Editor) (reply : Recall) : Direction → Editor
  | .up | .down => (e.fromHistory reply).updateCons true
  | .right =>
    if e.beforeLen = e.inputLen then e
    else
      let e := e.print [27#8, 91#8, 67#8]
      let e := { e with
        beforeCur := Function.update e.beforeCur e.beforeLen (e.afterCur (e.afterLen - 1))
        beforeLen := e.beforeLen + 1
        afterLen := e.afterLen - 1 }
      e.updateCons false
  | .left =>
    if e.beforeLen = 0 then e
    else
      let e := e.print [27#8, 91#8, 68#8]
      let e := { e with
        afterCur := Function.update e.afterCur e.afterLen (e.beforeCur (e.beforeLen - 1))
        afterLen := e.afterLen + 1
        beforeLen := e.beforeLen - 1 }
      e.updateCons false
  | .del => e.updateCons false

end Editor

/-! ## The keys -/

/-- `read(0, &inc, 1)` from the console, whose echo `main` has turned off: the byte, or no byte at
an end of file (`ctl-d`). `none` if there is nothing to read yet; `syscall_cgetc` gives 0 then. -/
def consRead : List (BitVec 8) → Option (Option (BitVec 8) × List (BitVec 8))
  | [] => none
  | c :: input =>
    if c = 0 then consRead input
    else some (if c = 4#8 then none else some c, input)

/-- The message of an error of `read`. -/
def readError (r : List (BitVec 8)) : List (BitVec 8) :=
  literal "\n\x1b[31;1mERROR\x1b[0m:read error code: " ++ r ++ literal "\n"

/-- What `read` has returned, for the message. -/
def readResult (o : Option (BitVec 8)) : List (BitVec 8) :=
  if o.isSome then literal "1" else literal "0"

/-- `readDir`: the direction, or the message of the error. -/
def readDir (input : List (BitVec 8)) :
    Option ((Direction ⊕ List (BitVec 8)) × List (BitVec 8)) := do
  let (o, input) ← consRead input
  let inc := o.getD 0
  if inc = 91#8 then
    let (o, input) ← consRead input
    let inc := o.getD inc
    if inc = 65#8 then pure (.inl .up, input)
    else if inc = 66#8 then pure (.inl .down, input)
    else if inc = 67#8 then pure (.inl .right, input)
    else if inc = 68#8 then pure (.inl .left, input)
    else if inc = 51#8 then
      let (o, input) ← consRead input
      let inc := o.getD inc
      if inc = 126#8 then pure (.inl .del, input)
      else pure (.inr (readError (readResult o)), input)
    else pure (.inr (readError (readResult o)), input)
  else pure (.inr (readError (readResult o)), input)

lemma consRead_length {input rest : List (BitVec 8)} {o : Option (BitVec 8)}
    (h : consRead input = some (o, rest)) : rest.length < input.length := by
  induction input with
  | nil => cases h
  | cons c input ih =>
    rw [consRead] at h
    split_ifs at h with h0
    · exact (ih h).trans (Nat.lt_succ_self _)
    all_goals
      simp only [Option.some.injEq, Prod.mk.injEq] at h
      rw [← h.2, List.length_cons]
      exact Nat.lt_succ_self _

/-- An escape sequence takes at least one byte of the input. -/
lemma readDir_length {input rest : List (BitVec 8)} {d : Direction ⊕ List (BitVec 8)}
    (h : readDir input = some (d, rest)) : rest.length < input.length := by
  unfold readDir at h
  simp only [Option.bind_eq_bind, Option.bind_eq_some_iff, Option.pure_def] at h
  obtain ⟨⟨o, input1⟩, h1, h⟩ := h
  have hlt1 : input1.length < input.length := consRead_length h1
  dsimp only at h
  split_ifs at h with hc
  · simp only [Option.bind_eq_some_iff] at h
    obtain ⟨⟨o2, input2⟩, h2, h⟩ := h
    have hlt2 : input2.length < input1.length := consRead_length h2
    dsimp only at h
    have hrest : ∀ {x}, some (x, input2) = some (d, rest) → rest.length < input.length := by
      intro x h
      obtain ⟨-, rfl⟩ := Prod.ext_iff.mp (Option.some.inj h)
      exact hlt2.trans hlt1
    split_ifs at h with hA hB hC hD h51
    · exact hrest h
    · exact hrest h
    · exact hrest h
    · exact hrest h
    · obtain ⟨⟨o3, input3⟩, h3, h⟩ := Option.bind_eq_some_iff.mp h
      have hlt3 : input3.length < input2.length := consRead_length h3
      dsimp only at h
      split_ifs at h <;>
      · obtain ⟨-, rfl⟩ := Prod.ext_iff.mp (Option.some.inj h)
        exact hlt3.trans (hlt2.trans hlt1)
    · exact hrest h
  · obtain ⟨-, rfl⟩ := Prod.ext_iff.mp (Option.some.inj h)
    exact hlt1

/-! ## `readline` -/

/-- `isVisable`. -/
def isVisable (c : BitVec 8) : Prop := 32#8 ≤ c ∧ c ≤ 126#8

instance (c : BitVec 8) : Decidable (isVisable c) := inferInstanceAs (Decidable (_ ∧ _))

/-- How far `readline` gets with the bytes of the console: it waits for more, or it returns with the
line in `buf`. -/
inductive Reading
  | waiting (e : Editor)
  | returned (e : Editor) (buf : Chars) (input : List (BitVec 8))

/-- The loop that reads on until Enter. -/
def readUntilEnter (e : Editor) (buf : Chars) : List (BitVec 8) → Reading
  | [] => .waiting e
  | c :: input =>
    if c = 0 then readUntilEnter e buf input
    else if c = 4#8 ∨ c = 13#8 ∨ c = 10#8 then .returned e (Function.update buf 0 0) input
    else readUntilEnter e (Function.update buf 0 c) input

/-- The end of `readline`, after the loop has been left. -/
def readlineEnd (n : ℕ) (e : Editor) (buf : Chars) (input : List (BitVec 8)) : Reading :=
  let e :=
    if e.inputLen = n then e.print (literal "\n\x1b[31;1mERROR\x1b[0m:line too long\n") else e
  readUntilEnter (e.print (literal "\nPlase input Enter to continue\n")) buf input

/-- What `history_next` does, if the direction calls it, and the replies after that. -/
def nextReply (replies : List Recall) : Direction → Recall × List Recall
  | .up | .down => (replies.head?.join, replies.tail)
  | _ => (none, replies)

/-- The branches of `readline` for a byte that is neither `ESC` nor Enter. -/
def Editor.readChar (dealTab : Editor → Editor) (e : Editor) (inc : BitVec 8) : Editor :=
  if inc = 8#8 ∨ inc = 0x7f#8 then e.backOrDelete false
  else if inc = 9#8 then dealTab e
  else if isVisable inc then
    { e with
      beforeCur := Function.update e.beforeCur e.beforeLen inc
      beforeLen := e.beforeLen + 1 }
  else
    -- `0 <= inc <= 31` is true of every byte
    e.print [94#8, inc + 0x40#8]

/-- The branch of `readline` for a direction. -/
def Editor.readDirection (e : Editor) (reply : Recall) (dir : Direction) : Editor :=
  if dir = .del then e.backOrDelete true else e.moveCursor reply dir

/-- The loop of `readline`. -/
def readLoop (dealTab : Editor → Editor) (n : ℕ) (e : Editor) (buf : Chars) (replies : List Recall)
    (input : List (BitVec 8)) : Reading :=
  if e.inputLen < n then
    match _h : consRead input with
    | none => .waiting e
    | some (none, input) => readlineEnd n e buf input
    | some (some inc, input) =>
      if inc = 27#8 then
        match _h' : readDir input with
        | none => .waiting e
        | some (.inr message, input) => readlineEnd n (e.print message) buf input
        | some (.inl dir, input) =>
          let (reply, replies) := nextReply replies dir
          readLoop dealTab n ((e.readDirection reply dir).updateCons false) buf replies input
      else if inc = 13#8 ∨ inc = 10#8 then
        let e := { e with cursor := 0, inputLen := 0 }
        .returned (e.print [10#8]) (e.loadBuf buf) input
      else readLoop dealTab n ((e.readChar dealTab inc).updateCons false) buf replies input
  else readlineEnd n e buf input
termination_by input.length
decreasing_by
  · exact (readDir_length _h').trans (consRead_length _h)
  · exact consRead_length _h

/-- `readline`. -/
def readline (dealTab : Editor → Editor) (e : Editor) (buf : Chars) (n : ℕ) (replies : List Recall)
    (input : List (BitVec 8)) : Reading :=
  readLoop dealTab n { e with beforeLen := 0, afterLen := 0, inputLen := 0 } buf replies input

end MosVolca
