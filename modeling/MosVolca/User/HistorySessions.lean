import MosVolca.User.History
import MosVolca.User.LineEditor

/-!
# The history over the lines of a session

`nowOff` and `fakeMaxOff` live longer than a line. `history_write` sets them, but only if the line
is not empty, and a line can also end without it. So a line can start away from the last command;
and a Down that comes first on a line answers 0, or the line that an earlier Up has stored, and the
editor takes that for the new line.

## Main definitions

* `MosVolca.Session` — the history and the editor, with what has been recorded so far.
* `MosVolca.Session.press` — what a key does.
* `MosVolca.Session.CarefulRun` — no line that is not recorded ends away from the last command, and
  no text is replaced by a first Down.
* `MosVolca.Session.FreshRun` — the first Up shows the last command, and a first Down keeps the
  text.

## Main results

* `MosVolca.Session.freshRun_of_careful` — careful sessions are fresh.
* `MosVolca.Session.down_clears` — a session that is not.
-/

namespace MosVolca

open CString

/-! ## The text of the editor -/

namespace Editor

variable {e : Editor} {buf : Chars} {num : ℤ} {b : Bool}

/-- The text of the line. -/
def text (e : Editor) : List (BitVec 8) := e.before ++ e.after

/-- The editor without what it has printed, and without the blanks. -/
structure SameText (e e' : Editor) : Prop where
  beforeLen : e'.beforeLen = e.beforeLen
  afterLen : e'.afterLen = e.afterLen
  before : e'.before = e.before
  after : e'.after = e.after

lemma SameText.trans {e1 e2 : Editor} (h : SameText e e1) (h' : SameText e1 e2) : SameText e e2 :=
  ⟨h'.beforeLen.trans h.beforeLen, h'.afterLen.trans h.afterLen, h'.before.trans h.before,
    h'.after.trans h.after⟩

lemma SameText.text_eq {e' : Editor} (h : SameText e e') : e'.text = e.text := by
  rw [text, text, h.before, h.after]

/-- `e'` has the line of `e`. -/
structure SameLine (e e' : Editor) : Prop where
  inputLen : e'.inputLen = e.inputLen
  cursor : e'.cursor = e.cursor
  beforeLen : e'.beforeLen = e.beforeLen
  afterLen : e'.afterLen = e.afterLen
  beforeCur : e'.beforeCur = e.beforeCur
  afterCur : e'.afterCur = e.afterCur

lemma SameLine.refl (e : Editor) : SameLine e e := ⟨rfl, rfl, rfl, rfl, rfl, rfl⟩

lemma SameLine.trans {e1 e2 : Editor} (h : SameLine e e1) (h' : SameLine e1 e2) : SameLine e e2 :=
  ⟨h'.inputLen.trans h.inputLen, h'.cursor.trans h.cursor, h'.beforeLen.trans h.beforeLen,
    h'.afterLen.trans h.afterLen, h'.beforeCur.trans h.beforeCur, h'.afterCur.trans h.afterCur⟩

/-- The text is that of the line. -/
lemma SameLine.sameText {e' : Editor} (h : SameLine e e') : SameText e e' where
  beforeLen := h.beforeLen
  afterLen := h.afterLen
  before := by rw [before, before, h.beforeCur, h.beforeLen]
  after := by rw [after, after, h.afterCur, h.afterLen]

lemma sameLine_print (e : Editor) (l : List (BitVec 8)) : SameLine e (e.print l) :=
  ⟨rfl, rfl, rfl, rfl, rfl, rfl⟩

lemma sameLine_printBack (e : Editor) (num : ℤ) : SameLine e (e.printBack num) := by
  unfold printBack
  split_ifs
  · exact .refl e
  · exact ⟨rfl, rfl, rfl, rfl, rfl, rfl⟩

lemma sameLine_printSpace (e : Editor) (num : ℤ) : SameLine e (e.printSpace num) := by
  unfold printSpace
  split_ifs
  · exact .refl e
  · exact ⟨rfl, rfl, rfl, rfl, rfl, rfl⟩

/-- The end of `updateCons`: the rest of the line is drawn, and the cursor goes back. -/
lemma sameLine_rest (e : Editor) (d k : ℤ) :
    SameLine e ((e.printAfter.printSpace d).printBack k) :=
  ((sameLine_print e _).trans (sameLine_printSpace _ d)).trans (sameLine_printBack _ _)

/-- The null byte goes behind the characters before the cursor. -/
lemma sameText_terminate (e : Editor) :
    SameText e { e with beforeCur := Function.update e.beforeCur e.beforeLen 0 } :=
  ⟨rfl, rfl, bytes_update le_rfl, rfl⟩

/-- **`updateCons`** keeps the text, and counts it. -/
lemma updateCons_text (e : Editor) (b : Bool) :
    SameText e (e.updateCons b) ∧
      (e.updateCons b).inputLen = (e.updateCons b).beforeLen + (e.updateCons b).afterLen := by
  cases b with
  | true =>
    refine ⟨?_, rfl⟩
    have hfront : SameText e (e.printBack e.cursor) := (sameLine_printBack e _).sameText
    have hput := hfront.trans (sameText_terminate (e.printBack e.cursor))
    exact hput.trans ((((sameLine_print _ _).trans (sameLine_rest _ _ _)).sameText).trans
      ⟨rfl, rfl, rfl, rfl⟩)
  | false =>
    by_cases hd : (e.inputLen - e.beforeLen - e.afterLen : ℤ) = 0
    · have hupd : e.updateCons false = { e with
          beforeCur := Function.update e.beforeCur e.beforeLen 0
          afterCur := Function.update e.afterCur e.afterLen 0
          cursor := e.beforeLen } := by
        unfold updateCons
        rw [if_neg Bool.false_ne_true, if_pos hd]
      rw [hupd]
      refine ⟨⟨rfl, rfl, bytes_update le_rfl, ?_⟩, by simp only; omega⟩
      exact congrArg List.reverse (bytes_update le_rfl)
    · unfold updateCons
      rw [if_neg Bool.false_ne_true, if_neg hd]
      extract_lets e0 e1 e2 e3 d e4 e5
      have h1 : SameText e e1 := by
        unfold e1
        split_ifs
        · exact (sameLine_printBack e _).sameText
        · exact (sameText_terminate e).trans (sameLine_print _ _).sameText
      have h2 : SameText e1 e2 := ⟨rfl, rfl, rfl, rfl⟩
      have h5 : SameText e2 e5 := (sameLine_rest e2 d _).sameText
      exact ⟨(h1.trans h2).trans (h5.trans ⟨rfl, rfl, rfl, rfl⟩), rfl⟩

/-- The text after Up or Down. -/
lemma arrow_text (e : Editor) (r : Recall) (up : Bool) :
    ((e.readDirection r (if up then .up else .down)).updateCons false).text =
      History.shown e.text r := by
  have hmove : e.readDirection r (if up then .up else .down) =
      (e.fromHistory r).updateCons true := by
    cases up
    · rfl
    · rfl
  rw [hmove, (updateCons_text _ false).1.text_eq, (updateCons_text _ true).1.text_eq]
  rcases r with - | ⟨buf, len⟩
  · rfl
  · exact List.append_nil _

/-- `loadBuf` puts the null byte behind the text. -/
lemma loadBuf_end (e : Editor) (buf : Chars) : e.loadBuf buf (e.beforeLen + e.afterLen) = 0 := by
  obtain ⟨b, hload, -⟩ := e.exists_loadBuf buf
  rw [hload]
  exact Function.update_self _ _ _

/-- The line that is given to the history fits into the buffer. -/
lemma length_loadBuf (e : Editor) (buf : Chars) (hlen : e.beforeLen + e.afterLen < 1024) :
    (cstr (e.loadBuf buf) 1024).length < maxCmdLen := by
  obtain ⟨m, hm, hstr⟩ := exists_strLen (n := e.beforeLen + e.afterLen + 1)
    ⟨_, Nat.lt_succ_self _, e.loadBuf_end buf⟩
  rw [hstr.length_cstr (by omega)]
  exact (by omega : m < 1024)

/-- The counter after a key. -/
lemma inputLen_eq (e : Editor) :
    (e.updateCons false).inputLen = (e.updateCons false).text.length := by
  rw [(updateCons_text e false).2, text, List.length_append, length_before, length_after]

end Editor

/-! ## Sessions -/

/-- A key, with what it finds in arrays and variables on the stack. -/
inductive SessionKey
  /-- A byte that is neither `ESC` nor Enter, and what the completion does at that time. -/
  | char (inc : BitVec 8) (dealTab : Editor → Editor)
  /-- Left, right or delete. -/
  | move (dir : Direction) (h : dir ≠ .up ∧ dir ≠ .down)
  /-- Up or down. -/
  | arrow (up : Bool) (nowBuf : Chars) (stale : ℕ → Word)
  | enter (buf : Chars)
  /-- The line is given up: an end of file, or another escape sequence. -/
  | leave

/-- The shell between two keys. -/
structure Session where
  history : History
  editor : Editor
  /-- The commands that have been recorded. -/
  commands : List (List (BitVec 8))
  /-- Up has been pressed on the line. -/
  browsed : Bool

namespace Session

/-- The next line. -/
def newLine (s : Session) : Session :=
  { s with
    editor := { s.editor with beforeLen := 0, afterLen := 0, inputLen := 0 }
    browsed := false }

/-- The loop of `readline` goes on, or the line is too long. -/
def edited (s : Session) (e : Editor) : Session :=
  if e.inputLen < 1024 then { s with editor := e } else { s with editor := e }.newLine

/-- The line that Enter gives. -/
def entered (s : Session) (buf : Chars) : List (BitVec 8) :=
  cstr ({ s.editor with cursor := 0, inputLen := 0 }.loadBuf buf) 1024

/-- A key. -/
def press (s : Session) : SessionKey → Option Session
  | .char inc dealTab => some (s.edited ((s.editor.readChar dealTab inc).updateCons false))
  | .move dir _ => some (s.edited ((s.editor.readDirection none dir).updateCons false))
  | .arrow up nowBuf stale => do
    let (r, h) ← s.history.next (cstr (s.editor.loadBuf nowBuf) 1024) s.editor.beforeCur stale up
    let e := (s.editor.readDirection r (if up then .up else .down)).updateCons false
    pure ({ s with history := h, browsed := s.browsed || up }.edited e)
  | .enter buf =>
    let line := s.entered buf
    let s := if line = [] then s else { s with commands := s.commands ++ [line] }
    some { s with history := (s.history.write line).2 }.newLine
  | .leave => some s.newLine

/-- The shell after `history_init`, with the file as it is, at the first line. -/
def start (data : List (BitVec 8)) (e : Editor) : Session :=
  (⟨.init data, e, [], false⟩ : Session).newLine

/-! ## What is asked for -/

/-- **What a key should do** on a line without Up so far, if there are commands: Up shows the last
one, and Down keeps the text. -/
def KeyFresh (s : Session) (k : SessionKey) (s' : Session) : Prop :=
  s.browsed = false → s.commands ≠ [] → ∀ up nowBuf stale, k = .arrow up nowBuf stale →
    s'.editor.text = if up then s.commands.getLastD [] else s.editor.text

/-- **A fresh prompt**, through a session. -/
def FreshRun : Session → List SessionKey → Prop
  | _, [] => True
  | s, k :: ks => ∃ s', s.press k = some s' ∧ s.KeyFresh k s' ∧ FreshRun s' ks

/-- The key ends the line, and nothing is recorded. -/
def Drops (s : Session) : SessionKey → Prop
  | .char inc dealTab => 1024 ≤ ((s.editor.readChar dealTab inc).updateCons false).inputLen
  | .move dir _ => 1024 ≤ ((s.editor.readDirection none dir).updateCons false).inputLen
  | .arrow _ _ _ => False
  | .enter buf => s.entered buf = []
  | .leave => True

/-- What is stored behind the commands: the line that was left with Up, if no command has been
recorded since. -/
def leftBehind (h : History) : List (BitVec 8) :=
  if h.fakeMaxOff = h.maxOff then []
  else
    match readDownEntry h.file h.maxOff 0 fun _ => 0 with
    | some (len, buf) => bytes buf len
    | none => []

/-- **A careful key.** A line that is not recorded ends behind the last command, and a Down that
comes first finds the text behind the commands. -/
def Careful (s : Session) (k : SessionKey) : Prop :=
  (s.Drops k → s.history.nowOff = s.history.maxOff) ∧
    (s.browsed = false → s.commands ≠ [] → ∀ nowBuf stale, k = .arrow false nowBuf stale →
      s.editor.text = leftBehind s.history)

/-- Every key of a session is careful. -/
def CarefulRun : Session → List SessionKey → Prop
  | _, [] => True
  | s, k :: ks => s.Careful k ∧ ∀ s', s.press k = some s' → CarefulRun s' ks

variable {s s' : Session} {k : SessionKey} {e : Editor} {h h' : History} {r : Recall}
  {cmds : List (List (BitVec 8))} {line t : List (BitVec 8)} {ks : List SessionKey} {buf : Chars}
  {stale : ℕ → Word} {up : Bool}

/-! ## The history, between two keys -/

/-- Where the history can be: behind the last command, with nothing stored there, or among the
records. -/
def Settled (cmds : List (List (BitVec 8))) (h : History) : Prop :=
  (h.fakeMaxOff = h.maxOff ∧ h.nowOff = h.maxOff) ∨ ∃ t i, History.Shows cmds t i h

/-- **The invariant** of a session. -/
structure Inv (s : Session) : Prop where
  recorded : History.Recorded s.commands s.history
  settled : Settled s.commands s.history
  bottom : s.browsed = false → s.history.nowOff = s.history.maxOff
  count : s.editor.inputLen = s.editor.text.length
  short : s.editor.inputLen < 1024

/-- A new line keeps the invariant behind the last command. -/
lemma Inv.newLine (hr : History.Recorded s.commands s.history)
    (hset : Settled s.commands s.history) (hbottom : s.history.nowOff = s.history.maxOff) :
    Inv s.newLine := ⟨hr, hset, fun _ => hbottom, rfl, (by decide : 0 < 1024)⟩

/-- `history_next` looks at the line only where it stores it. -/
lemma next_congr (hne : ¬(h.nowOff = h.maxOff ∧ up)) (line t : List (BitVec 8)) :
    h.next line buf stale up = h.next t buf stale up := by
  have hstore : ∀ l, h.storeLine l up = h := fun l => if_neg hne
  unfold History.next
  rw [hstore, hstore]

/-- Among the records, the history is at the bottom behind the commands only. -/
lemma shows_bottom {i : ℕ} (hs : History.Shows cmds t i h) (hbottom : h.nowOff = h.maxOff) :
    i = cmds.length := by
  by_contra hne
  have hle := hs.le
  have hlt : History.placeOfRecord (cmds ++ [t]) i <
      History.placeOfRecord (cmds ++ [t]) cmds.length :=
    History.placeOfRecord_lt (by omega) (by simp)
  rw [← hs.nowOff, ← hs.maxOff, hbottom] at hlt
  exact hlt.false

/-- What is shown fits into the buffer. -/
lemma length_shown {i len : ℕ} {buf' : Chars} (hs : History.Shows cmds t i h)
    (hshown : bytes buf' len = History.entryAt cmds t i) : len < 1024 := by
  have hi : i < (cmds ++ [t]).length := by
    have := hs.le
    simp only [List.length_append, List.length_singleton]
    omega
  rw [← length_bytes buf' len, hshown, ← History.entryAt_eq hi]
  exact hs.fit _ (List.getElem_mem hi)

/-- **Up and Down** keep the history settled, and Down keeps it at the bottom. -/
lemma next_settled (hr : History.Recorded cmds h) (hset : Settled cmds h)
    (hline : line.length < maxCmdLen) (buf : Chars) (stale : ℕ → Word) (up : Bool) :
    ∃ r h', h.next line buf stale up = some (r, h') ∧ History.Recorded cmds h' ∧ Settled cmds h' ∧
      (∀ buf len, r = some (buf, len) → len < 1024) ∧
      (up = false → h.nowOff = h.maxOff → h'.nowOff = h'.maxOff) := by
  by_cases hne : cmds = []
  · have hmax : h.maxOff = 0 := by rw [hr.maxOff, hne]; rfl
    refine ⟨none, h, if_pos (.inr hmax), hr, hset, fun _ _ hn => ?_, fun _ => id⟩
    exact absurd hn.symm (Option.some_ne_none _)
  by_cases hstore : h.nowOff = h.maxOff ∧ up = true
  · obtain ⟨hbottom, rfl⟩ := hstore
    obtain ⟨buf', len, h', hnext, hs, hshown⟩ := hr.next_up hbottom hne hline buf stale
    refine ⟨_, h', hnext, hs.recorded, .inr ⟨_, _, hs⟩, fun b n hn => ?_, fun hup => nomatch hup⟩
    cases hn
    exact length_shown hs hshown
  rcases hset with ⟨hfake, hbottom⟩ | ⟨t, i, hs⟩
  · -- nothing is stored behind the commands, so the key is Down
    have hup : up = false := by simpa [hbottom] using hstore
    subst hup
    have hmax : h.maxOff ≠ 0 := by
      rw [hr.maxOff]
      exact mt List.length_eq_zero_iff.mp (RecordFile.records_ne_nil hne)
    refine ⟨some (buf, 0), h, ?_, hr, .inl ⟨hfake, hbottom⟩, fun b n hn => ?_, fun _ => id⟩
    · unfold History.next
      rw [if_neg (by simp [hmax]), if_pos ⟨hbottom, by simp, hfake.symm⟩]
    · cases hn
      decide
  · obtain ⟨r, h', hnext, hs', hshown⟩ := hs.next ⟨up, buf, stale⟩
    rw [next_congr hstore line]
    refine ⟨r, h', hnext, hs'.recorded, .inr ⟨t, _, hs'⟩, fun b n hn => ?_, fun hup hbottom => ?_⟩
    · subst hn
      exact length_shown hs' hshown
    · obtain rfl := shows_bottom hs hbottom
      rw [hs'.nowOff, hs'.maxOff]
      subst hup
      exact congrArg _ (Nat.min_eq_left (Nat.le_succ _))

/-! ## The first key of a line -/

lemma entryAt_last (hne : cmds ≠ []) (t : List (BitVec 8)) :
    History.entryAt cmds t (cmds.length - 1) = cmds.getLastD [] := by
  have hi : cmds.length - 1 < cmds.length := by
    have := List.length_pos_of_ne_nil hne
    omega
  rw [History.entryAt, List.getD, List.getElem?_append_left hi, List.getLastD_eq_getLast?,
    List.getLast?_eq_getElem?]

/-- **The first Up** shows the last command. -/
lemma next_first_up (hr : History.Recorded cmds h) (hbottom : h.nowOff = h.maxOff) (hne : cmds ≠ [])
    (hline : line.length < maxCmdLen) (hnext : h.next line buf stale true = some (r, h'))
    (t : List (BitVec 8)) : History.shown t r = cmds.getLastD [] := by
  obtain ⟨buf', len, h1, hn, -, hshown⟩ := hr.next_up hbottom hne hline buf stale
  rw [hn] at hnext
  cases hnext
  exact hshown.trans (entryAt_last hne line)

/-- **A first Down** shows what is stored behind the commands. -/
lemma next_first_down (hr : History.Recorded cmds h) (hset : Settled cmds h)
    (hbottom : h.nowOff = h.maxOff) (hne : cmds ≠ [])
    (hnext : h.next line buf stale false = some (r, h')) (t : List (BitVec 8)) :
    History.shown t r = leftBehind h := by
  have hmax : h.maxOff ≠ 0 := by
    rw [hr.maxOff]
    exact mt List.length_eq_zero_iff.mp (RecordFile.records_ne_nil hne)
  unfold History.next at hnext
  rw [if_neg (by simp [hmax])] at hnext
  by_cases hfake : h.fakeMaxOff = h.maxOff
  · rw [if_pos ⟨hbottom, by simp, hfake.symm⟩] at hnext
    cases hnext
    exact (if_pos hfake).symm
  · rw [if_neg fun hc => hfake hc.2.2.symm] at hnext
    rcases hset with ⟨h1, -⟩ | ⟨t', i, hs⟩
    · exact absurd h1 hfake
    obtain rfl := shows_bottom hs hbottom
    obtain ⟨rest, hdata⟩ := hs.data
    have hi : cmds.length < (cmds ++ [t']).length := by simp
    have hstore : h.storeLine line false = h := if_neg (by simp)
    have hdown := History.nextDown_bottom hdata hs.fit hi hs.nowOff (by omega) buf stale
    simp only [hstore, Bool.false_eq_true, if_false] at hnext
    rw [hdown] at hnext
    cases hnext
    have hread := History.readDownEntry_place (f := h.file) hdata hs.fit hi 0 fun _ => 0
    rw [← hs.maxOff] at hread
    unfold leftBehind
    rw [if_neg hfake, hread]
    exact (History.bytes_stored _ _).trans (History.bytes_stored _ _).symm

/-! ## One key -/

/-- The counters of a line that fits. -/
lemma Inv.fits (hi : Inv s) : s.editor.beforeLen + s.editor.afterLen < 1024 := by
  have hlen := hi.count ▸ hi.short
  rwa [Editor.text, List.length_append, Editor.length_before, Editor.length_after] at hlen

/-- A key on the line, which goes on or is too long. -/
lemma Inv.edited (hi : Inv s) (e : Editor)
    (hdrop : 1024 ≤ (e.updateCons false).inputLen → s.history.nowOff = s.history.maxOff) :
    Inv (s.edited (e.updateCons false)) := by
  unfold Session.edited
  split_ifs with hlen
  · exact ⟨hi.recorded, hi.settled, hi.bottom, e.inputLen_eq, hlen⟩
  · exact .newLine hi.recorded hi.settled (hdrop (Nat.le_of_not_lt hlen))

/-- What Up and Down that come first on a line show. -/
def FirstShown (s : Session) (k : SessionKey) (s' : Session) : Prop :=
  s.browsed = false → s.commands ≠ [] → ∀ up nowBuf stale, k = .arrow up nowBuf stale →
    s'.editor.text = if up then s.commands.getLastD [] else leftBehind s.history

/-- **One key.** It keeps the invariant if a line that is not recorded ends behind the last
command. -/
theorem Inv.step (hi : Inv s) (hdrop : s.Drops k → s.history.nowOff = s.history.maxOff) :
    ∃ s', s.press k = some s' ∧ Inv s' ∧ s.FirstShown k s' := by
  cases k with
  | char inc dealTab => exact ⟨_, rfl, hi.edited _ hdrop, fun _ _ _ _ _ hk => nomatch hk⟩
  | move dir hdir => exact ⟨_, rfl, hi.edited _ hdrop, fun _ _ _ _ _ hk => nomatch hk⟩
  | leave =>
    exact ⟨_, rfl, .newLine hi.recorded hi.settled (hdrop trivial), fun _ _ _ _ _ hk => nomatch hk⟩
  | enter buf =>
    refine ⟨_, rfl, ?_, fun _ _ _ _ _ hk => nomatch hk⟩
    have hlen : (s.entered buf).length < maxCmdLen := Editor.length_loadBuf _ buf hi.fits
    have hdrop : s.entered buf = [] → s.history.nowOff = s.history.maxOff := hdrop
    generalize s.entered buf = line at hlen hdrop
    by_cases hline : line = []
    · have hwrite : (s.history.write line).2 = s.history := by rw [History.write, if_pos hline]
      simp only [if_pos hline, hwrite]
      exact .newLine hi.recorded hi.settled (hdrop hline)
    · obtain ⟨hr, hbottom, hfake, -⟩ := hi.recorded.write hline hlen
      simp only [if_neg hline]
      exact .newLine hr (.inl ⟨hfake, hbottom⟩) hbottom
  | arrow up nowBuf stale =>
    have hline := s.editor.length_loadBuf nowBuf hi.fits
    obtain ⟨r, h', hnext, hr, hset, hfit, hbot⟩ :=
      next_settled hi.recorded hi.settled hline s.editor.beforeCur stale up
    have htext := s.editor.arrow_text r up
    have hcount := (s.editor.readDirection r (if up then .up else .down)).inputLen_eq
    obtain ⟨e, he⟩ : ∃ e, e =
      (s.editor.readDirection r (if up then .up else .down)).updateCons false := ⟨_, rfl⟩
    rw [← he] at htext hcount
    have hshort : e.inputLen < 1024 := by
      rw [hcount, htext]
      rcases r with - | ⟨buf, len⟩
      · exact hi.count ▸ hi.short
      · exact (length_bytes buf len).trans_lt (hfit buf len rfl)
    refine ⟨⟨h', e, s.commands, s.browsed || up⟩, ?_, ⟨hr, hset, fun hb => ?_, hcount, hshort⟩,
      fun hb hne u n st hk => ?_⟩
    · rw [press, hnext]
      simp only [Option.bind_eq_bind, Option.bind_some, ← he]
      exact congrArg some (if_pos hshort)
    · obtain ⟨hb, hup⟩ := Bool.or_eq_false_iff.mp hb
      exact hbot hup (hi.bottom hb)
    · cases hk
      rw [show (⟨h', e, s.commands, s.browsed || up⟩ : Session).editor.text = _ from htext]
      cases up with
      | true =>
        rw [if_pos rfl]
        exact next_first_up hi.recorded (hi.bottom hb) hne hline hnext _
      | false =>
        rw [if_neg Bool.false_ne_true]
        exact next_first_down hi.recorded hi.settled (hi.bottom hb) hne hnext _

/-- **A careful key** does what it should. -/
lemma Inv.press (hi : Inv s) (hc : s.Careful k) :
    ∃ s', s.press k = some s' ∧ s.KeyFresh k s' ∧ Inv s' := by
  obtain ⟨s', hpress, hi', hshown⟩ := hi.step hc.1
  refine ⟨s', hpress, fun hb hne up nowBuf stale hk => ?_, hi'⟩
  rw [hshown hb hne up nowBuf stale hk]
  cases up with
  | true => rfl
  | false => exact (hc.2 hb hne nowBuf stale hk).symm

/-- The invariant at the start. -/
lemma start_inv (data : List (BitVec 8)) (e : Editor) : Inv (start data e) :=
  .newLine (History.recorded_init data) (.inl ⟨rfl, rfl⟩) rfl

/-- **Careful keys** do what they should, in any session from the invariant on. -/
lemma Inv.freshRun (hi : Inv s) (hc : CarefulRun s ks) : FreshRun s ks := by
  induction ks generalizing s with
  | nil => trivial
  | cons k ks ih =>
    obtain ⟨s', hpress, hfresh, hi'⟩ := hi.press hc.1
    exact ⟨s', hpress, hfresh, ih hi' (hc.2 s' hpress)⟩

/-- **A fresh prompt.** In a session in which every line that is not recorded ends behind the last
command, and a Down that comes first finds the text behind the commands, the first Up of a line
shows the last command and a first Down keeps the text. -/
theorem freshRun_of_careful (data : List (BitVec 8)) (e : Editor) (ks : List SessionKey)
    (hc : CarefulRun (start data e) ks) : FreshRun (start data e) ks :=
  (start_inv data e).freshRun hc

/-! ## The keys of two sessions -/

/-- What the memory holds does not matter here. -/
def blank : Chars := fun _ => 0

lemma edited_history (s : Session) (e : Editor) : (s.edited e).history = s.history := by
  unfold edited
  split_ifs
  · rfl
  · rfl

/-- `a`, Enter and Up. -/
theorem freshRun_of_careful_up : FreshRun (start [] Editor.first)
    [.char 0x61 id, .enter blank, .arrow true blank fun _ => 0] := by
  refine freshRun_of_careful [] Editor.first _ ⟨⟨fun _ => rfl, fun _ _ _ _ hk => nomatch hk⟩, ?_⟩
  intro s1 h1
  cases h1
  refine ⟨⟨fun _ => ?_, fun _ _ _ _ hk => nomatch hk⟩, fun s2 _ => ⟨⟨fun hd => hd.elim, ?_⟩, ?_⟩⟩
  · rw [edited_history]
    rfl
  · exact fun _ _ _ _ hk => nomatch hk
  · exact fun _ _ => trivial

/-- Enter on a line that is recorded. -/
lemma Inv.enter {buf : Chars} (hi : Inv s) (hline : s.entered buf ≠ []) :
    ∃ s', s.press (.enter buf) = some s' ∧ s'.commands ≠ [] ∧
      s'.history.fakeMaxOff = s'.history.maxOff ∧ s'.browsed = false ∧
      s'.editor = s.newLine.editor := by
  have hlen : (s.entered buf).length < maxCmdLen := Editor.length_loadBuf _ buf hi.fits
  refine ⟨_, rfl, ?_, ?_, rfl, ?_⟩
  all_goals
    generalize s.entered buf = line at hlen hline
    simp only [if_neg hline]
  · exact List.append_ne_nil_of_right_ne_nil _ (List.cons_ne_nil _ _)
  · exact (hi.recorded.write hline hlen).2.2.1
  · rfl

/-- The first character of a line. -/
lemma press_first (h0 : s.editor.beforeLen = 0 ∧ s.editor.afterLen = 0) :
    ∃ e, s.press (.char 0x62 id) = some { s with editor := e } ∧ e.text = [0x62] := by
  have hread : s.editor.readChar id 0x62 = { s.editor with
      beforeCur := Function.update s.editor.beforeCur s.editor.beforeLen 0x62
      beforeLen := s.editor.beforeLen + 1 } := rfl
  have htext : ((s.editor.readChar id 0x62).updateCons false).text = [0x62] := by
    rw [(Editor.updateCons_text _ false).1.text_eq, hread, Editor.text, Editor.before, Editor.after,
      bytes_update_succ, h0.1, h0.2]
    rfl
  refine ⟨_, ?_, htext⟩
  rw [press, edited, if_pos]
  rw [Editor.inputLen_eq, htext]
  decide

/-- **A Down clears the line**: `a`, Enter, `b` and Down. -/
theorem down_clears : ¬∀ data e ks, FreshRun (start data e) ks := by
  intro h
  obtain ⟨s1, h1, -, s2, h2, -, s3, h3, -, s4, h4, hfresh, -⟩ := h [] Editor.first
    [.char 0x61 id, .enter blank, .char 0x62 id, .arrow false blank fun _ => 0]
  have hi0 := start_inv [] Editor.first
  obtain ⟨t1, g1, hi1, -⟩ := hi0.step (k := .char 0x61 id) fun _ => rfl
  obtain rfl : t1 = s1 := Option.some.inj (g1.symm.trans h1)
  have hline : t1.entered blank ≠ [] := by
    cases h1
    exact mt (cstr_eq_nil_iff (by decide)).mp (by decide)
  obtain ⟨t2, g2, hi2, -⟩ := hi1.step (k := .enter blank) fun hd => absurd hd hline
  obtain rfl : t2 = s2 := Option.some.inj (g2.symm.trans h2)
  obtain ⟨u2, k2, hne, hfake, hb, hed⟩ := hi1.enter hline
  obtain rfl : u2 = t2 := Option.some.inj (k2.symm.trans g2)
  obtain ⟨e, g3, htext⟩ := press_first (s := u2) (by rw [hed]; exact ⟨rfl, rfl⟩)
  obtain ⟨t3, k3, hi3, -⟩ := hi2.step (k := .char 0x62 id) fun _ => hi2.bottom hb
  obtain rfl : { u2 with editor := e } = t3 := Option.some.inj (g3.symm.trans k3)
  obtain rfl : { u2 with editor := e } = s3 := Option.some.inj (g3.symm.trans h3)
  obtain ⟨t4, g4, -, hshown⟩ := hi3.step (k := .arrow false blank fun _ => 0) fun hd => hd.elim
  obtain rfl : t4 = s4 := Option.some.inj (g4.symm.trans h4)
  have hkeep := hfresh hb hne false _ _ rfl
  have hleft := hshown hb hne false _ _ rfl
  rw [if_neg Bool.false_ne_true] at hkeep hleft
  rw [hkeep, htext, leftBehind, if_pos hfake] at hleft
  cases hleft

end Session

end MosVolca
