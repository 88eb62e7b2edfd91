import MosVolca.Include.Mmu
import MosVolca.Library.RecordFile
import MosVolca.User.Readline

/-!
# The history of the shell

`lib/history.c` keeps the commands as records in a file, and the place of the command that is shown
in `nowOff`. The line that is typed when the first Up comes is stored as one more record behind the
commands. The file is a file of bytes that can be opened, read and written; what a function finds in
its variables on the stack is a parameter.

## Main definitions

* `MosVolca.History` — the file and the variables.
* `MosVolca.History.write`, `MosVolca.History.getAll`, `MosVolca.History.next` — `history_write`,
  `history_get_all` and `history_next`.
* `MosVolca.History.Recorded` — the file starts with the commands.
* `MosVolca.History.Navigates` — Up and Down go through the commands.

## Main results

* `MosVolca.History.Shows.next` — one key.
* `MosVolca.History.getAll_navigates_iff` — when the commands are listed and gone through.
-/

namespace MosVolca

open CString RecordFile

/-- `MAX_CMD_LEN`. -/
def maxCmdLen : ℕ := 1024

/-- The places of an array that are overwritten from the first one on. -/
def overwrite (buf : Chars) (l : List (BitVec 8)) : Chars := fun i => l.getD i (buf i)

/-- `readDownEntry`: `len` and `buf`, if the null byte comes into the array. The variable `len`
holds `stale` if there is nothing to read. -/
def readDownEntry (f : ByteFile) (offset : ℕ) (stale : Word) (buf : Chars) : Option (ℕ × Chars) :=
  let (len, f) := (f.seek offset).readWord stale
  let buf := overwrite buf (f.read len.toNat).1
  if len.toNat < maxCmdLen then some (len.toNat, Function.update buf len.toNat 0) else none

/-- `readUpEntry`: `len` and `buf`, if the null byte comes into the array. It does not look in front
of the file. -/
def readUpEntry (f : ByteFile) (offset : ℕ) (stale : Word) (buf : Chars) : Option (ℕ × Chars) :=
  if offset < 4 then none
  else
    let (len, f) := (f.seek (offset - 4)).readWord stale
    if offset - 4 < len.toNat then none
    else
      let f := f.seek (offset - 4 - len.toNat)
      let buf := overwrite buf (f.read len.toNat).1
      if len.toNat < maxCmdLen then some (len.toNat, Function.update buf len.toNat 0) else none

/-- `writeEntry`. -/
def History.writeEntry (f : ByteFile) (offset : ℕ) (buf : List (BitVec 8)) : ByteFile :=
  let len := BitVec.ofNat 32 buf.length
  let f := (((f.seek offset).write (wordBytes len)).write buf).write (wordBytes len)
  (f.write (wordBytes 0)).write (wordBytes 0)

/-- The file `.history`, and the variables. -/
structure History where
  data : List (BitVec 8)
  nowOff : ℕ
  maxOff : ℕ
  fakeMaxOff : ℕ

namespace History

/-- The file is opened. -/
def file (h : History) : ByteFile := ⟨h.data, 0⟩

/-- `history_init`, for a file that holds `data`. -/
def init (data : List (BitVec 8)) : History := ⟨data, 0, 0, 0⟩

/-- `history_write`. -/
def write (h : History) (buf : List (BitVec 8)) : ℤ × History :=
  if buf = [] then (-1, h)
  else
    let maxOff := h.maxOff + (buf.length + 8)
    (0, ⟨(writeEntry h.file h.maxOff buf).data, maxOff, maxOff, maxOff⟩)

/-- The loop of `history_get_all`, with `n` places left in `tmpBuf`: the strings, and `nowOff`.
Round `cnt` finds `stale cnt` in the variable `len`. -/
def getAllLoop (f : ByteFile) (stale : ℕ → Word) (tmpBuf : ℕ → Chars) (cnt nowOff : ℕ) :
    ℕ → Option (List (List (BitVec 8)) × ℕ)
  | 0 => none
  | n + 1 => do
    let (len, buf) ← readDownEntry f nowOff (stale cnt) (tmpBuf cnt)
    if len = 0 then pure ([], nowOff)
    else
      let (rest, nowOff) ← getAllLoop f stale tmpBuf (cnt + 1) (nowOff + (len + 8)) n
      pure (cstr buf maxCmdLen :: rest, nowOff)

/-- `history_get_all`: the strings in `history_buf`. `tmpBuf` has 1024 places. -/
def getAll (h : History) (stale : ℕ → Word) (tmpBuf : ℕ → Chars) :
    Option (List (List (BitVec 8)) × History) := do
  let (cmds, nowOff) ← getAllLoop h.file stale tmpBuf 0 0 1024
  pure (cmds, { h with nowOff := nowOff })

/-- The part of `history_next` that stores the line which is left with Up. -/
def storeLine (h : History) (nowBuf : List (BitVec 8)) (up : Bool) : History :=
  if h.nowOff = h.maxOff ∧ up then
    { h with
      data := (writeEntry h.file h.maxOff nowBuf).data
      fakeMaxOff := h.maxOff + (nowBuf.length + 8) }
  else h

/-- The part of `history_next` for Up. -/
def nextUp (h : History) (buf : Chars) (stale : ℕ → Word) : Option (Recall × History) := do
  let (len, buf) ← readUpEntry h.file h.nowOff (stale 0) buf
  if h.nowOff < len + 8 then none
  else pure (some (buf, len), { h with nowOff := h.nowOff - (len + 8) })

/-- The part of `history_next` for Down. -/
def nextDown (h : History) (buf : Chars) (stale : ℕ → Word) : Option (Recall × History) := do
  let (nowOff, buf) ←
    if h.nowOff < h.maxOff then do
      let (len, buf) ← readDownEntry h.file h.nowOff (stale 0) buf
      pure (h.nowOff + (len + 8), buf)
    else pure (h.nowOff, buf)
  let (len, buf) ← readDownEntry h.file nowOff (stale 1) buf
  pure (some (buf, len), { h with nowOff := nowOff })

/-- `history_next`, with Up or with Down: the buffer and the length, or -1. -/
def next (h : History) (nowBuf : List (BitVec 8)) (buf : Chars) (stale : ℕ → Word) (up : Bool) :
    Option (Recall × History) :=
  if (h.nowOff = 0 ∧ up) ∨ h.maxOff = 0 then some (none, h)
  else if h.nowOff = h.maxOff ∧ ¬up ∧ h.maxOff = h.fakeMaxOff then some (some (buf, 0), h)
  else
    let h := h.storeLine nowBuf up
    if up then h.nextUp buf stale else h.nextDown buf stale

variable {h h' : History} {a b c l t rest line : List (BitVec 8)} {cmds : List (List (BitVec 8))}
  {buf : Chars} {stale : ℕ → Word} {v : Word} {f : ByteFile} {k n : ℕ}

/-! ## One record -/

/-- The first places of an array that is overwritten. -/
lemma bytes_overwrite (buf : Chars) (l : List (BitVec 8)) :
    bytes (overwrite buf l) l.length = l := by
  refine List.ext_getElem (length_bytes _ _) fun i h1 h2 => ?_
  simp [bytes, overwrite, h2]

/-- The length of a string that fits into the array, as it is read. -/
lemma toNat_length (hl : l.length < maxCmdLen) : (BitVec.ofNat 32 l.length).toNat = l.length := by
  have hl : l.length < 1024 := hl
  exact BitVec.toNat_ofNat l.length 32 ▸ Nat.mod_eq_of_lt (by omega)

/-- What a function that reads a record leaves in the array. -/
def stored (buf : Chars) (l : List (BitVec 8)) : Chars :=
  Function.update (overwrite buf l) l.length 0

lemma bytes_stored (buf : Chars) (l : List (BitVec 8)) : bytes (stored buf l) l.length = l :=
  (bytes_update le_rfl).trans (bytes_overwrite buf l)

lemma cstr_stored (buf : Chars) (h0 : (0 : BitVec 8) ∉ l) (hl : l.length < maxCmdLen) :
    cstr (stored buf l) maxCmdLen = l := by
  rw [stored, cstr_update_zero _ hl, bytes_overwrite]
  rw [bytes_overwrite]
  exact fun c hc he => h0 (he ▸ hc)

/-- **`readDownEntry`** in front of a record. -/
lemma readDownEntry_record (hf : f.data = a ++ (record l ++ b)) (hl : l.length < maxCmdLen)
    (v : Word) (buf : Chars) : readDownEntry f a.length v buf = some (l.length, stored buf l) := by
  have hdata : (f.seek a.length).data = a ++ (wordBytes (BitVec.ofNat 32 l.length) ++
      (l ++ (wordBytes (BitVec.ofNat 32 l.length) ++ b))) := by
    rw [ByteFile.seek, hf, record, List.append_assoc, List.append_assoc]
  have hword := ByteFile.readWord_append hdata rfl v
  have hread : ((⟨(f.seek a.length).data, a.length + 4⟩ : ByteFile).read l.length).1 = l := by
    rw [ByteFile.read_append (f := ⟨_, a.length + 4⟩)
      (hdata.trans (List.append_assoc _ _ _).symm) (by simp)]
  unfold readDownEntry
  rw [hword]
  simp only [toNat_length hl, if_pos hl, hread]
  rfl

/-- **`readUpEntry`** behind a record. -/
lemma readUpEntry_record (hf : f.data = a ++ (record l ++ b)) (hl : l.length < maxCmdLen)
    (v : Word) (buf : Chars) :
    readUpEntry f (a.length + (l.length + 8)) v buf = some (l.length, stored buf l) := by
  have hoff : a.length + (l.length + 8) - 4 = a.length + 4 + l.length := by omega
  have hdata : f.data = (a ++ wordBytes (BitVec.ofNat 32 l.length)) ++
      (l ++ (wordBytes (BitVec.ofNat 32 l.length) ++ b)) := by
    rw [hf, record, List.append_assoc, List.append_assoc, List.append_assoc]
  have hword := ByteFile.readWord_append (f := f.seek (a.length + 4 + l.length))
    (a := a ++ wordBytes (BitVec.ofNat 32 l.length) ++ l)
    (hdata.trans (List.append_assoc _ _ _).symm) (by
      simp only [ByteFile.seek, List.length_append, length_wordBytes]) v
  have hread : ((⟨f.data, a.length + 4⟩ : ByteFile).read l.length).1 = l := by
    rw [ByteFile.read_append (f := ⟨_, a.length + 4⟩) hdata (by simp)]
  have hsub : a.length + 4 + l.length - l.length = a.length + 4 := by omega
  unfold readUpEntry
  rw [if_neg (by omega), hoff, hword]
  simp only [toNat_length hl, hsub, if_pos hl, ByteFile.seek, hread]
  rw [if_neg (by omega)]
  rfl

/-- **`writeEntry`** at a place in the file: the record, and one of an empty string. -/
lemma writeEntry_data (hf : f.data = a ++ b) (l : List (BitVec 8)) :
    ∃ rest, (writeEntry f a.length l).data = a ++ (record l ++ (record [] ++ rest)) := by
  unfold writeEntry
  simp only [ByteFile.write_write]
  rw [ByteFile.write_append (f := f.seek a.length) hf rfl]
  simp only [record, List.append_assoc, List.nil_append]
  exact ⟨_, rfl⟩

/-! ## The commands in the file -/

/-- The strings fit into the array. -/
def Fit (cmds : List (List (BitVec 8))) : Prop := ∀ c ∈ cmds, c.length < maxCmdLen

/-- **The file starts with the commands**, and `maxOff` is where they end. -/
structure Recorded (cmds : List (List (BitVec 8))) (h : History) : Prop where
  data : ∃ rest, h.data = records cmds ++ rest
  maxOff : h.maxOff = (records cmds).length
  fit : Fit cmds

/-- The place of record `i`. -/
def placeOfRecord (cmds : List (List (BitVec 8))) (i : ℕ) : ℕ := (records (cmds.take i)).length

lemma placeOfRecord_succ {i : ℕ} (hi : i < cmds.length) :
    placeOfRecord cmds (i + 1) = placeOfRecord cmds i + (cmds[i].length + 8) := by
  unfold placeOfRecord
  rw [records_take_succ hi, List.length_append, length_record]

/-- Record `i` is read downwards from its place. -/
lemma readDownEntry_place {i : ℕ} (hf : f.data = records cmds ++ rest) (hfit : Fit cmds)
    (hi : i < cmds.length) (v : Word) (buf : Chars) :
    readDownEntry f (placeOfRecord cmds i) v buf = some (cmds[i].length, stored buf cmds[i]) := by
  rw [records_split hi, List.append_assoc, List.append_assoc] at hf
  exact readDownEntry_record hf (hfit _ (List.getElem_mem hi)) v buf

/-- Record `i` is read upwards from the place of the next one. -/
lemma readUpEntry_place {i : ℕ} (hf : f.data = records cmds ++ rest) (hfit : Fit cmds)
    (hi : i < cmds.length) (v : Word) (buf : Chars) :
    readUpEntry f (placeOfRecord cmds (i + 1)) v buf =
      some (cmds[i].length, stored buf cmds[i]) := by
  rw [records_split hi, List.append_assoc, List.append_assoc] at hf
  rw [placeOfRecord_succ hi]
  exact readUpEntry_record hf (hfit _ (List.getElem_mem hi)) v buf

/-! ## The list of the commands -/

/-- The commands are written one after the other, from an empty file on. -/
def recordAll (cmds : List (List (BitVec 8))) : History :=
  cmds.foldl (fun h c => (h.write c).2) (init [])

/-- `history_write` of a command. -/
lemma Recorded.write (hr : Recorded cmds h) (hc : c ≠ []) (hlen : c.length < maxCmdLen) :
    Recorded (cmds ++ [c]) (h.write c).2 ∧
      (h.write c).2.nowOff = (h.write c).2.maxOff ∧
      (h.write c).2.fakeMaxOff = (h.write c).2.maxOff ∧
      ∃ rest, (h.write c).2.data = records (cmds ++ [c]) ++ (record [] ++ rest) := by
  obtain ⟨rest, hdata⟩ := hr.data
  obtain ⟨rest', hw⟩ := writeEntry_data (f := h.file) hdata c
  have hwrite : h.write c = (0, ⟨(writeEntry h.file h.maxOff c).data, h.maxOff + (c.length + 8),
      h.maxOff + (c.length + 8), h.maxOff + (c.length + 8)⟩) := if_neg hc
  rw [hwrite, hr.maxOff]
  simp only
  rw [hw, ← List.append_assoc, ← records_concat]
  refine ⟨⟨⟨_, rfl⟩, ?_, fun x hx => ?_⟩, trivial, trivial, _, rfl⟩
  · rw [records_concat, List.length_append, length_record]
  · rcases List.mem_append.mp hx with hx | hx
    · exact hr.fit x hx
    · rw [List.mem_singleton.mp hx]
      exact hlen

lemma recorded_init (data : List (BitVec 8)) : Recorded [] (init data) :=
  ⟨⟨data, rfl⟩, rfl, fun _ hc => absurd hc List.not_mem_nil⟩

/-- What is in the file after the commands have been written. -/
lemma recordAll_data (hcmds : ∀ c ∈ cmds, c ≠ [] ∧ c.length < maxCmdLen) :
    Recorded cmds (recordAll cmds) ∧
      (cmds ≠ [] → ∃ rest, (recordAll cmds).data = records cmds ++ (record [] ++ rest)) := by
  induction cmds using List.reverseRecOn with
  | nil => exact ⟨recorded_init [], fun h => absurd rfl h⟩
  | append_singleton cmds c ih =>
    obtain ⟨hr, -⟩ := ih fun x hx => hcmds x (List.mem_append_left _ hx)
    obtain ⟨hc, hlen⟩ := hcmds c (List.mem_append_right _ (List.mem_singleton.mpr rfl))
    obtain ⟨hr', -, -, hdata⟩ := hr.write hc hlen
    rw [recordAll, List.foldl_append]
    exact ⟨hr', fun _ => hdata⟩

/-- The loop of `history_get_all` from the commands on that are left. -/
lemma getAllLoop_records {tmpBuf : ℕ → Chars} {cnt : ℕ} {todo : List (List (BitVec 8))}
    (past : List (List (BitVec 8)))
    (hf : f.data = records (past ++ todo) ++ (record [] ++ rest)) (hfit : Fit todo)
    (htodo : ∀ c ∈ todo, c ≠ [] ∧ (0 : BitVec 8) ∉ c) (hn : todo.length < n) :
    getAllLoop f stale tmpBuf cnt (records past).length n =
      some (todo, (records (past ++ todo)).length) := by
  induction todo generalizing past cnt n with
  | nil =>
    obtain ⟨n, rfl⟩ : ∃ m, n = m + 1 := Nat.exists_eq_add_one_of_ne_zero (by omega)
    rw [List.append_nil] at hf ⊢
    rw [getAllLoop, readDownEntry_record hf (by decide)]
    rfl
  | cons c todo ih =>
    obtain ⟨n, rfl⟩ : ∃ m, n = m + 1 := Nat.exists_eq_add_one_of_ne_zero (by omega)
    obtain ⟨hc, h0⟩ := htodo c List.mem_cons_self
    have hlen := hfit c List.mem_cons_self
    have hsplit : past ++ c :: todo = (past ++ [c]) ++ todo := (List.append_cons past c todo)
    have hplace : (records past).length + (c.length + 8) = (records (past ++ [c])).length := by
      rw [records_concat, List.length_append, length_record]
    have hread := readDownEntry_record (a := records past) (l := c)
      (b := records todo ++ (record [] ++ rest)) (f := f)
      (by rw [hf, records_append, records_cons, List.append_assoc, List.append_assoc])
      hlen (stale cnt) (tmpBuf cnt)
    rw [getAllLoop, hread]
    simp only [Option.bind_eq_bind, Option.bind_some]
    rw [if_neg (by simpa using hc), hplace, ih (past ++ [c]) (hsplit ▸ hf)
      (fun x hx => hfit x (List.mem_cons_of_mem c hx))
      (fun x hx => htodo x (List.mem_cons_of_mem c hx)) (by simpa using hn), hsplit]
    simp only [Option.bind_some, cstr_stored _ h0 hlen]
    rfl

/-- **The list of the commands** is complete if there are any. -/
theorem getAll_recordAll {tmpBuf : ℕ → Chars} (hne : cmds ≠ [])
    (hcmds : ∀ c ∈ cmds, c ≠ [] ∧ (0 : BitVec 8) ∉ c ∧ c.length < maxCmdLen)
    (hn : cmds.length < 1024) : ∃ h', (recordAll cmds).getAll stale tmpBuf = some (cmds, h') := by
  obtain ⟨hr, hdata⟩ := recordAll_data fun c hc => ⟨(hcmds c hc).1, (hcmds c hc).2.2⟩
  obtain ⟨rest, hdata⟩ := hdata hne
  have hloop : getAllLoop (recordAll cmds).file stale tmpBuf 0 0 1024 =
      some (cmds, (records cmds).length) :=
    getAllLoop_records (f := (recordAll cmds).file) [] hdata hr.fit
      (fun c hc => ⟨(hcmds c hc).1, (hcmds c hc).2.1⟩) hn
  unfold getAll
  rw [hloop]
  exact ⟨_, rfl⟩

/-- Of an empty file the list is empty only if `len` holds 0 by chance. -/
theorem getAll_empty {tmpBuf : ℕ → Chars} :
    (∃ h', (init []).getAll stale tmpBuf = some ([], h')) ↔ stale 0 = 0 := by
  have hword : (((init []).file.seek 0).readWord (stale 0)) = (stale 0, (init []).file.seek 0) :=
    ByteFile.readWord_end le_rfl
  unfold getAll
  rw [getAllLoop, readDownEntry, hword]
  simp only
  by_cases h0 : stale 0 = 0
  · rw [h0]
    exact iff_of_true ⟨_, rfl⟩ rfl
  · have hne : (stale 0).toNat ≠ 0 := fun h => h0 (BitVec.eq_of_toNat_eq h)
    refine iff_of_false ?_ h0
    rintro ⟨h', h⟩
    obtain ⟨⟨cmds, off⟩, hloop, hcmds⟩ := Option.bind_eq_some_iff.mp h
    obtain ⟨⟨len, buf⟩, hread, hrest⟩ := Option.bind_eq_some_iff.mp hloop
    split_ifs at hread
    cases hread
    simp only [if_neg hne] at hrest
    obtain ⟨⟨rest, off'⟩, -, hpure⟩ := Option.bind_eq_some_iff.mp hrest
    cases hpure
    cases hcmds

/-! ## Up and Down -/

/-- Up or Down, with what it finds in the buffer and on the stack. -/
structure Arrow where
  up : Bool
  buf : Chars
  stale : ℕ → Word

/-- The line after `history_next`. -/
def shown (line : List (BitVec 8)) : Recall → List (BitVec 8)
  | some (buf, len) => bytes buf len
  | none => line

/-- Up and Down, one after the other, from a line on. -/
def browse (h : History) (line : List (BitVec 8)) : List Arrow → Option (History × List (BitVec 8))
  | [] => some (h, line)
  | k :: ks => do
    let (r, h) ← h.next line k.buf k.stale k.up
    browse h (shown line r) ks

/-- **Up and Down among records**: record `i` of the commands and of the line `t` behind them is
shown. -/
structure Shows (cmds : List (List (BitVec 8))) (t : List (BitVec 8)) (i : ℕ) (h : History) :
    Prop where
  data : ∃ rest, h.data = records (cmds ++ [t]) ++ rest
  maxOff : h.maxOff = placeOfRecord (cmds ++ [t]) cmds.length
  nowOff : h.nowOff = placeOfRecord (cmds ++ [t]) i
  fake : h.fakeMaxOff ≠ h.maxOff
  fit : Fit (cmds ++ [t])
  le : i ≤ cmds.length

/-- The record that is shown. -/
def entryAt (cmds : List (List (BitVec 8))) (t : List (BitVec 8)) (i : ℕ) : List (BitVec 8) :=
  (cmds ++ [t]).getD i []

lemma entryAt_eq {i : ℕ} (hi : i < (cmds ++ [t]).length) : (cmds ++ [t])[i] = entryAt cmds t i := by
  rw [entryAt, List.getD, List.getElem?_eq_getElem hi, Option.getD_some]

/-- The place `i` after Up or Down, among `n` commands. -/
def arrowStep (n i : ℕ) (up : Bool) : ℕ := if up then i - 1 else min n (i + 1)

lemma placeOfRecord_lt {i j : ℕ} (hij : i < j) (hj : j ≤ cmds.length) :
    placeOfRecord cmds i < placeOfRecord cmds j := length_records_take_lt hij hj

lemma placeOfRecord_zero (cmds : List (List (BitVec 8))) : placeOfRecord cmds 0 = 0 := rfl

/-- Up from the place of record `i + 1`. -/
lemma nextUp_place {i : ℕ} (hdata : h.data = records cmds ++ rest) (hfit : Fit cmds)
    (hi : i < cmds.length) (hoff : h.nowOff = placeOfRecord cmds (i + 1)) (buf : Chars)
    (stale : ℕ → Word) : h.nextUp buf stale =
      some (some (stored buf cmds[i], cmds[i].length),
        { h with nowOff := placeOfRecord cmds i }) := by
  unfold nextUp
  rw [hoff, readUpEntry_place (f := h.file) hdata hfit hi]
  simp only [Option.bind_eq_bind, Option.bind_some]
  rw [placeOfRecord_succ hi, if_neg (by omega), Nat.add_sub_cancel]
  rfl

/-- Down from the place of record `i`. -/
lemma nextDown_place {i : ℕ} (hdata : h.data = records cmds ++ rest) (hfit : Fit cmds)
    (hi : i + 1 < cmds.length) (hoff : h.nowOff = placeOfRecord cmds i) (hlt : h.nowOff < h.maxOff)
    (buf : Chars) (stale : ℕ → Word) : ∃ buf', h.nextDown buf stale =
      some (some (stored buf' cmds[i + 1], cmds[i + 1].length),
        { h with nowOff := placeOfRecord cmds (i + 1) }) := by
  have hi' : i < cmds.length := Nat.lt_of_succ_lt hi
  refine ⟨stored buf cmds[i], ?_⟩
  unfold nextDown
  rw [if_pos hlt, hoff, readDownEntry_place (f := h.file) hdata hfit hi']
  simp only [Option.bind_eq_bind, Option.bind_some, Option.pure_def]
  rw [← placeOfRecord_succ hi', readDownEntry_place (f := h.file) hdata hfit hi]
  rfl

/-- Down at the bottom reads the record that is there. -/
lemma nextDown_bottom {i : ℕ} (hdata : h.data = records cmds ++ rest) (hfit : Fit cmds)
    (hi : i < cmds.length) (hoff : h.nowOff = placeOfRecord cmds i) (hle : ¬h.nowOff < h.maxOff)
    (buf : Chars) (stale : ℕ → Word) : h.nextDown buf stale =
      some (some (stored buf cmds[i], cmds[i].length), h) := by
  unfold nextDown
  rw [if_neg hle]
  simp only [Option.bind_eq_bind, Option.bind_some, Option.pure_def]
  rw [hoff, readDownEntry_place (f := h.file) hdata hfit hi, ← hoff]
  rfl

/-- **Up at the bottom**: the line is stored behind the commands, and the last of them is shown. -/
lemma Recorded.next_up (hr : Recorded cmds h) (hbottom : h.nowOff = h.maxOff) (hne : cmds ≠ [])
    (ht : t.length < maxCmdLen) (buf : Chars) (stale : ℕ → Word) :
    ∃ buf' len h', h.next t buf stale true = some (some (buf', len), h') ∧
      Shows cmds t (cmds.length - 1) h' ∧ bytes buf' len = entryAt cmds t (cmds.length - 1) := by
  obtain ⟨rest, hdata⟩ := hr.data
  obtain ⟨rest', hw⟩ := writeEntry_data (f := h.file) hdata t
  rw [← List.append_assoc, ← records_concat, ← hr.maxOff] at hw
  obtain ⟨i, hi⟩ : ∃ i, cmds.length = i + 1 :=
    Nat.exists_eq_add_one_of_ne_zero (mt List.length_eq_zero_iff.mp hne)
  have hlen : i < (cmds ++ [t]).length := by
    rw [List.length_append]
    omega
  have hfit : Fit (cmds ++ [t]) := fun x hx => by
    rcases List.mem_append.mp hx with hx | hx
    · exact hr.fit x hx
    · rw [List.mem_singleton.mp hx]
      exact ht
  have hmax : h.maxOff = placeOfRecord (cmds ++ [t]) (i + 1) := by
    rw [hr.maxOff, placeOfRecord, ← hi, List.take_left]
  have hpos : 0 < h.maxOff := hmax ▸ placeOfRecord_lt (Nat.succ_pos i) hlen
  have hstore : h.storeLine t true = { h with
      data := (writeEntry h.file h.maxOff t).data
      fakeMaxOff := h.maxOff + (t.length + 8) } := if_pos ⟨hbottom, rfl⟩
  have hnext := nextUp_place (h := h.storeLine t true) (by rw [hstore]; exact hw) hfit hlen
    (by rw [hstore, ← hmax]; exact hbottom) buf stale
  rw [hi, Nat.add_sub_cancel]
  refine ⟨stored buf (cmds ++ [t])[i], (cmds ++ [t])[i].length,
    { h.storeLine t true with nowOff := placeOfRecord (cmds ++ [t]) i },
    ?_, ⟨⟨record [] ++ rest', ?_⟩, ?_, rfl, ?_, hfit, by omega⟩, ?_⟩
  · unfold next
    rw [if_neg (by omega), if_neg (by simp)]
    exact hnext
  · rw [hstore]
    exact hw
  · rw [hstore, hi]
    exact hmax
  · rw [hstore]
    simp only
    omega
  · rw [← entryAt_eq hlen]
    exact bytes_stored _ _

/-- The commands are in the file in front of the line. -/
lemma Shows.recorded {i : ℕ} (hs : Shows cmds t i h) : Recorded cmds h := by
  obtain ⟨rest, hdata⟩ := hs.data
  rw [records_append, List.append_assoc] at hdata
  refine ⟨⟨_, hdata⟩, ?_, fun c hc => hs.fit c (List.mem_append_left _ hc)⟩
  rw [hs.maxOff, placeOfRecord, List.take_left]

lemma entryAt_length (cmds : List (List (BitVec 8))) (t : List (BitVec 8)) :
    entryAt cmds t cmds.length = t := by
  simp [entryAt]

/-- **One key**: Up and Down go to the record in front of it and behind it. -/
theorem Shows.next {i : ℕ} (hs : Shows cmds t i h) (k : Arrow) :
    ∃ r h', h.next (entryAt cmds t i) k.buf k.stale k.up = some (r, h') ∧
      Shows cmds t (arrowStep cmds.length i k.up) h' ∧
      shown (entryAt cmds t i) r = entryAt cmds t (arrowStep cmds.length i k.up) := by
  obtain ⟨rest, hdata⟩ := hs.data
  have hlen : (cmds ++ [t]).length = cmds.length + 1 := by simp
  have hle := hs.le
  have hmax := hs.maxOff
  have hoff := hs.nowOff
  have hzero := placeOfRecord_zero (cmds ++ [t])
  cases hup : k.up with
  | true =>
    rcases i with - | i
    · -- the first command stays
      refine ⟨none, h, if_pos (.inl ⟨by rw [hoff, hzero], rfl⟩), hs, rfl⟩
    · have hpos : placeOfRecord (cmds ++ [t]) 0 < placeOfRecord (cmds ++ [t]) (i + 1) :=
        placeOfRecord_lt (Nat.succ_pos i) (by omega)
      by_cases hbottom : i + 1 = cmds.length
      · have ht : t.length < maxCmdLen := hs.fit t (by simp)
        have hne : cmds ≠ [] := fun h => by
          rw [h] at hbottom
          cases hbottom
        obtain ⟨buf', len, h', hnext⟩ :=
          hs.recorded.next_up (by rw [hoff, hmax, hbottom]) hne ht k.buf k.stale
        rw [hbottom, entryAt_length]
        exact ⟨some (buf', len), h', hnext⟩
      · have hlt : placeOfRecord (cmds ++ [t]) (i + 1) < placeOfRecord (cmds ++ [t]) cmds.length :=
          placeOfRecord_lt (by omega) (by omega)
        have hstore : h.storeLine (entryAt cmds t (i + 1)) true = h := if_neg fun h => by omega
        have hi : i < (cmds ++ [t]).length := by omega
        have hstep : arrowStep cmds.length (i + 1) true = i := rfl
        have hnext : h.next (entryAt cmds t (i + 1)) k.buf k.stale true =
            h.nextUp k.buf k.stale := by
          unfold History.next
          rw [if_neg (by omega), if_neg (by simp), if_pos rfl, hstore]
        rw [hstep, hnext]
        have hread := nextUp_place hdata hs.fit hi hoff k.buf k.stale
        exact ⟨_, _, hread, ⟨⟨rest, hdata⟩, hmax, rfl, hs.fake, hs.fit, by omega⟩,
          (bytes_stored _ _).trans (entryAt_eq hi)⟩
  | false =>
    by_cases hempty : h.maxOff = 0
    · have hn : cmds.length = 0 := by
        by_contra hne
        have : placeOfRecord (cmds ++ [t]) 0 < placeOfRecord (cmds ++ [t]) cmds.length :=
          placeOfRecord_lt (by omega) (by omega)
        omega
      obtain rfl : i = 0 := by omega
      refine ⟨none, h, if_pos (.inr hempty), ?_, ?_⟩
      · rw [hn]
        exact hs
      · rw [hn]
        rfl
    · have hnext : h.next (entryAt cmds t i) k.buf k.stale false = h.nextDown k.buf k.stale := by
        have hfake := hs.fake
        have hstore : h.storeLine (entryAt cmds t i) false = h := if_neg (by simp)
        unfold History.next
        rw [if_neg (by simp [hempty]), if_neg fun h => hfake h.2.2.symm, if_neg (by simp), hstore]
      rw [hnext]
      by_cases hbottom : i = cmds.length
      · subst hbottom
        have hi : cmds.length < (cmds ++ [t]).length := by omega
        have hstep : arrowStep cmds.length cmds.length false = cmds.length :=
          Nat.min_eq_left (Nat.le_succ _)
        rw [hstep]
        exact ⟨_, _, nextDown_bottom hdata hs.fit hi hoff (by omega) k.buf k.stale, hs,
          (bytes_stored _ _).trans (entryAt_eq hi)⟩
      · have hlt : placeOfRecord (cmds ++ [t]) i < placeOfRecord (cmds ++ [t]) cmds.length :=
          placeOfRecord_lt (by omega) (by omega)
        have hi : i + 1 < (cmds ++ [t]).length := by omega
        have hstep : arrowStep cmds.length i false = i + 1 := Nat.min_eq_right (by omega)
        obtain ⟨buf', hdown⟩ :=
          nextDown_place hdata hs.fit hi hoff (by omega) k.buf k.stale
        rw [hstep]
        exact ⟨_, _, hdown, ⟨⟨rest, hdata⟩, hmax, rfl, hs.fake, hs.fit, by omega⟩,
          (bytes_stored _ _).trans (entryAt_eq hi)⟩

/-- **Up and Down** among records, one after the other. -/
theorem Shows.browse {i : ℕ} (hs : Shows cmds t i h) (ks : List Arrow) :
    ∃ h', h.browse (entryAt cmds t i) ks =
      some (h', entryAt cmds t ((ks.map Arrow.up).foldl (arrowStep cmds.length) i)) := by
  induction ks generalizing i h with
  | nil => exact ⟨h, rfl⟩
  | cons k ks ih =>
    obtain ⟨r, h1, hnext, hs1, hline⟩ := hs.next k
    obtain ⟨h', hrest⟩ := ih hs1
    refine ⟨h', ?_⟩
    rw [History.browse, hnext]
    simp only [Option.bind_eq_bind, Option.bind_some, hline]
    exact hrest

/-- **Up and Down go through the commands**: from the bottom, after keys that start with Up, the
line is the command at the place that they lead to, or what has been typed if that is the bottom. -/
def Navigates (cmds : List (List (BitVec 8))) : Prop :=
  cmds ≠ [] → ∀ h t, Recorded cmds h → h.nowOff = h.maxOff → t.length < maxCmdLen →
    ∀ k : Arrow, k.up = true → ∀ ks, ∃ h', h.browse t (k :: ks) =
      some (h', entryAt cmds t
        (((k :: ks).map Arrow.up).foldl (arrowStep cmds.length) cmds.length))

/-- Up and Down go through the commands. -/
theorem navigates (cmds : List (List (BitVec 8))) : Navigates cmds := by
  intro hne h t hr hbottom ht k hk ks
  obtain ⟨buf', len, h1, hnext, hs1, hline⟩ := hr.next_up hbottom hne ht k.buf k.stale
  obtain ⟨h', hrest⟩ := hs1.browse ks
  refine ⟨h', ?_⟩
  rw [browse, hk, hnext]
  simp only [Option.bind_eq_bind, Option.bind_some, shown, hline]
  rw [List.map_cons, List.foldl_cons, hk]
  exact hrest

/-- **The history.** The commands that have been written to an empty file are listed, and Up and
Down go through them, exactly if there are any or the variable `len` holds 0 by chance. -/
theorem getAll_navigates_iff {tmpBuf : ℕ → Chars}
    (hcmds : ∀ c ∈ cmds, c ≠ [] ∧ (0 : BitVec 8) ∉ c ∧ c.length < maxCmdLen)
    (hn : cmds.length ≤ 1023) :
    ((∃ h', (recordAll cmds).getAll stale tmpBuf = some (cmds, h')) ∧ Navigates cmds) ↔
      cmds ≠ [] ∨ stale 0 = 0 := by
  have hnav := navigates cmds
  by_cases hne : cmds = []
  · subst hne
    simp only [hnav, and_true, ne_eq, not_true_eq_false, false_or]
    exact getAll_empty
  · exact iff_of_true ⟨getAll_recordAll hne hcmds (by omega), hnav⟩ (.inl hne)

/-- The command `a`. -/
theorem getAll_navigates_iff_one :
    ((∃ h', (recordAll [[0x61]]).getAll (fun _ => 1) (fun _ _ => 0) = some ([[0x61]], h')) ∧
      Navigates [[0x61]]) ↔ ([[0x61]] : List (List (BitVec 8))) ≠ [] ∨ (1 : Word) = 0 :=
  getAll_navigates_iff (by decide) (by decide)

/-- **A list without commands**: the length that the variable holds by chance counts as one. -/
theorem getAll_no_commands : ¬∀ (cmds : List (List (BitVec 8))) (stale : ℕ → Word)
    (tmpBuf : ℕ → Chars), (∀ c ∈ cmds, c ≠ [] ∧ (0 : BitVec 8) ∉ c ∧ c.length < maxCmdLen) →
    cmds.length ≤ 1023 →
    (∃ h', (recordAll cmds).getAll stale tmpBuf = some (cmds, h')) ∧ Navigates cmds := by
  intro h
  obtain ⟨hlist, -⟩ := h [] (fun _ => 1) (fun _ _ => 0) (by simp) (by decide)
  exact absurd (getAll_empty.mp hlist) (by decide)

end History

end MosVolca
