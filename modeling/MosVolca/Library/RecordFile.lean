import Mathlib.Data.BitVec
import Mathlib.Data.List.Flatten

/-!
# Files of records

A file of bytes with the place of the next access, and records in it. A record is a string between
its length, in front of it and behind it, as words of four bytes with the least significant byte
first. So records that stand one behind the other can be read from either end.

## Main definitions

* `ByteFile` — a file that is open, with `ByteFile.seek`, `ByteFile.read` and `ByteFile.write`.
* `ByteFile.readWord` — a word that is read into a variable.
* `RecordFile.record`, `RecordFile.records` — the bytes of records.

## Main results

* `ByteFile.write_write` — two writes one after the other are one.
* `ByteFile.read_append` — what is read in the middle of a file.
* `RecordFile.ofBytes_wordBytes` — the bytes of a word give the word.
-/

/-- A file that is open: its bytes, and the place of the next access. -/
structure ByteFile where
  data : List (BitVec 8)
  off : ℕ

namespace RecordFile

/-- The bytes of a word. -/
def wordBytes (w : BitVec 32) : List (BitVec 8) :=
  [BitVec.ofNat 8 w.toNat, BitVec.ofNat 8 (w.toNat / 256), BitVec.ofNat 8 (w.toNat / 65536),
    BitVec.ofNat 8 (w.toNat / 16777216)]

/-- The word of four bytes. -/
def ofBytes (l : List (BitVec 8)) : BitVec 32 :=
  BitVec.ofNat 32 (l.foldr (fun b n => b.toNat + 256 * n) 0)

@[simp] lemma length_wordBytes (w : BitVec 32) : (wordBytes w).length = 4 := rfl

/-- **The bytes of a word** give the word. -/
lemma ofBytes_wordBytes (w : BitVec 32) : ofBytes (wordBytes w) = w := by
  have hlt := w.isLt
  apply BitVec.eq_of_toNat_eq
  simp only [ofBytes, wordBytes, List.foldr_cons, List.foldr_nil, BitVec.toNat_ofNat]
  omega

/-- A record: a string between its lengths. -/
def record (l : List (BitVec 8)) : List (BitVec 8) :=
  wordBytes (BitVec.ofNat 32 l.length) ++ (l ++ wordBytes (BitVec.ofNat 32 l.length))

/-- Records one behind the other. -/
def records (ls : List (List (BitVec 8))) : List (BitVec 8) := ls.flatMap record

variable {l : List (BitVec 8)} {ls : List (List (BitVec 8))} {i : ℕ}

@[simp] lemma length_record (l : List (BitVec 8)) : (record l).length = l.length + 8 := by
  simp only [record, List.length_append, length_wordBytes]
  omega

lemma records_append (ls ls' : List (List (BitVec 8))) :
    records (ls ++ ls') = records ls ++ records ls' := List.flatMap_append

lemma records_concat (ls : List (List (BitVec 8))) (l : List (BitVec 8)) :
    records (ls ++ [l]) = records ls ++ record l := by
  rw [records_append, records, records, List.flatMap_singleton]

lemma records_cons (l : List (BitVec 8)) (ls : List (List (BitVec 8))) :
    records (l :: ls) = record l ++ records ls := List.flatMap_cons

lemma records_ne_nil (h : ls ≠ []) : records ls ≠ [] := by
  intro h0
  have hlen := congrArg List.length h0
  cases ls with
  | nil => exact h rfl
  | cons l ls =>
    rw [records_cons, List.length_append, length_record, List.length_nil] at hlen
    omega

/-- The records, parted before record `i`. -/
lemma records_split (hi : i < ls.length) :
    records ls = records (ls.take i) ++ (record ls[i] ++ records (ls.drop (i + 1))) := by
  conv_lhs => rw [← List.take_append_drop i ls, List.drop_eq_getElem_cons hi]
  rw [records_append, records_cons]

/-- One more record. -/
lemma records_take_succ (hi : i < ls.length) :
    records (ls.take (i + 1)) = records (ls.take i) ++ record ls[i] := by
  rw [List.take_add_one, List.getElem?_eq_getElem hi, Option.toList_some, records_concat]

/-- Every record takes bytes. -/
lemma length_records_take_lt {j : ℕ} (hij : i < j) (hj : j ≤ ls.length) :
    (records (ls.take i)).length < (records (ls.take j)).length := by
  induction j, hij using Nat.le_induction with
  | base =>
    rw [records_take_succ hj, List.length_append, length_record]
    omega
  | succ j _ ih =>
    have := ih (by omega)
    rw [records_take_succ hj, List.length_append, length_record]
    omega

end RecordFile

namespace ByteFile

open RecordFile

/-- The next access is at a place. -/
def seek (f : ByteFile) (n : ℕ) : ByteFile := { f with off := n }

/-- At most `n` bytes are read. -/
def read (f : ByteFile) (n : ℕ) : List (BitVec 8) × ByteFile :=
  let l := (f.data.drop f.off).take n
  (l, { f with off := f.off + l.length })

/-- Bytes are written; zeros come between the end of the file and a place behind it. -/
def write (f : ByteFile) (l : List (BitVec 8)) : ByteFile where
  data := f.data.take f.off ++ List.replicate (f.off - f.data.length) 0 ++ l ++
    f.data.drop (f.off + l.length)
  off := f.off + l.length

/-- A word is read into a variable that holds `stale`, as far as there are bytes. -/
def readWord (f : ByteFile) (stale : BitVec 32) : BitVec 32 × ByteFile :=
  let (l, f) := f.read 4
  (ofBytes (l ++ (wordBytes stale).drop l.length), f)

variable {f : ByteFile} {a b l : List (BitVec 8)} {n : ℕ} {stale w : BitVec 32}

/-- **Two writes one after the other** are one. -/
lemma write_write (f : ByteFile) (l l' : List (BitVec 8)) :
    (f.write l).write l' = f.write (l ++ l') := by
  have hfront : (f.data.take f.off ++ List.replicate (f.off - f.data.length) 0 ++ l).length =
      f.off + l.length := by
    simp only [List.length_append, List.length_take, List.length_replicate]
    omega
  unfold write
  simp only [ByteFile.mk.injEq]
  constructor
  · rw [List.take_left' hfront, ← hfront, List.drop_append, hfront, List.length_append, hfront,
      Nat.sub_eq_zero_of_le (Nat.le_add_right _ _), List.replicate_zero, List.append_nil,
      Nat.add_sub_cancel_left, List.drop_drop, List.length_append]
    rw [List.drop_eq_nil_of_le (by rw [hfront]; omega)]
    simp [Nat.add_assoc]
  · rw [List.length_append, Nat.add_assoc]

/-- A write within the file. -/
lemma write_append (h : f.data = a ++ b) (hoff : f.off = a.length) (l : List (BitVec 8)) :
    (f.write l).data = a ++ (l ++ b.drop l.length) := by
  unfold write
  simp only
  rw [h, hoff, List.take_left, List.length_append, Nat.sub_eq_zero_of_le (Nat.le_add_right _ _),
    List.replicate_zero, List.append_nil, List.drop_append, List.drop_eq_nil_of_le (by omega),
    Nat.add_sub_cancel_left, List.nil_append, List.append_assoc]

/-- **What is read in the middle of a file.** -/
lemma read_append (h : f.data = a ++ (l ++ b)) (hoff : f.off = a.length) :
    f.read l.length = (l, { f with off := a.length + l.length }) := by
  unfold read
  rw [h, hoff, List.drop_left, List.take_left]

lemma readWord_append (h : f.data = a ++ (wordBytes w ++ b)) (hoff : f.off = a.length)
    (stale : BitVec 32) : f.readWord stale = (w, { f with off := a.length + 4 }) := by
  have hread := read_append h hoff
  rw [length_wordBytes] at hread
  unfold readWord
  rw [hread]
  simp only [length_wordBytes]
  rw [List.drop_eq_nil_of_le (length_wordBytes stale).le, List.append_nil, ofBytes_wordBytes]

/-- At the end of the file the variable keeps what it holds. -/
lemma readWord_end (h : f.data.length ≤ f.off) : f.readWord stale = (stale, f) := by
  unfold readWord read
  rw [List.drop_eq_nil_of_le h, List.take_nil]
  simp only [List.length_nil, List.nil_append, List.drop_zero, ofBytes_wordBytes, Nat.add_zero]

end ByteFile
