import Mathlib.Data.List.DropRight
import MosVolca.Kern.Env
import MosVolca.Library.CString
import MosVolca.Library.Numeral

/-!
# Formatted numbers

`vprintfmt` of `lib/print.c` with `print_char`, `print_str` and `print_num`, on the calls of `out`
that they make. An access outside an array, a byte that is read before it is stored and an argument
that is not there give `none`. The format string is read by index, up to the null byte at its end. A
`long` is a word like an `int`, so `long_flag` makes no difference.

## Main definitions

* `MosVolca.printChar`, `MosVolca.printStr`, `MosVolca.printNum` — the functions.
* `MosVolca.vprintfmt` — `vprintfmt`.
* `MosVolca.layout` — a number in its field.
* `MosVolca.readSigned` — what a decimal number in a field stands for.

## Main results

* `MosVolca.printNum_eq` — `print_num` prints the number in its field.
* `MosVolca.printed_numbers` — what is printed reads back.
-/

namespace MosVolca

/-- What a call of `out` gets. -/
abbrev Chunk := List (BitVec 8)

/-- An array of `char`, where `none` is a byte that has not been stored. -/
abbrev CharBuf := List (Option (BitVec 8))

/-- `buf[i] = c`. -/
def CharBuf.store (buf : CharBuf) (i : ℕ) (c : BitVec 8) : Option CharBuf :=
  if i < buf.length then some (buf.set i (some c)) else none

/-- `buf[i]`. -/
def CharBuf.load (buf : CharBuf) (i : ℕ) : Option (BitVec 8) := buf[i]?.join

/-- `char buf[length + 70]`. From some length on the size wraps around to a negative number, and
nothing can be stored. -/
def charBuf (length : ℕ) : CharBuf :=
  List.replicate (BitVec.ofNat 32 (length + 70)).toInt.toNat none

/-! ## Numbers -/

/-- The loop that stores the digits of `u` from `p` on, the last one first. Each turn stores a byte,
so there are no more turns than bytes in the array. -/
def putDigits (base : ℕ) (upcase : Bool) : (fuel u : ℕ) → CharBuf → ℕ → Option (CharBuf × ℕ)
  | 0, _, _, _ => none
  | fuel + 1, u, buf, p => do
    let buf ← buf.store p (Numeral.digitByte upcase (u % base))
    if u / base ≠ 0 then putDigits base upcase fuel (u / base) buf (p + 1) else some (buf, p + 1)

/-- `buf[i] = padc` for `k` numbers from `i` on. -/
def fillFrom (padc : BitVec 8) : (i k : ℕ) → CharBuf → Option CharBuf
  | _, 0, buf => some buf
  | i, k + 1, buf => do fillFrom padc (i + 1) k (← buf.store i padc)

/-- `while (end > begin)`: the bytes from `begin` to `end` are reversed. -/
def reverseRange : (fuel b e : ℕ) → CharBuf → Option CharBuf
  | 0, _, _, buf => some buf
  | fuel + 1, b, e, buf =>
    if b < e then do
      let tmp ← buf.load b
      let buf ← buf.store b (← buf.load e)
      let buf ← buf.store e tmp
      reverseRange fuel (b + 1) (e - 1) buf
    else some buf

/-- `if (neg_flag) *p++ = '-'`. -/
def putSign (negFlag : Bool) (buf : CharBuf) (p : ℕ) : Option (CharBuf × ℕ) :=
  if negFlag then (buf.store p 0x2d).map fun buf => (buf, p + 1) else some (buf, p)

/-- The padding up to `length`. -/
def putPadding (negFlag ladjust : Bool) (padc : BitVec 8) (actualLength length : ℕ)
    (buf : CharBuf) : Option CharBuf :=
  if negFlag && !ladjust && padc == 0x30 then do
    -- the zeros go over the sign, which is stored anew after them
    let buf ← fillFrom padc (actualLength - 1) (length - 1 - (actualLength - 1)) buf
    buf.store (length - 1) 0x2d
  else fillFrom padc actualLength (length - actualLength) buf

/-- `print_num`. -/
def printNum (u base : ℕ) (negFlag : Bool) (length : ℕ) (ladjust : Bool) (padc : BitVec 8)
    (upcase : Bool) : Option (List Chunk) := do
  let buf := charBuf length
  let (buf, p) ← putDigits base upcase (buf.length + 1) u buf 0
  let (buf, actualLength) ← putSign negFlag buf p
  let length := if length < actualLength then actualLength else length
  let padc := if ladjust then 0x20 else padc
  let buf ← putPadding negFlag ladjust padc actualLength length buf
  let last := if ladjust then actualLength - 1 else length - 1
  let buf ← reverseRange length 0 last buf
  let text ← (List.range length).mapM buf.load
  some [text]

/-! ## Characters and strings -/

/-- `out(data, " ", 1)`, `n` times. -/
def blankChunks (n : ℕ) : List Chunk := List.replicate n [0x20]

/-- `print_char`. -/
def printChar (c : BitVec 8) (length : ℕ) (ladjust : Bool) : List Chunk :=
  let length := if length < 1 then 1 else length
  if ladjust then [c] :: blankChunks (length - 1) else blankChunks (length - 1) ++ [[c]]

/-- `while (*s1++) len++`. -/
def countBytes (s : ℕ → BitVec 8) : (fuel len : ℕ) → Option ℕ
  | 0, _ => none
  | fuel + 1, len => if s len ≠ 0 then countBytes s fuel (len + 1) else some len

/-- `print_str`. -/
def printStr (fuel : ℕ) (s : ℕ → BitVec 8) (length : ℕ) (ladjust : Bool) :
    Option (List Chunk) := do
  let len ← countBytes s fuel 0
  let length := if length < len then len else length
  if ladjust then some (CString.bytes s len :: blankChunks (length - len))
  else some (blankChunks (length - len) ++ [CString.bytes s len])

/-! ## Format strings -/

/-- What the directive says before the conversion. -/
structure Flags where
  ladjust : Bool
  padc : BitVec 8
  width : ℕ

/-- The labels of the `switch`. -/
inductive Conversion
  | number (base : ℕ) (signed upcase : Bool)
  | char
  | string
  | other

/-- The label of a character. -/
def conversion (c : BitVec 8) : Conversion :=
  if c = 0x62 then .number 2 false false
  else if c = 0x64 ∨ c = 0x44 then .number 10 true false
  else if c = 0x6f ∨ c = 0x4f then .number 8 false false
  else if c = 0x75 ∨ c = 0x55 then .number 10 false false
  else if c = 0x78 then .number 16 false false
  else if c = 0x58 then .number 16 false true
  else if c = 0x63 then .char
  else if c = 0x73 then .string
  else .other

/-- The cases of the `switch`, with the arguments that are left. -/
def convert (mem : ℕ → BitVec 8) (fuel : ℕ) (f : Flags) (c : BitVec 8) (args : List Word) :
    Option (List Chunk × List Word) :=
  match conversion c, args with
  | .number base signed upcase, num :: args => do
    -- the number is negated if it is below zero
    let negFlag := signed && num.msb
    let u := if negFlag then -num else num
    let chunks ← printNum u.toNat base negFlag f.width f.ladjust f.padc upcase
    some (chunks, args)
  | .char, num :: args => some (printChar (num.setWidth 8) f.width f.ladjust, args)
  | .string, s :: args => do
    let chunks ← printStr fuel (fun i => mem (s.toNat + i)) f.width f.ladjust
    some (chunks, args)
  | .other, args => some ([[c]], args)
  | _, [] => none

/-- `*fmt`, with the null byte at the end of the string. -/
def fmtAt (s : List (BitVec 8)) (i : ℕ) : Option (BitVec 8) := (s ++ [0])[i]?

/-- The loop up to the next `%`. -/
def scanText (s : List (BitVec 8)) : (fuel i : ℕ) → Option (List Chunk × ℕ)
  | 0, _ => none
  | fuel + 1, i => do
    let c ← fmtAt s i
    if c ≠ 0x25 ∧ c ≠ 0 then do
      let (chunks, j) ← scanText s fuel (i + 1)
      some ([c] :: chunks, j)
    else some ([], i)

/-- A flag that may be there. -/
def scanFlag (s : List (BitVec 8)) (flag : BitVec 8) (i : ℕ) : Option (Bool × ℕ) := do
  if (← fmtAt s i) = flag then some (true, i + 1) else some (false, i)

/-- The digits of the width. A width that is not an `int` is left out of the model. -/
def scanDigits (s : List (BitVec 8)) : (fuel width i : ℕ) → Option (ℕ × ℕ)
  | 0, _, _ => none
  | fuel + 1, width, i => do
    let c ← fmtAt s i
    if 0x30 ≤ c.toNat ∧ c.toNat ≤ 0x39 then
      let width := width * 10 + (c.toNat - 0x30)
      if width < 2 ^ 31 then scanDigits s fuel width (i + 1) else none
    else some (width, i)

/-- The width, which does not start with a zero. -/
def scanWidth (s : List (BitVec 8)) (i : ℕ) : Option (ℕ × ℕ) := do
  let c ← fmtAt s i
  if 0x30 < c.toNat ∧ c.toNat ≤ 0x39 then scanDigits s (s.length + 1) (c.toNat - 0x30) (i + 1)
  else some (0, i)

/-- What comes between the `%` and the conversion. -/
def scanFlags (s : List (BitVec 8)) (i : ℕ) : Option (Flags × ℕ) := do
  let (ladjust, i) ← scanFlag s 0x2d i
  let (zero, i) ← scanFlag s 0x30 i
  let (width, i) ← scanWidth s i
  let (_, i) ← scanFlag s 0x6c i
  some (⟨ladjust, if zero then 0x30 else 0x20, width⟩, i)

/-- The directive at index `i`, with the arguments and the index after it. At the end of the string
`fmt` goes back, for the increment after the `switch`. -/
def directiveAt (mem : ℕ → BitVec 8) (fuel : ℕ) (s : List (BitVec 8)) (i : ℕ) (args : List Word) :
    Option (List Chunk × List Word × ℕ) := do
  let (f, i) ← scanFlags s (i + 1)
  let c ← fmtAt s i
  if c = 0 then some ([], args, i - 1 + 1)
  else (convert mem fuel f c args).map fun r => (r.1, r.2, i + 1)

/-- The loop of `vprintfmt`, for a number of turns, from index `i` on. -/
def vprintfmtFrom (mem : ℕ → BitVec 8) (fuel : ℕ) (s : List (BitVec 8)) :
    (turns i : ℕ) → List Word → Option (List Chunk)
  | 0, _, _ => none
  | turns + 1, i, args => do
    let (text, i) ← scanText s (s.length + 1 - i) i
    if (← fmtAt s i) = 0 then some text
    else
      let (chunks, args, i) ← directiveAt mem fuel s i args
      let rest ← vprintfmtFrom mem fuel s turns i args
      some (text ++ chunks ++ rest)

/-- `vprintfmt`, with `fuel` for its loops. -/
def vprintfmt (mem : ℕ → BitVec 8) (fuel : ℕ) (s : List (BitVec 8)) (args : List Word) :
    Option (List Chunk) :=
  vprintfmtFrom mem fuel s fuel 0 args

/-! ## Arrays of characters -/

variable {base length k i m n : ℕ} {u : ℕ} {upcase neg ladjust : Bool} {padc c : BitVec 8}
  {t : Chunk} {buf : CharBuf}

/-- An array of which the text `t` has been stored, with `m` bytes left. -/
def written (t : Chunk) (m : ℕ) : CharBuf := t.map some ++ List.replicate m none

@[simp] lemma length_written : (written t m).length = t.length + m := by
  simp [written]

lemma charBuf_eq (h : length + 70 < 2 ^ 31) : charBuf length = written [] (length + 70) := by
  rw [charBuf, BitVec.toInt_eq_toNat_of_lt (by rw [BitVec.toNat_ofNat]; omega), BitVec.toNat_ofNat,
    Int.toNat_natCast, Nat.mod_eq_of_lt (by omega)]
  rfl

/-- Beyond that the array has no bytes. -/
lemma charBuf_eq_nil (h : length < 2 ^ 31) (h' : 2 ^ 31 ≤ length + 70) : charBuf length = [] := by
  have hneg : (BitVec.ofNat 32 (length + 70)).toInt ≤ 0 := by
    rw [BitVec.toInt_eq_toNat_cond, BitVec.toNat_ofNat, Nat.mod_eq_of_lt (by omega),
      if_neg (by omega)]
    push_cast
    omega
  rw [charBuf, Int.toNat_of_nonpos hneg]
  rfl

lemma store_written : (written t (m + 1)).store t.length c = some (written (t ++ [c]) m) := by
  rw [CharBuf.store, if_pos (by simp)]
  simp [written, List.replicate_succ]

/-- A byte that has been stored is stored anew. -/
lemma store_written_snoc {c' : BitVec 8} :
    (written (t ++ [c']) m).store t.length c = some (written (t ++ [c]) m) := by
  rw [CharBuf.store, if_pos (by rw [length_written, List.length_append]; simp; omega)]
  simp [written]

lemma load_written {j : ℕ} (hj : j < t.length) : (written t m).load j = some t[j] := by
  simp [CharBuf.load, written, List.getElem?_append, hj]

/-- The loop over the digits stores them in reverse. -/
lemma putDigits_written (upcase : Bool) (u : ℕ) (t : Chunk) (hb : 1 < base) {fuel : ℕ}
    (hm : (Numeral.numeral base upcase u).length ≤ m)
    (hfuel : (Numeral.numeral base upcase u).length < fuel) :
    putDigits base upcase fuel u (written t m) t.length =
      some (written (t ++ (Numeral.numeral base upcase u).reverse)
        (m - (Numeral.numeral base upcase u).length),
        t.length + (Numeral.numeral base upcase u).length) := by
  induction fuel generalizing u t m with
  | zero => omega
  | succ fuel ih =>
    obtain ⟨m, rfl⟩ : ∃ m', m = m' + 1 :=
      ⟨m - 1, by have := List.length_pos_of_ne_nil (Numeral.numeral_ne_nil base upcase u); omega⟩
    rw [Numeral.numeral_eq hb] at hm hfuel ⊢
    rw [putDigits, store_written]
    simp only [Option.bind_eq_bind, Option.bind_some]
    by_cases hq : u / base = 0
    · rw [if_neg (not_not.mpr hq), if_pos hq]
      simp
    · rw [if_neg hq] at hm hfuel ⊢
      rw [if_pos hq]
      rw [List.length_append, List.length_singleton] at hm hfuel
      have hlen : t.length + 1 = (t ++ [Numeral.digitByte upcase (u % base)]).length := by simp
      rw [hlen, ih _ _ (by omega) (by omega)]
      simp [Nat.add_assoc, Nat.add_comm 1, Nat.add_sub_add_right]

/-- The loop over the padding, after what has been stored. -/
lemma fillFrom_written (hm : k ≤ m) :
    fillFrom padc t.length k (written t m) =
      some (written (t ++ List.replicate k padc) (m - k)) := by
  induction k generalizing t m with
  | zero => simp [fillFrom]
  | succ k ih =>
    obtain ⟨m, rfl⟩ : ∃ m', m = m' + 1 := ⟨m - 1, by omega⟩
    have hlen : t.length + 1 = (t ++ [padc]).length := by simp
    rw [fillFrom, store_written, Option.bind_eq_bind, Option.bind_some, hlen, ih (by omega)]
    simp [List.replicate_succ]

/-- The loop that reverses turns around the bytes between its two indices. -/
lemma reverseRange_eq (pre post : CharBuf) {fuel : ℕ} (hfuel : t.length ≤ fuel) :
    reverseRange fuel pre.length (pre.length + t.length - 1) (pre ++ t.map some ++ post) =
      some (pre ++ t.reverse.map some ++ post) := by
  induction t using List.bidirectionalRec generalizing pre post fuel with
  | nil =>
    rcases fuel with _ | fuel
    · simp [reverseRange]
    · rw [reverseRange, if_neg (by simp)]
      simp
  | singleton x =>
    rcases fuel with _ | fuel
    · simp [reverseRange]
    · rw [reverseRange, if_neg (by simp)]
      simp
  | cons_append x mid y ih =>
    obtain ⟨fuel, rfl⟩ : ∃ f, fuel = f + 1 := ⟨fuel - 1, by simp at hfuel; omega⟩
    have hmid : mid.length ≤ fuel := by simp at hfuel; omega
    have hlast : pre.length + (x :: (mid ++ [y])).length - 1 = pre.length + (mid.length + 1) := by
      simp [Nat.add_assoc]
    have hswap := ih (pre ++ [some y]) (some x :: post) hmid
    have hnext : (pre ++ [some y]).length + mid.length - 1 =
        pre.length + (mid.length + 1) - 1 := by
      simp [Nat.add_assoc, Nat.add_comm 1]
    rw [hnext, List.length_append, List.length_singleton] at hswap
    rw [hlast, reverseRange, if_pos (by omega)]
    have hx : CharBuf.load (pre ++ (x :: (mid ++ [y])).map some ++ post) pre.length = some x := by
      simp [CharBuf.load]
    have hy : CharBuf.load (pre ++ (x :: (mid ++ [y])).map some ++ post)
        (pre.length + (mid.length + 1)) = some y := by
      simp [CharBuf.load]
    have hs : CharBuf.store (pre ++ (x :: (mid ++ [y])).map some ++ post) pre.length y =
        some (pre ++ (y :: (mid ++ [y])).map some ++ post) := by
      rw [CharBuf.store, if_pos (by simp)]
      simp
    have hs' : CharBuf.store (pre ++ (y :: (mid ++ [y])).map some ++ post)
        (pre.length + (mid.length + 1)) x =
        some (pre ++ [some y] ++ mid.map some ++ some x :: post) := by
      rw [CharBuf.store, if_pos (by simp)]
      simp
    simp only [Option.bind_eq_bind, hx, hy, hs, hs', Option.bind_some]
    rw [hswap]
    simp

/-! ## A number in its field -/

/-- The sign of a number. -/
def signText (neg : Bool) : Chunk := if neg then [0x2d] else []

/-- A number with sign and digits in a field of `length` characters: to the left with blanks after
it, or to the right with zeros after the sign, or with other padding before the sign. -/
def layout (neg : Bool) (length : ℕ) (ladjust : Bool) (padc : BitVec 8) (digits : Chunk) : Chunk :=
  let pad := length - (signText neg ++ digits).length
  if ladjust then signText neg ++ digits ++ List.replicate pad 0x20
  else if padc = 0x30 then signText neg ++ List.replicate pad 0x30 ++ digits
  else List.replicate pad padc ++ signText neg ++ digits

lemma length_signText (neg : Bool) : (signText neg).length = if neg then 1 else 0 := by
  cases neg <;> rfl

/-- **The field is as wide as it has to be.** -/
theorem length_layout {digits : Chunk} :
    (layout neg length ladjust padc digits).length =
      max length (digits.length + if neg then 1 else 0) := by
  rw [layout, ← length_signText]
  split
  · simp
    omega
  · split
    · simp
      omega
    · simp
      omega

lemma putSign_written (hm : 0 < m) :
    putSign neg (written t m) t.length =
      some (written (t ++ signText neg) (m - (signText neg).length),
        (t ++ signText neg).length) := by
  obtain ⟨m, rfl⟩ : ∃ m', m = m' + 1 := ⟨m - 1, by omega⟩
  cases neg
  · simp [putSign, signText]
  · simp [putSign, signText, store_written]

/-- The digits in reverse with sign and padding, before they are turned around. -/
def padded (neg ladjust : Bool) (padc : BitVec 8) (k : ℕ) (t : Chunk) : Chunk :=
  if neg && !ladjust && padc == 0x30 then t ++ List.replicate k padc ++ signText neg
  else t ++ signText neg ++ List.replicate k padc

lemma length_padded : (padded neg ladjust padc k t).length = (t ++ signText neg).length + k := by
  unfold padded
  split
  · simp
    omega
  · simp [Nat.add_assoc]

/-- The padding goes in front of the digits, behind them, or behind the sign. -/
lemma putPadding_written (hk : k ≤ m) :
    putPadding neg ladjust padc (t ++ signText neg).length ((t ++ signText neg).length + k)
      (written (t ++ signText neg) m) =
      some (written (padded neg ladjust padc k t) (m - k)) := by
  unfold putPadding padded
  split
  · next hneg =>
    obtain ⟨⟨rfl, -⟩, -⟩ : (neg = true ∧ _) ∧ _ := by simpa using hneg
    have hlen : (t ++ signText true).length = t.length + 1 := by simp [signText]
    rw [hlen, show t.length + 1 + k - 1 = t.length + k by omega, Nat.add_sub_cancel,
      Nat.add_sub_cancel_left]
    rcases k with _ | k
    · rw [fillFrom, Option.bind_eq_bind, Option.bind_some, Nat.add_zero]
      simp [signText, store_written_snoc]
    · obtain ⟨m, rfl⟩ : ∃ m', m = m' + 1 := ⟨m - 1, by omega⟩
      have hnext : t.length + 1 = (t ++ [padc]).length := by simp
      have hend : t.length + (k + 1) = (t ++ [padc] ++ List.replicate k padc).length := by
        simp
      rw [fillFrom, signText, if_pos rfl, store_written_snoc, Option.bind_eq_bind,
        Option.bind_some, hnext, fillFrom_written (by omega),
        Option.bind_some, hend, show m + 1 - k = (m - k) + 1 by omega, store_written]
      simp [List.replicate_succ]
  · rw [Nat.add_sub_cancel_left, fillFrom_written hk]

lemma reverseRange_written (t tail : Chunk) (m : ℕ) {fuel : ℕ} (hfuel : t.length ≤ fuel) :
    reverseRange fuel 0 (t.length - 1) (written (t ++ tail) m) =
      some (written (t.reverse ++ tail) m) := by
  have h := reverseRange_eq [] (tail.map some ++ List.replicate m none) hfuel
  simpa [written] using h

/-- The number in its field is what has been stored, turned around. -/
lemma reverse_padded (hpad : k = length - (t ++ signText neg).length) :
    (padded neg false padc k t).reverse = layout neg length false padc t.reverse := by
  have hlen : (signText neg ++ t.reverse).length = (t ++ signText neg).length := by
    simp [Nat.add_comm]
  have hsign : (signText neg).reverse = signText neg := by
    cases neg <;> rfl
  rw [layout, hlen, ← hpad, padded]
  by_cases hz : padc = 0x30
  · subst hz
    cases neg <;> simp [signText]
  · have hz' : ¬padc = 48#8 := hz
    simp [hz', hsign]

lemma reverse_append_blanks (hpad : k = length - (t ++ signText neg).length) :
    (t ++ signText neg).reverse ++ List.replicate k 0x20 =
      layout neg length true padc t.reverse := by
  have hlen : (signText neg ++ t.reverse).length = (t ++ signText neg).length := by
    simp [Nat.add_comm]
  rw [layout, hlen, ← hpad, if_pos rfl, List.reverse_append]
  cases neg <;> rfl

/-- The bytes that `out` reads have been stored. -/
lemma mapM_load_written : (List.range t.length).mapM (written t m).load = some t := by
  have hload : ∀ l : List ℕ, (∀ i ∈ l, i < t.length) →
      l.mapM (written t m).load = some (l.map fun i => t.getD i 0) := by
    intro l hl
    induction l with
    | nil => rfl
    | cons i l ih =>
      rw [List.mapM_cons, load_written (hl i List.mem_cons_self),
        ih fun j hj => hl j (List.mem_cons_of_mem i hj)]
      simp [hl i List.mem_cons_self]
  rw [hload _ fun i hi => List.mem_range.mp hi]
  exact congrArg some (List.ext_getElem (by simp) fun i h1 h2 => by simp [h2])

/-- **`print_num` prints the number in its field**, with one call of `out`. -/
theorem printNum_eq (hb : 1 < base) (hu : u < 2 ^ 32) (hlen : length + 70 < 2 ^ 31) :
    printNum u base neg length ladjust padc upcase =
      some [layout neg length ladjust padc (Numeral.numeral base upcase u)] := by
  have hn : (Numeral.numeral base upcase u).length ≤ 32 :=
    Numeral.length_numeral_le hb (by omega) (hu.trans_le (Nat.pow_le_pow_left hb 32))
  obtain ⟨ds, hds⟩ : ∃ ds, (Numeral.numeral base upcase u).reverse = ds := ⟨_, rfl⟩
  have hrev : Numeral.numeral base upcase u = ds.reverse := by rw [← hds, List.reverse_reverse]
  rw [hrev, List.length_reverse] at hn
  have hput : putDigits base upcase ((written [] (length + 70)).length + 1) u
      (written [] (length + 70)) 0 = some (written ds (length + 70 - ds.length), ds.length) := by
    have h := putDigits_written upcase u [] hb (show _ ≤ length + 70 by rw [hrev]; simp; omega)
      (show _ < (written [] (length + 70)).length + 1 by rw [hrev]; simp; omega)
    rwa [hrev, List.length_reverse, List.reverse_reverse, List.length_nil, Nat.zero_add] at h
  have hsign := length_signText neg
  obtain ⟨k, hk⟩ : ∃ k, k = length - (ds ++ signText neg).length := ⟨_, rfl⟩
  have hactual : (if length < (ds ++ signText neg).length then (ds ++ signText neg).length
      else length) = (ds ++ signText neg).length + k := by
    split <;> omega
  have hroom : k ≤ length + 70 - ds.length - (signText neg).length := by
    rw [List.length_append] at hk
    split at hsign <;> omega
  unfold printNum
  rw [charBuf_eq hlen]
  simp only [Option.bind_eq_bind, hput, Option.bind_some]
  rw [putSign_written (by omega)]
  simp only [Option.bind_some, hactual]
  rw [putPadding_written hroom]
  simp only [Option.bind_some]
  rw [hrev]
  cases ladjust with
  | true =>
    have htext : padded neg true 0x20 k ds = ds ++ signText neg ++ List.replicate k 0x20 := by
      simp [padded]
    rw [if_pos rfl, if_pos rfl, htext, reverseRange_written _ _ _ (by omega), Option.bind_some]
    have hlast : (ds ++ signText neg).length + k =
        ((ds ++ signText neg).reverse ++ List.replicate k 0x20).length := by
      simp
      omega
    rw [hlast, mapM_load_written, Option.bind_some, reverse_append_blanks hk]
  | false =>
    have htext := reverseRange_written (padded neg false padc k ds) []
      (length + 70 - ds.length - (signText neg).length - k) length_padded.le
    rw [List.append_nil, List.append_nil, length_padded] at htext
    rw [if_neg Bool.false_ne_true, if_neg Bool.false_ne_true, htext, Option.bind_some]
    have hlast : (ds ++ signText neg).length + k =
        (padded neg false padc k ds).reverse.length := by
      rw [List.length_reverse, length_padded]
    rw [hlast, mapM_load_written, Option.bind_some, reverse_padded hk]

/-- A field for which the size of the array wraps around: nothing can be stored. -/
theorem printNum_eq_none (hlen : length < 2 ^ 31) (h : 2 ^ 31 ≤ length + 70) :
    printNum u base neg length ladjust padc upcase = none := by
  rw [printNum, charBuf_eq_nil hlen h]
  rfl

/-! ## Reading a number -/

/-- The number that a decimal text stands for, with blanks around it and perhaps a sign. -/
def readSigned (t : Chunk) : Option ℤ :=
  let body := (t.dropWhile (· == 0x20)).rdropWhile (· == 0x20)
  if body.head? = some 0x2d then (Numeral.read 10 body.tail).map fun n => -(n : ℤ)
  else (Numeral.read 10 body).map fun n => (n : ℤ)

/-- The number in its field: blanks, the sign, zeros, the digits and blanks. -/
lemma layout_eq_blanks (neg : Bool) (length : ℕ) (ladjust : Bool)
    (hpad : padc = 0x30 ∨ padc = 0x20) (digits : Chunk) :
    ∃ a b j, layout neg length ladjust padc digits = List.replicate a 0x20 ++
      (signText neg ++ List.replicate j 0x30 ++ digits) ++ List.replicate b 0x20 := by
  obtain ⟨k, hk⟩ : ∃ k, length - (signText neg ++ digits).length = k := ⟨_, rfl⟩
  unfold layout
  rw [hk]
  split
  · exact ⟨0, k, 0, by simp⟩
  · split
    · exact ⟨0, 0, k, by simp⟩
    · next hz =>
      obtain rfl : padc = 0x20 := hpad.resolve_left hz
      exact ⟨k, 0, 0, by simp⟩

/-- Blanks around a text without blanks. -/
lemma trim_blanks {a b : ℕ} (hne : t ≠ []) (ht : ∀ c ∈ t, c ≠ 0x20) :
    ((List.replicate a 0x20 ++ t ++ List.replicate b 0x20).dropWhile (· == 0x20)).rdropWhile
      (· == 0x20) = t := by
  have hdrop : (List.replicate a (0x20 : BitVec 8) ++ t ++ List.replicate b 0x20).dropWhile
      (· == 0x20) = t ++ List.replicate b 0x20 := by
    rw [List.append_assoc, List.dropWhile_append_of_pos (by simp)]
    obtain ⟨c, t, rfl⟩ := List.exists_cons_of_ne_nil hne
    rw [List.cons_append, List.dropWhile_cons_of_neg (by simpa using ht c List.mem_cons_self)]
  rw [hdrop, List.rdropWhile, List.reverse_append, List.reverse_replicate,
    List.dropWhile_append_of_pos (by simp)]
  rw [List.dropWhile_eq_self_iff.mpr, List.reverse_reverse]
  intro hpos hc
  exact ht _ (List.mem_reverse.mp (List.getElem_mem hpos)) (by simpa using hc)

/-- **A number in its field reads back**, with its sign. -/
theorem readSigned_layout (hpad : padc = 0x30 ∨ padc = 0x20) :
    readSigned (layout neg length ladjust padc (Numeral.numeral 10 upcase u)) =
      some (if neg then -(u : ℤ) else u) := by
  obtain ⟨a, b, j, hlayout⟩ := layout_eq_blanks neg length ladjust hpad
    (Numeral.numeral 10 upcase u)
  have hge : ∀ c ∈ List.replicate j 0x30 ++ Numeral.numeral 10 upcase u, 0x30 ≤ c.toNat := by
    intro c hc
    rcases List.mem_append.mp hc with hc | hc
    · rw [List.eq_of_mem_replicate hc]
      decide
    · exact Numeral.le_of_mem_numeral (by omega) (by omega) hc
  have hread := Numeral.read_zeros_append upcase u j (show 1 < 10 by omega) (by omega)
  obtain ⟨ds, hds⟩ : ∃ ds, List.replicate j 0x30 ++ Numeral.numeral 10 upcase u = ds := ⟨_, rfl⟩
  have hne : ds ≠ [] := by
    rw [← hds]
    simp [Numeral.numeral_ne_nil]
  rw [List.append_assoc (signText neg), hds] at hlayout
  rw [hds] at hge hread
  have htrim : ∀ c ∈ signText neg ++ ds, c ≠ 0x20 := by
    intro c hc h20
    rcases List.mem_append.mp hc with hc | hc
    · cases neg
      · cases hc
      · rw [List.mem_singleton.mp hc] at h20
        exact absurd h20 (by decide)
    · have := hge c hc
      rw [h20] at this
      exact absurd this (by decide)
  rw [readSigned, hlayout, trim_blanks (by simp [hne]) htrim]
  cases neg with
  | true => simp [signText, hread]
  | false =>
    obtain ⟨c, ds, rfl⟩ := List.exists_cons_of_ne_nil hne
    have hc : c ≠ 0x2d := by
      intro h
      have := hge c List.mem_cons_self
      rw [h] at this
      exact absurd this (by decide)
    have hc' : c ≠ 45#8 := hc
    simp [signText, hread, hc']

/-- A negative word is the negation of its magnitude, also the least one. -/
lemma toInt_eq_neg (num : Word) (h : num.msb = true) : num.toInt = -((-num).toNat : ℤ) := by
  have hge := BitVec.msb_eq_true_iff_two_mul_ge.mp h
  have hlt := num.isLt
  rw [BitVec.toInt_eq_toNat_cond, if_neg (by omega), BitVec.toNat_neg,
    Nat.mod_eq_of_lt (by omega)]
  push_cast [Nat.cast_sub hlt.le]
  ring

lemma toInt_eq_toNat_of_msb (num : Word) (h : num.msb = false) : num.toInt = (num.toNat : ℤ) := by
  rw [BitVec.toInt_eq_msb_cond, h]
  rfl

lemma convert_number {mem : ℕ → BitVec 8} {fuel : ℕ} {f : Flags} {signed : Bool} {num : Word}
    {args : List Word} (hc : conversion c = .number base signed upcase) :
    convert mem fuel f c (num :: args) =
      (printNum (if signed && num.msb then -num else num).toNat base (signed && num.msb) f.width
        f.ladjust f.padc upcase).map fun chunks => (chunks, args) := by
  unfold convert
  rw [hc]
  exact Option.map_eq_bind.symm

/-- **Numbers are printed so that they read back.** `print_num` prints one text, which is as wide as
the field or as the number with its sign; its digits read back without leading zeros, and what `%d`
prints reads back as the signed value. -/
theorem printed_numbers :
    (∀ (u : Word) (base) (_ : base ∈ [2, 8, 10, 16]) (neg : Bool) (length)
      (_ : length < 2 ^ 31 - 71) (ladjust : Bool) (padc) (_ : padc = 0x30 ∨ padc = 0x20)
      (upcase : Bool), ∃ digits,
        printNum u.toNat base neg length ladjust padc upcase =
          some [layout neg length ladjust padc digits] ∧
        (layout neg length ladjust padc digits).length =
          max length (digits.length + if neg then 1 else 0) ∧
        Numeral.read base digits = some u.toNat ∧
        (digits.head? = some 0x30 → digits = [0x30])) ∧
    ∀ (mem : ℕ → BitVec 8) (fuel) (f : Flags) (_ : f.width < 2 ^ 31 - 71)
      (_ : f.padc = 0x30 ∨ f.padc = 0x20) (c) (_ : c = 0x64 ∨ c = 0x44) (num : Word) (args),
      ∃ text, convert mem fuel f c (num :: args) = some ([text], args) ∧
        readSigned text = some num.toInt := by
  constructor
  · intro u base hbase neg length hlen ladjust padc hpad upcase
    have hb : 1 < base ∧ base ≤ 36 := by
      simp only [List.mem_cons, List.not_mem_nil, or_false] at hbase
      omega
    exact ⟨Numeral.numeral base upcase u.toNat, printNum_eq hb.1 u.isLt (by omega), length_layout,
      Numeral.read_numeral hb.1 hb.2, Numeral.numeral_head hb.1 hb.2⟩
  · intro mem fuel f hlen hpad c hc num args
    have hconv : conversion c = .number 10 true false := by
      rcases hc with rfl | rfl <;> rfl
    rw [convert_number hconv, printNum_eq (by omega) (BitVec.isLt _) (by omega)]
    refine ⟨_, rfl, ?_⟩
    rw [readSigned_layout hpad, Bool.true_and]
    cases hmsb : num.msb with
    | true => rw [if_pos rfl, if_pos rfl, toInt_eq_neg num hmsb]
    | false =>
      rw [if_neg Bool.false_ne_true, if_neg Bool.false_ne_true, toInt_eq_toNat_of_msb num hmsb]

/-- The least number, whose sign cannot be changed. -/
theorem printed_numbers_least :
    ∃ text, convert (fun _ => 0) 0 ⟨false, 0x30, 12⟩ 0x64 [0x80000000] = some ([text], []) ∧
      readSigned text = some (-2147483648) :=
  printed_numbers.2 (fun _ => 0) 0 ⟨false, 0x30, 12⟩ (by decide) (Or.inl rfl) 0x64 (Or.inl rfl)
    0x80000000 []

end MosVolca
